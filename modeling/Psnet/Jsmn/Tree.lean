/-
What the tokenizer builds: a forest.

`Zip` is a parse in progress without the token array: the forest read so
far at the innermost level and the path of open brackets. `zipChar` is
the loop body on it, and `zipParse` the whole parse. The array holds the
listing of the zip at every iteration (`Reps`), so `jsmn_parse` computes
`zipParse` whatever the array held before (`jsmnParse_spec`): on success
its first `count` tokens are the preorder listing of the forest, each
with its number of children, and the others are as they were.

Statements about the tokens are then statements about the forest.

# Where the difficulty is

The array does not say which brackets are open. A closing bracket is
matched by a search from the last token down to one without an end, and
then the parent is searched for in the same way: `lastOpen_path` says that
both searches meet the innermost frames of the path, since the tokens of
complete values are all closed. The other operations change the array at
its end, or the size of the innermost open token (`bumpSuper_path`).
-/
import Psnet.Jsmn.Model
import Psnet.Lib.Forest

namespace Psnet.Jsmn

open Forest

/-- A complete value: what a token says about it, but its size. -/
structure Lab where
  type : JsmnType
  start : Nat
  stop : Nat
  deriving DecidableEq, Repr

/-- An object or array that is still open. -/
structure Opened where
  type : JsmnType
  start : Nat
  deriving DecidableEq, Repr

/-- The token of a value with `size` children. -/
def Lab.tok (a : Lab) (size : Nat) : JsmnTok :=
  ⟨a.type, a.start, a.stop, size⟩

/-- The token of an open bracket with `size` children so far. -/
def Opened.tok (o : Opened) (size : Nat) : JsmnTok :=
  ⟨o.type, o.start, -1, size⟩

/-- The tokens of a forest. -/
def tokens (f : Forest Lab) : List JsmnTok := f.listing Lab.tok

/-- The open brackets, innermost first. -/
abbrev OpenPath := List (Frame Opened Lab)

/-- The tokens of the open brackets and of what stands to their left. -/
def pathTokens (path : OpenPath) (w : Nat) : List JsmnTok :=
  pathListing Opened.tok Lab.tok path w

/-- A parse in progress. -/
structure Zip where
  pos : Nat
  cur : Forest Lab
  path : OpenPath

/-- The tokens allocated so far. -/
def Zip.tokens (z : Zip) : List JsmnTok :=
  pathTokens z.path z.cur.width ++ Jsmn.tokens z.cur

/-- Their number. -/
def Zip.count (z : Zip) : Nat := pathCount z.path + z.cur.count

/-- The index of the innermost open bracket. -/
def superOf (path : OpenPath) : Option Nat :=
  match path with
  | [] => none
  | _ :: _ => some (pathCount path - 1)

@[simp] theorem tokens_nil : tokens .nil = [] := rfl

@[simp] theorem tokens_append (f g : Forest Lab) :
    tokens (f ++ g) = tokens f ++ tokens g := listing_append ..

/-- A forest has as many tokens as values. -/
@[simp] theorem length_tokens (f : Forest Lab) :
    (tokens f).length = f.count := length_listing ..

@[simp] theorem tokens_node (a : Lab) (kids rest : Forest Lab) :
    tokens (.node a kids rest)
      = a.tok kids.width :: (tokens kids ++ tokens rest) := rfl

/-- The token of a value stands before those of its parts. -/
@[simp] theorem tokens_tree (a : Lab) (kids : Forest Lab) :
    tokens (tree a kids) = a.tok kids.width :: tokens kids := by
  simp [tree]

@[simp] theorem width_tree (a : Lab) (kids : Forest Lab) :
    (tree a kids).width = 1 := rfl

@[simp] theorem count_tree (a : Lab) (kids : Forest Lab) :
    (tree a kids).count = kids.count + 1 := by simp [tree]

@[simp] theorem length_pathTokens (path : OpenPath) (w : Nat) :
    (pathTokens path w).length = pathCount path := length_pathListing ..

/-- The array holds one token for every value of the zip. -/
@[simp] theorem length_zipTokens (z : Zip) :
    z.tokens.length = z.count := by simp [Zip.tokens, Zip.count]

-- ====================================================== the abstract parser

/-- A new value at the innermost level, if the array has room. -/
def zipPush (num : Nat) (z : Zip) (pos : Nat) (a : Lab) :
    Except JsmnErr Zip :=
  if num ≤ z.count then .error .nomem
  else .ok { z with
    pos := pos
    cur := z.cur ++ tree a .nil }

/-- An opening bracket. -/
def zipOpen (num : Nat) (type : JsmnType) (z : Zip) : Except JsmnErr Zip :=
  if num ≤ z.count then .error .nomem
  else .ok ⟨z.pos + 1, .nil, ⟨⟨type, z.pos⟩, z.cur⟩ :: z.path⟩

/-- A closing bracket. -/
def zipClose (type : JsmnType) (z : Zip) : Except JsmnErr Zip :=
  match z.path with
  | [] => .error .inval
  | o :: path =>
      if o.label.type ≠ type then .error .inval
      else .ok ⟨z.pos + 1,
        o.left ++ tree ⟨type, o.label.start, z.pos + 1⟩ z.cur, path⟩

/-- One character, or one string or primitive. -/
def zipChar (js : List UInt8) (num : Nat) (z : Zip) : Except JsmnErr Zip :=
  let c := byteAt js z.pos
  if c = LBRACE then zipOpen num .object z
  else if c = LBRACKET then zipOpen num .array z
  else if c = RBRACE then zipClose .object z
  else if c = RBRACKET then zipClose .array z
  else if c = QUOTE then
    match scanString (js.drop (z.pos + 1)) (z.pos + 1) with
    | .error e => .error e
    | .ok e => zipPush num z (e + 1) ⟨.string, z.pos + 1, e⟩
  else if isBlank c then .ok { z with pos := z.pos + 1 }
  else
    match scanPrimitive (js.drop z.pos) z.pos with
    | none => .error .inval
    | some e => zipPush num z e ⟨.primitive, z.pos, e⟩

/-- The parse from `z` on, given fuel. -/
def zipLoop (js : List UInt8) (num : Nat) :
    Nat → Zip → Option (Except JsmnErr Zip)
  | 0, _ => none
  | k + 1, z =>
      if byteAt js z.pos = 0 then some (.ok z)
      else match zipChar js num z with
        | .error e => some (.error e)
        | .ok z => zipLoop js num k z

/-- The forest of a text that fits `num` tokens. The fuel is enough
(`zipLoop_total`). -/
def zipParse (js : List UInt8) (num : Nat) : Except JsmnErr (Forest Lab) :=
  match zipLoop js num (js.length + 1) ⟨0, .nil, []⟩ with
  | none => .error .part
  | some (.error e) => .error e
  | some (.ok z) =>
      match z.path with
      | [] => .ok z.cur
      | _ :: _ => .error .part

-- ============================================================ list positions

/-- Changing the element behind `l` leaves those around it. -/
private theorem modify_at {β : Type} (l r : List β) (t : β) (f : β → β)
    {i : Nat}
    (hi : i = l.length) : (l ++ t :: r).modify i f = l ++ f t :: r := by
  subst hi
  induction l with
  | nil => simp
  | cons a l ih => simp [ih]

/-- Storing behind `l` leaves the elements around it. -/
private theorem set_at {β : Type} (l r : List β) (t t' : β) {i : Nat}
    (hi : i = l.length) : (l ++ t :: r).set i t' = l ++ t' :: r := by
  subst hi
  simp

/-- The search for the last open bracket does not look behind where it
starts. -/
private theorem lastOpen_append (l r : List JsmnTok) {n : Nat}
    (hn : n ≤ l.length) :
    lastOpen (l ++ r) n = lastOpen l n := by
  induction n with
  | zero => rfl
  | succ n ih =>
      rw [lastOpen, lastOpen, ih (by omega),
        List.getElem?_append_left (by omega)]

/-- The search stops at the last token if that is open, and goes on before
it otherwise. -/
private theorem lastOpen_concat (l : List JsmnTok) (t : JsmnTok) {n : Nat}
    (hn : n = l.length + 1) :
    lastOpen (l ++ [t]) n
      = if t.isOpen then some l.length else lastOpen l l.length := by
  subst hn
  rw [lastOpen, lastOpen_append l [t] (Nat.le_refl _)]
  simp

/-- Closed tokens are passed over. -/
private theorem lastOpen_closed (l m : List JsmnTok)
    (hm : ∀ t ∈ m, t.isOpen = false) {n : Nat} (hn : n = l.length + m.length) :
    lastOpen (l ++ m) n = lastOpen l l.length := by
  induction m generalizing l n with
  | nil => simp [hn]
  | cons t m ih =>
      have := ih (l ++ [t]) (fun t ht => hm t (List.mem_cons_of_mem _ ht))
        (n := n) (by simp at hn ⊢; omega)
      rw [List.append_assoc, List.singleton_append] at this
      rw [this, lastOpen_concat l t (by simp),
        hm t (List.mem_cons_self ..), if_neg (by simp)]

/-- The tokens of complete values are all closed. -/
private theorem tokens_closed (f : Forest Lab) :
    ∀ t ∈ tokens f, t.isOpen = false := by
  induction f with
  | nil => simp
  | node a kids rest ihk ihr =>
      intro t ht
      rw [tokens_node, List.mem_cons, List.mem_append] at ht
      rcases ht with rfl | ht | ht
      · simp [JsmnTok.isOpen, Lab.tok]
      · exact ihk t ht
      · exact ihr t ht

/-- The last token of a path is the innermost open bracket. -/
private theorem pathTokens_cons (o : Frame Opened Lab) (path : OpenPath)
    (w : Nat) :
    pathTokens (o :: path) w
      = pathTokens path (o.left.width + 1) ++ tokens o.left
        ++ [o.label.tok w] := rfl

/-- The last open bracket is the innermost of the path. -/
private theorem lastOpen_path (path : OpenPath) (w : Nat) :
    lastOpen (pathTokens path w) (pathCount path) = superOf path := by
  cases path with
  | nil => rfl
  | cons o path =>
      rw [pathTokens_cons, lastOpen_concat _ _ (by simp [pathCount])]
      have : (o.label.tok w).isOpen = true := by
        simp only [JsmnTok.isOpen, Opened.tok, bne_iff_ne, ne_eq,
          Bool.and_eq_true, beq_iff_eq, and_true]
        omega
      rw [if_pos this]
      simp [superOf, pathCount]

/-- The innermost open bracket of a parse in progress. -/
private theorem lastOpen_zip (z : Zip) (rest : List JsmnTok) :
    lastOpen (z.tokens ++ rest) z.count = superOf z.path := by
  rw [lastOpen_append _ _ (by simp), Zip.tokens,
    lastOpen_closed _ _ (tokens_closed z.cur) (by simp [Zip.count]),
    length_pathTokens, lastOpen_path]

-- ============================================================ the simulation

/-- The parser and the array stand for `z`, over the array `arr` the
parse began with. -/
structure Reps (arr : List JsmnTok) (parser : JsmnParser)
    (toks : List JsmnTok) (z : Zip) : Prop where
  pos : parser.pos = z.pos
  next : parser.toknext = z.count
  super : parser.toksuper = superOf z.path
  toks : toks = z.tokens ++ arr.drop z.count

variable {arr toks : List JsmnTok} {parser : JsmnParser} {z : Zip}
  {num : Nat}

/-- Counting a child of the innermost open bracket. -/
private theorem bumpSuper_path (path : OpenPath) (w : Nat) (r : List JsmnTok)
    (hs : parser.toksuper = superOf path) :
    bumpSuper parser (pathTokens path w ++ r)
      = pathTokens path (w + 1) ++ r := by
  unfold bumpSuper
  rw [hs]
  cases path with
  | nil => rfl
  | cons o path =>
      simp only [superOf, pathTokens_cons, List.append_assoc,
        List.singleton_append]
      rw [← List.append_assoc, modify_at _ _ _ _ (by simp [pathCount]),
        List.append_assoc]
      rfl

/-- Where the next token goes. -/
private theorem drop_count (hnum : num ≤ arr.length) (h : ¬ num ≤ z.count) :
    ∃ t, arr.drop z.count = t :: arr.drop (z.count + 1) :=
  ⟨_, List.drop_eq_getElem_cons (by omega)⟩

/-- A string or primitive: the token is allocated, filled, and counted
by the innermost open bracket. -/
private theorem reps_push (hr : Reps arr parser toks z)
    (hnum : num ≤ arr.length)
    {type : JsmnType} {s e pos : Nat} {parser' : JsmnParser}
    (hp : parser'.toknext = parser.toknext)
    (hs : parser'.toksuper = parser.toksuper) :
    match jsmnAllocToken parser' toks num,
      zipPush num z pos ⟨type, s, e⟩ with
    | none, r => r = .error .nomem
    | some (i, p, ts), r => ∃ z', r = .ok z' ∧ p = { parser' with
          toknext := parser'.toknext + 1 } ∧
        Reps arr { p with pos := pos }
          (bumpSuper p (jsmnFillToken ts i type s e)) z' := by
  unfold jsmnAllocToken zipPush
  rw [hp, hr.next]
  by_cases h : num ≤ z.count
  · simp [h]
  · simp only [h, ↓reduceIte, Except.ok.injEq, exists_eq_left', true_and]
    obtain ⟨t, ht⟩ := @drop_count arr _ _ hnum h
    refine ⟨rfl, ?_, by simp [hs, hr.super], ?_⟩
    · simp [Zip.count, Nat.add_assoc]
    · rw [hr.toks, ht, jsmnFillToken,
        modify_at _ _ _ _ (by simp), set_at _ _ _ _ (by simp), Zip.tokens,
        List.append_assoc, bumpSuper_path]
      · simp [Zip.tokens, Zip.count, Lab.tok, Nat.add_assoc]
      · simp [hs, hr.super]

/-- An opening bracket is one token more in the array, and one frame more on
the path; or both have no room for it. -/
private theorem reps_open (hr : Reps arr parser toks z)
    (hnum : num ≤ arr.length) (type : JsmnType) :
    match jsmnOpen type parser toks num, zipOpen num type z with
    | .error e, r => r = .error e
    | .ok (p, ts), r => ∃ z', r = .ok z'
        ∧ Reps arr { p with pos := p.pos + 1 } ts z' := by
  unfold jsmnOpen jsmnAllocToken zipOpen
  rw [hr.next]
  by_cases h : num ≤ z.count
  · simp [h]
  · simp only [h, ↓reduceIte, Except.ok.injEq, exists_eq_left']
    obtain ⟨t, ht⟩ := @drop_count arr _ _ hnum h
    refine ⟨by simp [hr.pos], ?_, ?_, ?_⟩
    · simp [Zip.count, pathCount]
    · simp [superOf, Zip.count, pathCount]
    · rw [hr.toks, ht, modify_at _ _ _ _ (by simp), Zip.tokens,
        List.append_assoc, bumpSuper_path _ _ _ (by simp [hr.super]),
        ← List.append_assoc, modify_at _ _ _ _ (by simp [Zip.count]),
        hr.pos]
      simp [Zip.tokens, Zip.count, pathCount, pathTokens_cons, Opened.tok]

/-- A closing bracket ends the innermost open one, if they are of one type;
or both refuse it. -/
private theorem reps_close (hr : Reps arr parser toks z) (type : JsmnType) :
    match jsmnClose type parser toks, zipClose type z with
    | .error e, r => r = .error e
    | .ok (p, ts), r => ∃ z', r = .ok z'
        ∧ Reps arr { p with pos := p.pos + 1 } ts z' := by
  unfold jsmnClose zipClose
  rw [hr.next, hr.toks, lastOpen_zip]
  cases hpath : z.path with
  | nil => simp [superOf]
  | cons o path =>
      obtain ⟨i, hi⟩ : ∃ i, i = pathCount path + o.left.count := ⟨_, rfl⟩
      have hsuper : superOf (o :: path) = some i := by
        simp [superOf, pathCount, hi]
      -- the array up to the open bracket, the bracket, and the rest
      have hsplit : ∀ r, z.tokens ++ r
          = (pathTokens path (o.left.width + 1) ++ tokens o.left)
            ++ o.label.tok z.cur.width :: (tokens z.cur ++ r) := by
        intro r
        simp [Zip.tokens, hpath, pathTokens_cons]
      have hlen : i = (pathTokens path (o.left.width + 1)
          ++ tokens o.left).length := by simp [hi]
      simp only [hsuper]
      rw [hsplit, List.getElem?_append_right (Nat.le_of_eq hlen.symm)]
      simp only [hlen, Nat.sub_self, List.getElem?_cons_zero,
        Option.any_some, Opened.tok, bne_iff_ne]
      by_cases ht : o.label.type = type
      · rw [if_neg (by simpa using ht), if_neg (by simpa using ht)]
        simp only [Except.ok.injEq, exists_eq_left']
        rw [modify_at _ _ _ _ rfl]
        refine ⟨by simp [hr.pos], ?_, ?_, ?_⟩
        · simp [Zip.count, hpath, pathCount]
          omega
        · simp only
          rw [← List.singleton_append, ← List.append_assoc,
            lastOpen_append _ _ (by
              simp only [List.length_append, List.length_singleton]
              exact Nat.le_refl _),
            List.append_assoc,
            lastOpen_closed _ _ ?_ (by simp; omega)]
          · simp [lastOpen_path]
          · intro t ht'
            rw [List.mem_append, List.mem_singleton] at ht'
            rcases ht' with ht' | rfl
            · exact tokens_closed _ t ht'
            · simp only [JsmnTok.isOpen, hr.pos, Bool.and_eq_false_imp,
                beq_eq_false_iff_ne]
              omega
        · subst ht
          have : z.count = (⟨z.pos + 1, o.left ++ tree ⟨o.label.type,
              o.label.start, z.pos + 1⟩ z.cur, path⟩ : Zip).count := by
            simp [Zip.count, hpath, pathCount]
            omega
          rw [← this]
          simp [Zip.tokens, Lab.tok, hr.pos]
      · rw [if_pos (by simpa using ht), if_pos (by simpa using ht)]

-- ============================================================= the scanners

/-- The text from a position on, where it does not end there. -/
theorem drop_eq_cons {js : List UInt8} {i : Nat} (h : byteAt js i ≠ 0) :
    i < js.length ∧ js.drop i = byteAt js i :: js.drop (i + 1) := by
  have hlt : i < js.length := by
    by_contra hge
    exact h (by simp [byteAt, Nat.le_of_not_lt hge])
  refine ⟨hlt, ?_⟩
  rw [List.drop_eq_getElem_cons hlt]
  simp [byteAt, hlt]

/-- A primitive ends within the text. -/
private theorem scanPrimitive_le {l : List UInt8} {pos e : Nat}
    (h : scanPrimitive l pos = some e) : pos ≤ e ∧ e ≤ pos + l.length := by
  induction l generalizing pos with
  | nil =>
      cases h
      simp
  | cons c cs ih =>
      rw [scanPrimitive] at h
      split at h
      · cases h
        simp
      · split at h
        · cases h
        · have := ih h
          rw [List.length_cons]
          omega

/-- A primitive holds the character it starts with. -/
theorem scanPrimitive_lt {js : List UInt8} {i e : Nat}
    (h0 : byteAt js i ≠ 0) (hc : endsPrimitive (byteAt js i) = false)
    (h : scanPrimitive (js.drop i) i = some e) :
    i < e ∧ e ≤ js.length := by
  obtain ⟨hlt, hdrop⟩ := drop_eq_cons h0
  rw [hdrop, scanPrimitive, if_neg (by simp [h0, hc])] at h
  split at h
  · cases h
  · have := scanPrimitive_le h
    rw [List.length_drop] at this
    omega

/-- The closing quote is within the text. -/
theorem scanString_le {l : List UInt8} {pos e : Nat}
    (h : scanString l pos = .ok e) : pos ≤ e ∧ e < pos + l.length := by
  induction l, pos using scanString.induct with
  | case1 pos => cases h
  | case2 cs pos =>
      rw [scanString.eq_def] at h
      cases h
  | case3 cs pos h0 =>
      rw [scanString.eq_def] at h
      cases h
      simp
  | case4 pos h0 hq => simp [scanString, h0, hq] at h
  | case5 pos c cs he h0 hq ih =>
      simp only [scanString, if_neg h0, if_neg hq, ↓reduceIte, he] at h
      have := ih h
      simp only [List.length_cons]
      omega
  | case6 pos c cs he h0 hq => simp [scanString, h0, hq, he] at h
  | case7 c cs pos h0 hq hb ih =>
      rw [scanString.eq_def] at h
      simp only [if_neg h0, if_neg hq, if_neg hb] at h
      have := ih h
      simp only [List.length_cons]
      omega

/-- A character that is no bracket, quote or blank does not end a
primitive. -/
theorem endsPrimitive_of_class {c : UInt8} (h1 : c ≠ RBRACE)
    (h2 : c ≠ RBRACKET) (h3 : isBlank c = false) :
    endsPrimitive c = false := by
  simp [endsPrimitive, h1, h2, h3]

-- ==================================================== the whole simulation

variable {js : List UInt8}

/-- The body of the parse loop does to the array what `zipChar` does to the
forest. -/
private theorem reps_char (hr : Reps arr parser toks z)
    (hnum : num ≤ arr.length) (h0 : byteAt js z.pos ≠ 0) :
    match jsmnChar js num parser toks, zipChar js num z with
    | .error e, r => r = .error e
    | .ok (p, ts), r => ∃ z', r = .ok z'
        ∧ Reps arr { p with pos := p.pos + 1 } ts z' := by
  unfold jsmnChar zipChar
  rw [hr.pos]
  -- the cases are those of the `switch`, and the same on both sides
  by_cases h1 : byteAt js z.pos = LBRACE
  · simp only [if_pos h1]
    exact reps_open hr hnum .object
  by_cases h2 : byteAt js z.pos = LBRACKET
  · simp only [if_neg h1, if_pos h2]
    exact reps_open hr hnum .array
  by_cases h3 : byteAt js z.pos = RBRACE
  · simp only [if_neg h1, if_neg h2, if_pos h3]
    exact reps_close hr .object
  by_cases h4 : byteAt js z.pos = RBRACKET
  · simp only [if_neg h1, if_neg h2, if_neg h3, if_pos h4]
    exact reps_close hr .array
  by_cases h5 : byteAt js z.pos = QUOTE
  · simp only [if_neg h1, if_neg h2, if_neg h3, if_neg h4, if_pos h5,
      jsmnParseString, hr.pos]
    cases hscan : scanString (js.drop (z.pos + 1)) (z.pos + 1) with
    | error e => rfl
    | ok e =>
        have := @reps_push _ _ _ _ _ hr hnum .string (z.pos + 1) e (e + 1)
          { parser with pos := e } rfl rfl
        revert this
        simp only
        cases jsmnAllocToken { parser with pos := e } toks num with
        | none => exact fun h => h
        | some q =>
            intro h
            obtain ⟨z', hz', hp, hrep⟩ := h
            refine ⟨z', hz', ?_⟩
            simp only [hp] at hrep ⊢
            exact hrep
  by_cases h6 : isBlank (byteAt js z.pos) = true
  · simp only [if_neg h1, if_neg h2, if_neg h3, if_neg h4, if_neg h5,
      if_pos h6]
    exact ⟨_, rfl, by simp [hr.pos], hr.next, hr.super, hr.toks⟩
  · simp only [if_neg h1, if_neg h2, if_neg h3, if_neg h4, if_neg h5,
      if_neg h6, jsmnParsePrimitive, hr.pos]
    have h6' : isBlank (byteAt js z.pos) = false := by simpa using h6
    cases hscan : scanPrimitive (js.drop z.pos) z.pos with
    | none => rfl
    | some e =>
        have hlt := (scanPrimitive_lt h0
          (endsPrimitive_of_class h3 h4 h6') hscan).1
        have := @reps_push _ _ _ _ _ hr hnum .primitive z.pos e e
          { parser with pos := e } rfl rfl
        revert this
        simp only
        cases jsmnAllocToken { parser with pos := e } toks num with
        | none => exact fun h => h
        | some q =>
            intro h
            obtain ⟨z', hz', hp, hrep⟩ := h
            refine ⟨z', hz', ?_⟩
            simp only [hp] at hrep ⊢
            -- the primitive's loop goes back one character, and the `for`
            -- one on
            rw [show e - 1 + 1 = e by omega]
            exact hrep

/-- The parse loop computes the same as `zipLoop`, iteration by iteration.
-/
private theorem reps_loop (k : Nat) (hr : Reps arr parser toks z)
    (hnum : num ≤ arr.length) :
    match jsmnLoop js num k parser toks, zipLoop js num k z with
    | none, r => r = none
    | some (.error e), r => r = some (.error e)
    | some (.ok (p, ts)), r => ∃ z', r = some (.ok z') ∧ Reps arr p ts z' := by
  induction k generalizing parser toks z with
  | zero => rfl
  | succ k ih =>
      rw [jsmnLoop, zipLoop, hr.pos]
      by_cases h0 : byteAt js z.pos = 0
      · simp only [if_pos h0]
        exact ⟨z, rfl, hr⟩
      · simp only [if_neg h0]
        have hchar := @reps_char _ _ _ _ _ js hr hnum h0
        revert hchar
        cases jsmnChar js num parser toks with
        | error e =>
            intro hz
            rw [show zipChar js num z = .error e from hz]
        | ok q =>
            intro h
            obtain ⟨z', hz', hrep⟩ := h
            rw [hz']
            exact ih hrep

-- ================================================================ the parse

/-- Opening a bracket takes one token, and starts an empty level. -/
theorem zipOpen_ok {type : JsmnType} {z' : Zip}
    (h : zipOpen num type z = .ok z') :
    z.count < num
      ∧ z' = ⟨z.pos + 1, .nil, ⟨⟨type, z.pos⟩, z.cur⟩ :: z.path⟩ := by
  unfold zipOpen at h
  split at h
  · cases h
  · cases h
    exact ⟨by omega, rfl⟩

/-- Closing a bracket puts the level it ends behind what stood to its left.
-/
theorem zipClose_ok {type : JsmnType} {z' : Zip}
    (h : zipClose type z = .ok z') :
    ∃ o path, z.path = o :: path
      ∧ z' = ⟨z.pos + 1, o.left
          ++ tree ⟨o.label.type, o.label.start, z.pos + 1⟩ z.cur, path⟩ := by
  unfold zipClose at h
  split at h
  · cases h
  · next o path hpath =>
    split at h
    · cases h
    · next ht =>
      cases h
      have ht' : o.label.type = type := by simpa using ht
      exact ⟨o, path, hpath, by rw [ht']⟩

/-- A string or primitive takes one token, and stands last on its level. -/
theorem zipPush_ok {pos : Nat} {a : Lab} {z' : Zip}
    (h : zipPush num z pos a = .ok z') :
    z.count < num ∧ z' = ⟨pos, z.cur ++ tree a .nil, z.path⟩ := by
  unfold zipPush at h
  split at h
  · cases h
  · cases h
    exact ⟨by omega, rfl⟩

/-- What one successful step of the parse can do. -/
inductive Read (js : List UInt8) (num : Nat) (z : Zip) : Zip → Prop
  | opens (type : JsmnType) (c : UInt8) (hc : byteAt js z.pos = c)
      (ht : (type = .object ∧ c = LBRACE) ∨ (type = .array ∧ c = LBRACKET))
      (hn : z.count < num) :
      Read js num z ⟨z.pos + 1, .nil, ⟨⟨type, z.pos⟩, z.cur⟩ :: z.path⟩
  | closes (o : Frame Opened Lab) (path : OpenPath)
      (hp : z.path = o :: path) :
      Read js num z ⟨z.pos + 1,
        o.left ++ tree ⟨o.label.type, o.label.start, z.pos + 1⟩ z.cur, path⟩
  | string (e : Nat)
      (he : scanString (js.drop (z.pos + 1)) (z.pos + 1) = .ok e)
      (hn : z.count < num) :
      Read js num z
        ⟨e + 1, z.cur ++ tree ⟨.string, z.pos + 1, e⟩ .nil, z.path⟩
  | blank : Read js num z ⟨z.pos + 1, z.cur, z.path⟩
  | primitive (e : Nat) (hc : endsPrimitive (byteAt js z.pos) = false)
      (he : scanPrimitive (js.drop z.pos) z.pos = some e)
      (hn : z.count < num) :
      Read js num z
        ⟨e, z.cur ++ tree ⟨.primitive, z.pos, e⟩ .nil, z.path⟩

/-- Every step on a character is one of the ways to read. -/
theorem zipChar_ok {z' : Zip} (h : zipChar js num z = .ok z') :
    Read js num z z' := by
  unfold zipChar at h
  simp only at h
  split at h
  · next hc =>
    obtain ⟨hn, rfl⟩ := zipOpen_ok h
    exact .opens _ _ hc (Or.inl ⟨rfl, rfl⟩) hn
  split at h
  · next hc =>
    obtain ⟨hn, rfl⟩ := zipOpen_ok h
    exact .opens _ _ hc (Or.inr ⟨rfl, rfl⟩) hn
  split at h
  · obtain ⟨o, path, hp, rfl⟩ := zipClose_ok h
    exact .closes o path hp
  split at h
  · obtain ⟨o, path, hp, rfl⟩ := zipClose_ok h
    exact .closes o path hp
  split at h
  · split at h
    · cases h
    · next e he =>
      obtain ⟨hn, rfl⟩ := zipPush_ok h
      exact .string e he hn
  split at h
  · cases h
    exact .blank
  · next h1 h2 h3 h4 h5 h6 =>
    split at h
    · cases h
    · next e he =>
      obtain ⟨hn, rfl⟩ := zipPush_ok h
      exact .primitive e
        (endsPrimitive_of_class h3 h4 (by simpa using h6)) he hn

/-- Every character moves the parse on, inside the text. -/
theorem Read.pos {z' : Zip} (h : Read js num z z')
    (h0 : byteAt js z.pos ≠ 0) : z.pos < z'.pos ∧ z'.pos ≤ js.length := by
  have hlt := (drop_eq_cons h0).1
  cases h with
  | opens => exact ⟨Nat.lt_succ_self _, hlt⟩
  | closes => exact ⟨Nat.lt_succ_self _, hlt⟩
  | string e he =>
      have := scanString_le he
      rw [List.length_drop] at this
      show z.pos < e + 1 ∧ e + 1 ≤ js.length
      omega
  | blank => exact ⟨Nat.lt_succ_self _, hlt⟩
  | primitive e hc he => exact scanPrimitive_lt h0 hc he

/-- The loop ends within one step for each character left. -/
theorem zipLoop_total (k : Nat) (hpos : z.pos ≤ js.length)
    (hk : js.length < k + z.pos) : ∃ r, zipLoop js num k z = some r := by
  induction k generalizing z with
  | zero => omega
  | succ k ih =>
      rw [zipLoop]
      by_cases h0 : byteAt js z.pos = 0
      · exact ⟨_, if_pos h0⟩
      · rw [if_neg h0]
        cases hz : zipChar js num z with
        | error e => exact ⟨_, rfl⟩
        | ok z' =>
            obtain ⟨hlt, hle⟩ := (zipChar_ok hz).pos h0
            exact ih hle (by omega)

/-- `jsmn_parse` reads the forest of the text into the array, whatever
the array holds. -/
theorem jsmnParse_spec (js : List UInt8) {num : Nat} {arr : List JsmnTok}
    (hnum : num ≤ arr.length) :
    match zipParse js num with
    | .error e => jsmnParse js arr num = some (.error e)
    | .ok f => ∃ p, p.toknext = f.count
        ∧ jsmnParse js arr num = some (.ok (p, tokens f ++ arr.drop f.count))
    := by
  have hr : Reps arr jsmnInit arr ⟨0, .nil, []⟩ := ⟨rfl, rfl, rfl, rfl⟩
  obtain ⟨r, hz⟩ := @zipLoop_total ⟨0, .nil, []⟩ num js (js.length + 1)
    (Nat.zero_le _) (Nat.lt_succ_self _)
  have hloop := @reps_loop _ _ _ _ _ js (js.length + 1) hr hnum
  unfold zipParse jsmnParse
  rw [hz] at hloop ⊢
  revert hloop
  cases jsmnLoop js num (js.length + 1) jsmnInit arr with
  | none => exact fun h => nomatch h
  | some q =>
      cases q with
      | error e =>
          intro h
          cases h
          rfl
      | ok q =>
          intro h
          obtain ⟨z', hz', hrep⟩ := h
          cases hz'
          -- at the end the parser looks for a token still open
          have hlast : lastOpen q.2 q.1.toknext = superOf z'.path := by
            rw [hrep.toks, hrep.next, lastOpen_zip]
          simp only [bind, Option.bind_some, hlast]
          cases hpath : z'.path with
          | nil =>
              refine ⟨q.1, ?_, ?_⟩
              · simp [hrep.next, Zip.count, hpath, pathCount]
              · simp only [superOf, Option.isSome_none, Bool.false_eq_true,
                  ↓reduceIte, pure]
                congr 3
                rw [hrep.toks]
                simp [Zip.tokens, Zip.count, hpath, pathTokens, pathCount,
                  pathListing]
          | cons o path => simp [superOf]

end Psnet.Jsmn
