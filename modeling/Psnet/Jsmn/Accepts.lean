/-
The texts the tokenizer accepts.

They are the readable ones: values with layout between them, brackets
that match, strings that are closed, and primitives that something ends.
A text has one reading at most, and its tokens are those of the reading
(`jsmnParse_accepts`). Legible texts are readable; so is much that is no
JSON, with commas and colons anywhere or nowhere, any number of values in
an object, and quotes inside a primitive.

Soundness follows the loop. `Scanned` says that what it has passed is the
text of a forest with some brackets still open, and what the parse holds
are the labels of that; each character keeps it (`Scanned.char`).

# Completeness

The other direction is the reading of `Jsmn.Text`: a readable text is
parsed to its labels. A readable text needs as many tokens as it has
values, and with fewer the parse stops at the first it has no room for
(`zipParse_nomem`). That the reading is unique follows from the labels: two
forests with the same text and the same labels are equal
(`text_labels_inj`).
-/
import Psnet.Jsmn.Text

namespace Psnet.Jsmn

open Forest

variable {js : List UInt8} {num : Nat} {z z' : Zip}

-- ================================================================= one reading

/-- A text read as a forest, and the layout after it. -/
structure Reads (js : List UInt8) (f : Forest Lex)
    (after : List UInt8) : Prop where
  readable : Readable f
  layout : Layout after
  text : cstr js = text f ++ after

/-- Texts that begin with the same layout, as far as its length goes. -/
private theorem pre_eq {p q u v : List UInt8} {lo : Nat}
    (h : p ++ u = q ++ v) (hlen : lo + p.length = lo + q.length) :
    p = q ∧ u = v := List.append_inj h (Nat.add_left_cancel hlen)

/-- A text with its labels has one reading. -/
private theorem text_labels_inj {f g : Forest Lex} {lo : Nat}
    {u v : List UInt8} (hf : Readable f) (hg : Readable g)
    (hlab : labels lo f = labels lo g)
    (ht : text f ++ u = text g ++ v) : f = g ∧ u = v := by
  induction f generalizing g lo u v with
  | nil =>
      cases g with
      | nil => exact ⟨rfl, ht⟩
      | node b kids rest => cases hlab
  | node a kids rest ihk ihr =>
      cases g with
      | nil => cases hlab
      | node b kids' rest' =>
          obtain ⟨-, hpiece, -, hkids, hrest⟩ := hf
          obtain ⟨-, hpiece', -, hkids', hrest'⟩ := hg
          simp only [labels, node.injEq] at hlab
          obtain ⟨hlab, hklab, hrlab⟩ := hlab
          obtain ⟨apre, ap⟩ := a
          obtain ⟨bpre, bp⟩ := b
          simp only [text, List.append_assoc] at *
          -- what is inside two brackets that end alike
          have hinner : lo + apre.length = lo + bpre.length →
              ∀ {inner inner' : List UInt8} {d : UInt8} {u' v' : List UInt8},
              text kids ++ (inner ++ d :: u')
                = text kids' ++ (inner' ++ d :: v') →
              (text kids).length + inner.length
                = (text kids').length + inner'.length →
              kids = kids' ∧ inner = inner' ∧ u' = v' := by
            intro hlo inner inner' d u' v' h hlen
            rw [hlo] at hklab
            obtain ⟨rfl, hin⟩ := ihk hkids hkids' hklab h
            obtain ⟨rfl, hcons⟩ := pre_eq hin hlen
            exact ⟨rfl, rfl, (List.cons.inj hcons).2⟩
          -- the values are written alike, so the later siblings are
          suffices hval : apre = bpre ∧ ap = bp ∧ kids = kids'
              ∧ text rest ++ u = text rest' ++ v by
            obtain ⟨rfl, rfl, rfl, hrtext⟩ := hval
            obtain ⟨rfl, hu⟩ := ihr hrest hrest' hrlab hrtext
            exact ⟨rfl, hu⟩
          -- the label says of which kind the value is
          cases ap with
          | word w =>
              cases bp with
              | word w' =>
                  simp only [Piece.lab, Lab.mk.injEq, true_and] at hlab
                  obtain ⟨hstart, hstop⟩ := hlab
                  obtain ⟨rfl, hw⟩ := pre_eq ht hstart
                  obtain ⟨rfl, hafter⟩ := pre_eq hw hstop
                  exact ⟨rfl, rfl, hpiece.1.trans hpiece'.1.symm, hafter⟩
              | _ => simp [Piece.lab] at hlab
          | string s =>
              cases bp with
              | string s' =>
                  simp only [Piece.lab, Lab.mk.injEq, true_and] at hlab
                  obtain ⟨hstart, hstop⟩ := hlab
                  obtain ⟨rfl, hs⟩ := pre_eq ht (Nat.succ.inj hstart)
                  simp only [Piece.write, List.cons_append,
                    List.append_assoc, List.cons.injEq, true_and] at hs
                  obtain ⟨rfl, hafter⟩ := pre_eq hs hstop
                  exact ⟨rfl, rfl, hpiece.1.trans hpiece'.1.symm,
                    (List.cons.inj hafter).2⟩
              | _ => simp [Piece.lab] at hlab
          | array inner =>
              cases bp with
              | array inner' =>
                  simp only [Piece.lab, Lab.mk.injEq, true_and] at hlab
                  obtain ⟨hstart, hstop⟩ := hlab
                  obtain ⟨rfl, hin⟩ := pre_eq ht hstart
                  simp only [Piece.write, List.cons_append,
                    List.append_assoc, List.cons.injEq, true_and] at hin
                  obtain ⟨rfl, rfl, hafter⟩ := hinner rfl hin (by omega)
                  exact ⟨rfl, rfl, rfl, hafter⟩
              | _ => simp [Piece.lab] at hlab
          | object inner =>
              cases bp with
              | object inner' =>
                  simp only [Piece.lab, Lab.mk.injEq, true_and] at hlab
                  obtain ⟨hstart, hstop⟩ := hlab
                  obtain ⟨rfl, hin⟩ := pre_eq ht hstart
                  simp only [Piece.write, List.cons_append,
                    List.append_assoc, List.cons.injEq, true_and] at hin
                  obtain ⟨rfl, rfl, hafter⟩ := hinner rfl hin (by omega)
                  exact ⟨rfl, rfl, rfl, hafter⟩
              | _ => simp [Piece.lab] at hlab

/-- So no text has two. -/
theorem Reads.unique {f g : Forest Lex} {u v : List UInt8}
    (hf : Reads js f u) (hg : Reads js g v) : f = g ∧ u = v := by
  have hparse := zipParse_readable hf.readable hf.layout hf.text
    (Nat.le_max_left f.count g.count)
  have hparse' := zipParse_readable hg.readable hg.layout hg.text
    (Nat.le_max_right f.count g.count)
  rw [hparse] at hparse'
  exact text_labels_inj hf.readable hg.readable (Except.ok.inj hparse')
    (hf.text.symm.trans hg.text)

-- ======================================================== forests side by side

/-- Two forests are written one after the other. -/
private theorem text_append (f g : Forest Lex) : text
    (f ++ g) = text f ++ text g := by
  induction f with
  | nil => rfl
  | node a kids rest _ ih => simp [text, ih]

/-- The second forest is labelled from where the first one's text ends. -/
private theorem labels_append (lo : Nat) (f g : Forest Lex) :
    labels lo (f ++ g) = labels lo f ++ labels (lo + (text f).length) g := by
  induction f generalizing lo with
  | nil => rfl
  | node a kids rest _ ih =>
      simp [labels, text, ih, Nat.add_assoc]

/-- The last of the trees is a primitive. -/
def EndsWord : Forest Lex → Prop
  | .nil => False
  | .node a _ .nil => ∃ w, a.piece = .word w
  | .node _ _ rest => EndsWord rest

/-- A forest ends in a word exactly when its last tree is one. -/
private theorem endsWord_append_tree (f : Forest Lex) (a : Lex)
    (kids : Forest Lex) :
    EndsWord (f ++ tree a kids) ↔ ∃ w, a.piece = .word w := by
  induction f with
  | nil => rfl
  | node b bkids rest _ ih =>
      rw [← ih]
      cases rest <;> rfl

/-- Two readable forests make one, provided a word is told apart from what
follows. -/
theorem Readable.append {f g : Forest Lex} (hf : Readable f)
    (hg : Readable g) (hs : EndsWord f → Spaced g) : Readable (f ++ g) := by
  induction f with
  | nil => exact hg
  | node a kids rest _ ih =>
      obtain ⟨hpre, hpiece, hspaced, hkids, hrest⟩ := hf
      cases rest with
      | nil => exact ⟨hpre, hpiece, hs, hkids, hg⟩
      | node b bkids brest =>
          exact ⟨hpre, hpiece, hspaced, hkids, ih hrest hs⟩

-- =============================================================== brackets open

/-- An open bracket and the layout before it. -/
structure Bracket where
  pre : List UInt8
  type : JsmnType
  deriving DecidableEq, Repr

/-- The open brackets, innermost first. -/
abbrev LexPath := List (Frame Bracket Lex)

/-- The bracket that opens a value. -/
def Bracket.char (b : Bracket) : UInt8 :=
  match b.type with
  | .object => LBRACE
  | _ => LBRACKET

/-- What the bracket and what is closed with it come to. -/
def Bracket.piece (b : Bracket) (inner : List UInt8) : Piece :=
  match b.type with
  | .object => .object inner
  | _ => .array inner

/-- The text up to the innermost open bracket. -/
def pathText : LexPath → List UInt8
  | [] => []
  | o :: path => pathText path ++ (text o.left ++ (o.label.pre ++ [o.label.char]))

/-- What the parse has of it. -/
def pathLabels : LexPath → OpenPath
  | [] => []
  | o :: path =>
      ⟨⟨o.label.type, (pathText path).length
          + ((text o.left).length + o.label.pre.length)⟩,
        labels (pathText path).length o.left⟩ :: pathLabels path

/-- The trees to the left of each bracket can be read up to it. -/
structure Bracket.Readable (b : Bracket) (left : Forest Lex) : Prop where
  type : b.type = .object ∨ b.type = .array
  before : Jsmn.Readable left
  layout : Layout b.pre
  spaced : EndsWord left → b.pre ≠ []

/-- The parse has passed the text of the open brackets, of the trees after
the last of them, and some layout. -/
structure Scanned (js : List UInt8) (z : Zip) (path : LexPath)
    (cur : Forest Lex) (lay : List UInt8) : Prop where
  le : z.pos ≤ js.length
  seen : js.take z.pos = pathText path ++ (text cur ++ lay)
  opened : z.path = pathLabels path
  read : z.cur = labels (pathText path).length cur
  brackets : ∀ o ∈ path, o.label.Readable o.left
  readable : Readable cur
  layout : Layout lay
  ends : EndsWord cur → lay = [] → Ends (js.drop z.pos)

variable {path : LexPath} {cur : Forest Lex} {lay u : List UInt8}

/-- The position is behind everything read so far. -/
theorem Scanned.pos (h : Scanned js z path cur lay) :
    z.pos = (pathText path).length + ((text cur).length + lay.length) := by
  have hlen := congrArg List.length h.seen
  rwa [List.length_take_of_le h.le, List.length_append,
    List.length_append] at hlen

/-- The text after a piece of it has been passed. -/
private theorem take_add {w : List UInt8} {i : Nat} (h : js.drop i = w ++ u) :
    js.take (i + w.length) = js.take i ++ w := by
  rw [List.take_add, h, List.take_left]

/-- A word that is found ends within the text. -/
private theorem le_length {w : List UInt8} {i : Nat} (hi : i ≤ js.length)
    (h : js.drop i = w ++ u) : i + w.length ≤ js.length := by
  have hlen := congrArg List.length h
  rw [List.length_drop, List.length_append] at hlen
  omega

/-- Nothing but layout may follow a primitive, or its closing bracket. -/
theorem Scanned.spaced (h : Scanned js z path cur lay)
    (h0 : byteAt js z.pos ≠ 0)
    (hc : endsPrimitive (byteAt js z.pos) = false) :
    EndsWord cur → lay ≠ [] := by
  intro hword hlay
  have hends := h.ends hword hlay
  obtain ⟨-, hdrop⟩ := drop_eq_cons h0
  rw [hdrop] at hends
  rcases hends _ rfl with h | h
  · exact h0 h
  · rw [hc] at h
    cases h

/-- A value is read. -/
theorem Scanned.push (h : Scanned js z path cur lay) {p : Piece}
    {kids : Forest Lex} (hp : p.Readable kids) (hk : Readable kids)
    (hdrop : js.drop z.pos = p.write (text kids) ++ u)
    (hspaced : EndsWord cur → lay ≠ [])
    (hends : (∃ w, p = .word w) → Ends u) :
    Scanned js ⟨z.pos + (p.write (text kids)).length,
        z.cur ++ tree (p.lab z.pos (text kids).length)
          (labels (z.pos + 1) kids), z.path⟩
      path (cur ++ tree ⟨lay, p⟩ kids) [] := by
  refine ⟨le_length h.le hdrop, ?_, h.opened, ?_, h.brackets,
    h.readable.append ⟨h.layout, hp, fun _ => trivial, hk, trivial⟩ hspaced,
    layout_nil, fun hword _ => ?_⟩
  · rw [take_add hdrop, h.seen, text_append]
    simp [tree, text]
  · rw [h.read, labels_append, h.pos]
    simp [tree, labels, Nat.add_assoc]
  · rw [drop_append hdrop]
    exact hends ((endsWord_append_tree ..).mp hword)

/-- A bracket is opened. -/
theorem Scanned.open (h : Scanned js z path cur lay) {b : Bracket}
    (hb : b.Readable cur) (hpre : b.pre = lay)
    (hdrop : js.drop z.pos = b.char :: u) :
    Scanned js ⟨z.pos + 1, .nil, ⟨⟨b.type, z.pos⟩, z.cur⟩ :: z.path⟩
      (⟨b, cur⟩ :: path) .nil [] := by
  refine ⟨le_length (w := [b.char]) h.le hdrop, ?_, ?_, rfl,
    fun o ho => ?_, trivial, layout_nil, fun hword => hword.elim⟩
  · refine (take_add (w := [b.char]) hdrop).trans ?_
    simp [h.seen, pathText, hpre, text]
  · rw [h.opened, h.read, h.pos]
    simp [pathLabels, hpre]
  · rcases List.mem_cons.mp ho with rfl | ho
    · exact hb
    · exact h.brackets o ho

/-- The bracket that closes a value. -/
def Bracket.shut (b : Bracket) : UInt8 :=
  match b.type with
  | .object => RBRACE
  | _ => RBRACKET

/-- A closed bracket is written as its bracket, what is in it and the one
that shuts it. -/
theorem Bracket.Readable.write {b : Bracket} {left : Forest Lex}
    (hb : b.Readable left) (kids inner : List UInt8) :
    (b.piece inner).write kids
      = b.char :: (kids ++ (inner ++ [b.shut])) := by
  obtain ⟨pre, type⟩ := b
  rcases hb.type with h | h
  · cases h
    rfl
  · cases h
    rfl

/-- The label of a closed bracket reaches to behind the one that shuts it.
-/
theorem Bracket.Readable.lab {b : Bracket} {left : Forest Lex}
    (hb : b.Readable left) (lo n : Nat) (inner : List UInt8) :
    (b.piece inner).lab lo n = ⟨b.type, lo, lo + n + inner.length + 2⟩ := by
  obtain ⟨pre, type⟩ := b
  rcases hb.type with h | h
  · cases h
    rfl
  · cases h
    rfl

/-- A closed bracket is readable, and no word. -/
theorem Bracket.Readable.piece {b : Bracket} {left : Forest Lex}
    {inner : List UInt8} (hb : b.Readable left) (kids : Forest Lex)
    (hin : Layout inner) :
    (b.piece inner).Readable kids ∧ ∀ w, b.piece inner ≠ .word w := by
  obtain ⟨pre, type⟩ := b
  rcases hb.type with h | h
  · cases h
    exact ⟨hin, fun _ => nofun⟩
  · cases h
    exact ⟨hin, fun _ => nofun⟩

/-- A bracket is closed: what was read since is below it. -/
theorem Scanned.close {o : Frame Bracket Lex}
    (h : Scanned js z (o :: path) cur lay)
    (hdrop : js.drop z.pos = o.label.shut :: u) :
    Scanned js ⟨z.pos + 1, labels (pathText path).length o.left
        ++ tree ⟨o.label.type, (pathText path).length
          + ((text o.left).length + o.label.pre.length), z.pos + 1⟩ z.cur,
        pathLabels path⟩
      path (o.left ++ tree ⟨o.label.pre, o.label.piece lay⟩ cur) [] := by
  have hb := h.brackets o (List.mem_cons_self ..)
  obtain ⟨hpiece, hno⟩ := hb.piece cur h.layout
  refine ⟨le_length (w := [o.label.shut]) h.le hdrop, ?_, rfl, ?_,
    fun p hp => h.brackets p (List.mem_cons_of_mem _ hp),
    hb.before.append ⟨hb.layout, hpiece, fun _ => trivial, h.readable,
      trivial⟩ hb.spaced, layout_nil, fun hword _ => ?_⟩
  · refine (take_add (w := [o.label.shut]) hdrop).trans ?_
    simp [h.seen, text_append, tree, text, pathText, hb.write]
  · rw [labels_append, h.read]
    have hpos := h.pos
    simp only [pathText, List.length_append, List.length_singleton] at hpos
    simp only [tree, labels, hb.lab, pathText, List.length_append,
      List.length_singleton, Nat.add_assoc, hpos]
    congr 3
    omega
  · obtain ⟨w, hw⟩ := (endsWord_append_tree ..).mp hword
    exact (hno w hw).elim

-- ================================================================== the scans

/-- What the loop of a string has passed. -/
private theorem scanString_ok {l : List UInt8} {pos e : Nat}
    (h : scanString l pos = .ok e) :
    ∃ s u, l = s ++ QUOTE :: u ∧ isBody s = true ∧ e = pos + s.length := by
  induction l, pos using scanString.induct with
  | case1 pos => cases h
  | case2 cs pos =>
      rw [scanString.eq_def] at h
      cases h
  | case3 cs pos h0 =>
      rw [scanString.eq_def] at h
      cases h
      exact ⟨[], cs, rfl, rfl, rfl⟩
  | case4 pos h0 hq => simp [scanString, h0, hq] at h
  | case5 pos c cs he h0 hq ih =>
      simp only [scanString, if_neg h0, if_neg hq, ↓reduceIte, he] at h
      obtain ⟨s, u, rfl, hs, rfl⟩ := ih h
      refine ⟨BACKSLASH :: c :: s, u, rfl, ?_, ?_⟩
      · simp [isBody, h0, hq, he, hs]
      · simp only [List.length_cons]
        omega
  | case6 pos c cs he h0 hq => simp [scanString, h0, hq, he] at h
  | case7 c cs pos h0 hq hb ih =>
      rw [scanString.eq_def] at h
      simp only [if_neg h0, if_neg hq, if_neg hb] at h
      obtain ⟨s, u, rfl, hs, rfl⟩ := ih h
      refine ⟨c :: s, u, rfl, ?_, ?_⟩
      · rw [isBody.eq_def]
        simp [h0, hq, hb, hs]
      · simp only [List.length_cons]
        omega

/-- What the loop of a primitive has passed. -/
private theorem scanPrimitive_some {l : List UInt8} {pos e : Nat}
    (h : scanPrimitive l pos = some e) :
    ∃ w u, l = w ++ u ∧ (∀ c ∈ w, isPrimitive c = true) ∧ Ends u
      ∧ e = pos + w.length := by
  induction l generalizing pos with
  | nil =>
      cases h
      refine ⟨[], [], rfl, fun _ h => (List.not_mem_nil h).elim, ?_, rfl⟩
      intro c hc
      cases hc
  | cons c cs ih =>
      rw [scanPrimitive] at h
      split at h
      · next hend =>
        cases h
        refine ⟨[], c :: cs, rfl, fun _ h => (List.not_mem_nil h).elim,
          fun d hd => ?_, rfl⟩
        cases hd
        exact hend
      · next hend =>
        split at h
        · cases h
        · next hrange =>
          obtain ⟨w, u, rfl, hw, hu, rfl⟩ := ih h
          rw [not_or, Bool.not_eq_true] at hend
          refine ⟨c :: w, u, rfl, fun d hd => ?_, hu, ?_⟩
          · rcases List.mem_cons.mp hd with rfl | hd
            · exact isPrimitive_iff.mpr ⟨hend.1, hend.2, hrange⟩
            · exact hw d hd
          · simp only [List.length_cons]
            omega

-- ============================================================ soundness, by step

/-- An opening bracket begins a value. -/
private theorem Scanned.openBracket {b : Bracket}
    (h : Scanned js z path cur lay) (h0 : byteAt js z.pos ≠ 0)
    (hpre : b.pre = lay) (htype : b.type = .object ∨ b.type = .array)
    (hc : byteAt js z.pos = b.char) (hend : endsPrimitive b.char = false)
    (hz : zipOpen num b.type z = .ok z') :
    ∃ path' cur' lay', Scanned js z' path' cur' lay' := by
  obtain ⟨-, hdrop⟩ := drop_eq_cons h0
  obtain ⟨-, rfl⟩ := zipOpen_ok hz
  have hspaced := h.spaced h0 (hc ▸ hend)
  exact ⟨_, _, _, h.open ⟨htype, h.readable, hpre ▸ h.layout,
    hpre ▸ hspaced⟩ hpre (hc ▸ hdrop)⟩

/-- A closing bracket ends the value open, when it is of that type. -/
private theorem Scanned.closeBracket {type : JsmnType}
    (h : Scanned js z path cur lay) (h0 : byteAt js z.pos ≠ 0)
    (hz : zipClose type z = .ok z')
    (hc : ∀ b : Bracket, b.type = type → byteAt js z.pos = b.shut) :
    ∃ path' cur' lay', Scanned js z' path' cur' lay' := by
  obtain ⟨-, hdrop⟩ := drop_eq_cons h0
  cases path with
  | nil => simp [zipClose, h.opened, pathLabels] at hz
  | cons o path =>
      simp only [zipClose, h.opened, pathLabels] at hz
      split at hz
      · cases hz
      · next ht =>
        cases hz
        rw [ne_eq, not_not] at ht
        subst ht
        exact ⟨_, _, _, h.close (hc o.label rfl ▸ hdrop)⟩

/-- A string is a value, with its quotes. -/
private theorem Scanned.quoted {e : Nat} (h : Scanned js z path cur lay)
    (h0 : byteAt js z.pos ≠ 0) (hc : byteAt js z.pos = QUOTE)
    (he : scanString (js.drop (z.pos + 1)) (z.pos + 1) = .ok e)
    (hz : zipPush num z (e + 1) ⟨.string, z.pos + 1, e⟩ = .ok z') :
    ∃ path' cur' lay', Scanned js z' path' cur' lay' := by
  obtain ⟨-, hdrop⟩ := drop_eq_cons h0
  obtain ⟨-, rfl⟩ := zipPush_ok hz
  obtain ⟨s, u, hs, hbody, rfl⟩ := scanString_ok he
  have hend : endsPrimitive QUOTE = false := by decide
  rw [hc, hs] at hdrop
  have hwrite : js.drop z.pos
      = (Piece.string s).write (text .nil) ++ u := by
    rw [hdrop]
    simp [Piece.write]
  have hpiece : (Piece.string s).Readable .nil := ⟨rfl, hbody⟩
  -- a string ends in its quote, so nothing need follow it
  have hquoted : ¬ ∃ w, Piece.string s = .word w := by
    rintro ⟨w, hw⟩
    cases hw
  have hpush := h.push hpiece trivial hwrite
    (h.spaced h0 (hc ▸ hend)) fun hword => (hquoted hword).elim
  refine ⟨path, cur ++ tree ⟨lay, .string s⟩ .nil, [], ?_⟩
  simpa [Piece.write, Piece.lab, labels, Nat.add_assoc,
    Nat.add_comm 1] using hpush

/-- A blank is layout before whatever comes next. -/
private theorem Scanned.blank (h : Scanned js z path cur lay)
    (h0 : byteAt js z.pos ≠ 0) (hb : isBlank (byteAt js z.pos) = true) :
    Scanned js { z with pos := z.pos + 1 } path cur
      (lay ++ [byteAt js z.pos]) := by
  obtain ⟨hlt, hdrop⟩ := drop_eq_cons h0
  refine ⟨hlt, ?_, h.opened, h.read, h.brackets, h.readable, ?_,
    fun _ hnil => ?_⟩
  · refine (take_add (w := [byteAt js z.pos]) hdrop).trans ?_
    simp [h.seen]
  · intro c hc
    rcases List.mem_append.mp hc with hc | hc
    · exact h.layout c hc
    · rwa [List.mem_singleton.mp hc]
  · simp at hnil

/-- A primitive is a value, as far as its characters go. -/
private theorem Scanned.word {e : Nat} (h : Scanned js z path cur lay)
    (h0 : byteAt js z.pos ≠ 0) (hquote : byteAt js z.pos ≠ QUOTE)
    (hbrace : byteAt js z.pos ≠ LBRACE)
    (hbracket : byteAt js z.pos ≠ LBRACKET)
    (hend : endsPrimitive (byteAt js z.pos) = false)
    (he : scanPrimitive (js.drop z.pos) z.pos = some e)
    (hz : zipPush num z e ⟨.primitive, z.pos, e⟩ = .ok z') :
    ∃ path' cur' lay', Scanned js z' path' cur' lay' := by
  obtain ⟨-, hdrop⟩ := drop_eq_cons h0
  obtain ⟨-, rfl⟩ := zipPush_ok hz
  obtain ⟨w, u, hs, hw, hu, rfl⟩ := scanPrimitive_some he
  -- the character itself is in the primitive
  have hhead : byteAt js z.pos ∈ w.head? := by
    cases w with
    | nil =>
        rw [List.nil_append] at hs
        rw [← hs, hdrop] at hu
        rcases hu _ rfl with h | h
        · exact (h0 h).elim
        · rw [hend] at h
          cases h
    | cons c w =>
        rw [hs, List.cons_append, List.cons.injEq] at hdrop
        exact congrArg some hdrop.1
  have hpiece : (Piece.word w).Readable .nil :=
    ⟨rfl, ⟨_, hhead, hquote, hbrace, hbracket⟩, hw⟩
  exact ⟨_, _, _, h.push hpiece trivial hs (h.spaced h0 hend) fun _ => hu⟩

/-- A successful step of the parse passes one more bracket, value or
blank. -/
theorem Scanned.char (h : Scanned js z path cur lay)
    (h0 : byteAt js z.pos ≠ 0) (hz : zipChar js num z = .ok z') :
    ∃ path' cur' lay', Scanned js z' path' cur' lay' := by
  -- the cases are those of the loop body, in its order
  unfold zipChar at hz
  simp only at hz
  split at hz
  · next hc =>
    have hend : endsPrimitive LBRACE = false := by decide
    exact h.openBracket (b := ⟨lay, .object⟩) h0 rfl (Or.inl rfl) hc hend hz
  split at hz
  · next hc =>
    have hend : endsPrimitive LBRACKET = false := by decide
    exact h.openBracket (b := ⟨lay, .array⟩) h0 rfl (Or.inr rfl) hc hend hz
  split at hz
  · next hc =>
    refine h.closeBracket h0 hz fun b hb => ?_
    rw [hc, Bracket.shut, hb]
  split at hz
  · next hc =>
    refine h.closeBracket h0 hz fun b hb => ?_
    rw [hc, Bracket.shut, hb]
  split at hz
  · next hc =>
    split at hz
    · cases hz
    · next e he => exact h.quoted h0 hc he hz
  split at hz
  · next hb =>
    cases hz
    exact ⟨_, _, _, h.blank h0 hb⟩
  · next h1 h2 h3 h4 h5 h6 =>
    split at hz
    · cases hz
    · next e he =>
      rw [Bool.not_eq_true] at h6
      exact h.word h0 h5 h1 h2 (endsPrimitive_of_class h3 h4 h6) he hz

/-- When the loop stops, what it has read is the text up to its NUL. -/
theorem Scanned.loop {k : Nat} (h : Scanned js z path cur lay)
    (hz : zipLoop js num k z = some (.ok z')) :
    byteAt js z'.pos = 0
      ∧ ∃ path' cur' lay', Scanned js z' path' cur' lay' := by
  induction k generalizing z path cur lay with
  | zero => cases hz
  | succ k ih =>
      rw [zipLoop] at hz
      split at hz
      · next h0 =>
        cases hz
        exact ⟨h0, path, cur, lay, h⟩
      · next h0 =>
        split at hz
        · cases hz
        · next z₁ hchar =>
          obtain ⟨path₁, cur₁, lay₁, h₁⟩ := h.char h0 hchar
          exact ih h₁ hz

/-- Whatever is parsed is read. -/
theorem reads_of_zipParse {f : Forest Lab} (h : zipParse js num = .ok f) :
    ∃ g after, Reads js g after ∧ f = labels 0 g := by
  rw [← zipParse_cstr] at h
  obtain ⟨p, hp⟩ := zipParse_ok h
  have hstart : Scanned (cstr js) ⟨0, .nil, []⟩ [] .nil [] :=
    ⟨Nat.zero_le _, rfl, rfl, rfl, fun _ h => (List.not_mem_nil h).elim,
      trivial, layout_nil, fun h => h.elim⟩
  obtain ⟨hend, path, g, after, hscan⟩ := hstart.loop hp
  have hpath : path = [] := by
    cases path with
    | nil => rfl
    | cons o path => exact nomatch hscan.opened
  subst hpath
  have htake : (cstr js).take p = cstr js := by
    apply List.take_of_length_le
    by_contra hlt
    have hmem := List.getElem_mem (l := cstr js) (Nat.lt_of_not_le hlt)
    have hne := List.all_eq_true.mp List.all_takeWhile _ hmem
    rw [byteAt, List.getD_eq_getElem?_getD,
      List.getElem?_eq_getElem (Nat.lt_of_not_le hlt),
      Option.getD_some] at hend
    simp [hend] at hne
  exact ⟨g, after, ⟨hscan.readable, hscan.layout,
    htake.symm.trans hscan.seen⟩, hscan.read⟩

-- ============================================================== too many tokens

/-- Where the room ends before the text does, the tokenizer says so. -/
private theorem zipChar_nomem {num' : Nat} (h : zipChar js num z = .ok z')
    (hz : z.count ≤ num') (hn : num' < z'.count) :
    zipChar js num' z = .error .nomem := by
  -- only what asks for a token can make the count grow
  have hpush : ∀ p a, zipPush num z p a = .ok z' →
      zipPush num' z p a = .error .nomem := by
    intro p a h
    obtain ⟨-, rfl⟩ := zipPush_ok h
    rw [zipPush, if_pos]
    simp [Zip.count] at hn ⊢
    omega
  have hopen : ∀ t, zipOpen num t z = .ok z' →
      zipOpen num' t z = .error .nomem := by
    intro t h
    obtain ⟨-, rfl⟩ := zipOpen_ok h
    rw [zipOpen, if_pos]
    simp [Zip.count, pathCount] at hn ⊢
    omega
  have hclose : ∀ t, zipClose t z ≠ .ok z' := by
    intro t h
    obtain ⟨o, path, hp, rfl⟩ := zipClose_ok h
    simp [Zip.count, pathCount, hp] at hz hn
    omega
  revert h
  unfold zipChar
  simp only
  split
  · exact hopen _
  split
  · exact hopen _
  split
  · exact fun h => (hclose _ h).elim
  split
  · exact fun h => (hclose _ h).elim
  split
  · split
    · intro h
      cases h
    · exact hpush _ _
  split
  · intro h
    cases h
    exact absurd hz (Nat.not_le_of_lt hn)
  · split
    · intro h
      cases h
    · exact hpush _ _

/-- With room for fewer tokens the loop runs out of them. -/
private theorem zipLoop_nomem {num' k : Nat}
    (h : zipLoop js num k z = some (.ok z')) (hz : z.count ≤ num')
    (hn : num' < z'.count) :
    zipLoop js num' k z = some (.error .nomem) := by
  induction k generalizing z with
  | zero => cases h
  | succ k ih =>
      rw [zipLoop] at h ⊢
      split at h
      · cases h
        omega
      · next h0 =>
        rw [if_neg h0]
        split at h
        · cases h
        · next z₁ hchar =>
          by_cases hz₁ : z₁.count ≤ num'
          · rw [zipChar_room hchar hz₁]
            exact ih h hz₁
          · rw [zipChar_nomem hchar hz (Nat.lt_of_not_le hz₁)]

/-- With room for fewer tokens the parse fails with `JSMN_ERROR_NOMEM`. -/
theorem zipParse_nomem {f : Forest Lab} {num' : Nat}
    (h : zipParse js num = .ok f) (hn : num' < f.count) :
    zipParse js num' = .error .nomem := by
  obtain ⟨p, hp⟩ := zipParse_ok h
  have hloop := zipLoop_nomem (z := ⟨0, .nil, []⟩) hp (Nat.zero_le num')
    (by simpa [Zip.count, pathCount] using hn)
  simp only [zipParse, hloop]

-- ================================================================= the language

/-- The tokenizer accepts the texts that have a reading, and only those:
a text has one at most, its tokens are those of the reading, and without
room for them the answer is `JSMN_ERROR_NOMEM`. -/
theorem jsmnParse_accepts {arr : List JsmnTok} (hnum : num ≤ arr.length)
    (js : List UInt8) :
    (∀ toks, (∃ p, jsmnParse js arr num = some (.ok (p, toks)))
      ↔ ∃ f after, Reads js f after ∧ f.count ≤ num
        ∧ toks = tokens (labels 0 f) ++ arr.drop f.count)
      ∧ (∀ f after, Reads js f after →
        (∀ g after', Reads js g after' → g = f ∧ after' = after)
          ∧ (num < f.count → jsmnParse js arr num = some (.error .nomem)))
      ∧ ((¬ ∃ f after, Reads js f after) →
        ∃ e, jsmnParse js arr num = some (.error e)) := by
  have hspec := jsmnParse_spec js hnum
  refine ⟨fun toks => ⟨fun ⟨p, hp⟩ => ?_, fun ⟨f, after, hf, hroom, htoks⟩ => ?_⟩,
    fun f after hf => ⟨fun g after' hg => hg.unique hf, fun hroom => ?_⟩,
    fun hno => ?_⟩
  · cases hz : zipParse js num with
    | error e =>
        rw [hz] at hspec
        rw [show jsmnParse js arr num = some (.error e) from hspec] at hp
        cases hp
    | ok f =>
        rw [hz] at hspec
        obtain ⟨q, -, hq⟩ := hspec
        rw [hq] at hp
        cases hp
        obtain ⟨g, after, hg, rfl⟩ := reads_of_zipParse hz
        obtain ⟨pos, hloop⟩ := zipParse_ok hz
        have hcount := (zipLoop_count hloop (Nat.zero_le num)).2
        simp only [Zip.count, pathCount, Nat.zero_add, count_labels] at hcount
        exact ⟨g, after, hg, hcount, by rw [count_labels]⟩
  · rw [zipParse_readable hf.readable hf.layout hf.text hroom] at hspec
    obtain ⟨p, -, hp⟩ := hspec
    rw [count_labels, ← htoks] at hp
    exact ⟨p, hp⟩
  · have hparse := zipParse_readable hf.readable hf.layout hf.text
      (Nat.le_refl f.count)
    rw [zipParse_nomem hparse (by rwa [count_labels])] at hspec
    exact hspec
  · cases hz : zipParse js num with
    | error e =>
        rw [hz] at hspec
        exact ⟨e, hspec⟩
    | ok f =>
        obtain ⟨g, after, hg, -⟩ := reads_of_zipParse hz
        exact (hno ⟨g, after, hg⟩).elim

/-- `[a"b "c""d"]`: a primitive with a quote in it, and two strings with
nothing between them. -/
theorem jsmnParse_accepts_loose :
    ∃ f after, Reads [91, 97, 34, 98, 32, 34, 99, 34, 34, 100, 34, 93] f after
      ∧ f.count ≤ 4 ∧ ∀ g after',
        Reads [91, 97, 34, 98, 32, 34, 99, 34, 34, 100, 34, 93] g after' →
        g = f ∧ after' = after := by
  have haccepts := @jsmnParse_accepts 4 (List.replicate 4 .zero)
    (Nat.le_refl 4) [91, 97, 34, 98, 32, 34, 99, 34, 34, 100, 34, 93]
  obtain ⟨f, after, hf, hroom, -⟩ := (haccepts.1 _).mp ⟨⟨12, 4, none⟩, rfl⟩
  exact ⟨f, after, hf, hroom, (haccepts.2.1 f after hf).1⟩

end Psnet.Jsmn
