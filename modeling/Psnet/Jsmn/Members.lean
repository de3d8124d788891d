/-
Looking up a key in a written object.

`member p f i` is the first pair of `f`, listed from index `i` on, whose
key satisfies `p`: the index of its value, and the value. A lookup
compares no further than the key asked for, so it finds the first pair
whose key starts with that key (`findPair_text`), which need not be the
pair with that key (`jsmn_get_value_exact`).

# Two lookups

`member` takes what it looks for as a predicate on keys: that a key begins
with the one asked for, as the code has it, or that it is that key. The two
find the same pair unless the first key that begins with the one asked for
is another (`indexOf_member`), which is the condition of the last theorem.
-/
import Psnet.Jsmn.Lookup
import Psnet.Jsmn.Text
import Psnet.Net.Numeral

namespace Psnet.Jsmn

open Forest Net

variable {js key : List UInt8}

/-- The text between the quotes of a string, or the text of a word. -/
def Piece.content : Piece → List UInt8
  | .word w => w
  | .string s => s
  | _ => []

/-- Strings and values in turn. -/
def Paired : Forest Lex → Prop
  | .nil => True
  | .node _ _ .nil => False
  | .node k _ (.node _ _ rest) => (∃ s, k.piece = .string s) ∧ Paired rest

instance : (p : Piece) → Decidable (∃ s, p = .string s)
  | .string s => isTrue ⟨s, rfl⟩
  | .word _ | .array _ | .object _ => isFalse fun ⟨_, h⟩ => nomatch h

instance decPaired : (f : Forest Lex) → Decidable (Paired f)
  | .nil => isTrue trivial
  | .node _ _ .nil => isFalse id
  | .node k _ (.node _ _ rest) =>
      have := decPaired rest
      inferInstanceAs (Decidable ((∃ s, k.piece = .string s) ∧ _))

/-- The value of the first pair whose key satisfies `p`, and its
index. -/
def member (p : List UInt8 → Bool) : Forest Lex → Nat → Option (Nat × Piece)
  | .node k _ (.node v vk rest), i =>
      if p k.piece.content then some (i + 1, v.piece)
      else member p rest (i + 2 + vk.count)
  | _, _ => none

/-- The value labelled `l` is written at its place in the buffer. -/
def Stands (js : List UInt8) (l : Lab) (v : Piece) : Prop :=
  ∃ lo kids u, js.drop lo = v.write (text kids) ++ u ∧ Ends u
    ∧ l = v.lab lo (text kids).length

/-- A key without a quote is compared with the key in the text alone. -/
private theorem startsWith_string {s r : List UInt8} {i : Nat}
    (h : js.drop i = s ++ QUOTE :: r) (hq : QUOTE ∉ key) :
    startsWith js i key = key.isPrefixOf s := by
  induction key generalizing i s with
  | nil => cases s <;> rfl
  | cons c key ih =>
      rw [List.mem_cons, not_or] at hq
      cases s with
      | nil =>
          obtain ⟨hc, -⟩ := byteAt_drop_cons h
          rw [startsWith, hc, beq_false_of_ne hq.1, Bool.false_and]
          rfl
      | cons d s =>
          obtain ⟨hd, hrest⟩ := byteAt_drop_cons h
          rw [startsWith, hd, ih hrest hq.2, List.isPrefixOf,
            Bool.beq_comm]

/-- The first pair of a written object. -/
private theorem pairs_text_cons {k v : Lex} {kk vk rest : Forest Lex}
    {first : Bool} {lo : Nat} (i : Nat) {u s : List UInt8}
    (hf : Legible first (.node k kk (.node v vk rest))) (hu : Ends u)
    (hs : k.piece = .string s)
    (h : js.drop lo = text (.node k kk (.node v vk rest)) ++ u) :
    ∃ p mid, pairs (labels lo (.node k kk (.node v vk rest))) i
        = p :: pairs (labels mid rest) (i + 2 + vk.count)
      ∧ js.drop mid = text rest ++ u
      ∧ (∃ r, js.drop p.key.start = s ++ QUOTE :: r)
      ∧ p.idx = i + 1 ∧ Stands js p.val v.piece := by
  obtain ⟨-, -, hk, -, -, -, -, -, hrest⟩ := hf
  simp only [hs, Piece.Legible] at hk
  obtain ⟨rfl, -⟩ := hk
  simp only [text, hs, Piece.write, List.append_assoc] at h
  have hkey := drop_append h
  simp only [List.cons_append, List.append_assoc] at hkey
  have hbody := (byteAt_drop_cons hkey).2
  have hv := (byteAt_drop_cons (drop_append hbody)).2
  simp only [List.nil_append] at hv
  have hval := drop_append hv
  have hmid := drop_append hval
  refine ⟨⟨⟨.string, lo + k.pre.length + 1,
      lo + k.pre.length + 1 + s.length⟩, i + 1,
    v.piece.lab (lo + k.pre.length + 1 + s.length + 1 + v.pre.length)
      (text vk).length,
    labels (lo + k.pre.length + 1 + s.length + 1 + v.pre.length + 1) vk⟩,
    _, ?_, hmid, ⟨_, hbody⟩, rfl, _, vk, _, hval, ends_rest hrest hu, rfl⟩
  simp [labels, pairs, hs, Piece.lab, Piece.write, Nat.add_assoc,
    Nat.add_comm 1]

/-- The pairs of a written object are its pairs. -/
private theorem find_pairs_text (f : Forest Lex) {first : Bool} {lo i : Nat}
    {u : List UInt8} (hf : Legible first f) (hp : Paired f) (hu : Ends u)
    (h : js.drop lo = text f ++ u) (hq : QUOTE ∉ key) :
    match member key.isPrefixOf f i with
    | none => (pairs (labels lo f) i).find?
        (fun p => startsWith js p.key.start key) = none
    | some (j, v) => ∃ p, (pairs (labels lo f) i).find?
        (fun p => startsWith js p.key.start key) = some p
          ∧ p.idx = j ∧ Stands js p.val v := by
  match f with
  | .nil => rfl
  | .node _ _ .nil => exact hp.elim
  | .node k kk (.node v vk rest) =>
      obtain ⟨⟨s, hs⟩, hpr⟩ := hp
      obtain ⟨p, mid, hpairs, hmid, ⟨r, hkey⟩, hidx, hval⟩ :=
        pairs_text_cons i hf hu hs h
      have ih := find_pairs_text rest (i := i + 2 + vk.count)
        hf.2.2.2.2.2.2.2.2 hpr hu hmid hq
      simp only [member, hs, Piece.content, hpairs, List.find?_cons,
        startsWith_string hkey hq]
      cases hpre : key.isPrefixOf s with
      | true => exact ⟨p, rfl, hidx, hval⟩
      | false => exact ih

/-- A lookup in a written object finds the first pair whose key starts
with the key asked for. -/
theorem findPair_text {f : Forest Lex} {first : Bool} {lo : Nat}
    {u : List UInt8} (hf : Legible first f) (hp : Paired f) (hu : Ends u)
    (h : js.drop lo = text f ++ u) (hq : QUOTE ∉ key) :
    match member key.isPrefixOf f 1 with
    | none => findPair js key (labels lo f) = none
    | some (j, v) => ∃ p, findPair js key (labels lo f) = some p
        ∧ p.idx = j ∧ Stands js p.val v :=
  find_pairs_text f hf hp hu h hq

-- =============================================================== exact lookups

/-- The keys of an object, in order. -/
def keys : Forest Lex → List (List UInt8)
  | .node k _ (.node _ _ rest) => k.piece.content :: keys rest
  | _ => []

/-- An index, or −1. -/
def indexOf : Option (Nat × Piece) → Int
  | none => -1
  | some (i, _) => i

private theorem member_lt {p : List UInt8 → Bool} {f : Forest Lex} {i j : Nat}
    {v : Piece} (h : member p f i = some (j, v)) : i < j := by
  induction f, i using member.induct p with
  | case1 k kk v' vk rest i hk =>
      rw [member, if_pos hk] at h
      cases h
      exact Nat.lt_succ_self i
  | case2 k kk v' vk rest i hk ih =>
      rw [member, if_neg hk] at h
      have := ih h
      omega
  | case3 f i hne =>
      rw [member] at h
      · cases h
      · exact hne

/-- Comparing only as far as the key goes finds the pair with that key
exactly when the first key that starts with it is that key. -/
private theorem indexOf_member (key : List UInt8) (f : Forest Lex) (i : Nat) :
    indexOf (member key.isPrefixOf f i) = indexOf (member (· == key) f i)
      ↔ ∀ k, (keys f).find? key.isPrefixOf = some k → k = key := by
  induction f, i using member.induct key.isPrefixOf with
  | case1 k kk v vk rest i hk =>
      simp only [member, keys, List.find?_cons, hk,
        ↓reduceIte, Option.some.injEq, forall_eq']
      by_cases heq : k.piece.content = key
      · simp [heq]
      · simp only [beq_false_of_ne heq, Bool.false_eq_true, ↓reduceIte, heq,
          iff_false]
        intro hidx
        cases hm : member (· == key) rest (i + 2 + vk.count) with
        | none =>
            rw [hm] at hidx
            simp only [indexOf] at hidx
            omega
        | some q =>
            have hlt := member_lt hm
            rw [hm] at hidx
            simp only [indexOf] at hidx
            omega
  | case2 k kk v vk rest i hk ih =>
      have hne : k.piece.content ≠ key := by
        intro hkey
        rw [hkey] at hk
        exact hk (by simp)
      simp only [Bool.not_eq_true] at hk
      simpa only [member, keys, hk, List.find?_cons, Bool.false_eq_true,
        ↓reduceIte, beq_false_of_ne hne] using ih
  | case3 f i hne =>
      rw [member, member, keys]
      · simp
      all_goals exact hne

/-- A member's value is one of the pairs' values. -/
private theorem member_pairs {p : List UInt8 → Bool} (f : Forest Lex)
    {first : Bool} {lo i j : Nat} {u : List UInt8} {v : Piece}
    (hf : Legible first f) (hp : Paired f) (hu : Ends u)
    (h : js.drop lo = text f ++ u) (hm : member p f i = some (j, v)) :
    ∃ q ∈ pairs (labels lo f) i, q.idx = j ∧ Stands js q.val v := by
  match f with
  | .nil => cases hm
  | .node _ _ .nil => exact hp.elim
  | .node k kk (.node w wk rest) =>
      obtain ⟨⟨s, hs⟩, hpr⟩ := hp
      obtain ⟨q, mid, hpairs, hmid, -, hidx, hval⟩ :=
        pairs_text_cons i hf hu hs h
      rw [hpairs]
      rw [member] at hm
      split at hm
      · cases hm
        exact ⟨q, List.mem_cons_self .., hidx, hval⟩
      · obtain ⟨q', hq', hj⟩ := member_pairs rest hf.2.2.2.2.2.2.2.2 hpr hu
          hmid hm
        exact ⟨q', List.mem_cons_of_mem _ hq', hj⟩

/-- The text of an object: any nesting, any order of keys, any layout. -/
structure ObjectText where
  pre : List UInt8
  inner : List UInt8
  after : List UInt8
  kids : Forest Lex
  legible : Legible true (tree ⟨pre, .object inner⟩ kids)
  paired : Paired kids
  layout : Layout after

def ObjectText.doc (o : ObjectText) : Forest Lex :=
  tree ⟨o.pre, .object o.inner⟩ o.kids

def ObjectText.text (o : ObjectText) : List UInt8 :=
  Jsmn.text o.doc ++ o.after

/-- On this text, with this much room, the lookup of `key` returns the
index of the value of the first member with that key, and −1 if there is
none. -/
def FindsMember (msg key : List UInt8) (o : ObjectText)
    (arr : List JsmnTok) (num : Nat) : Prop :=
  ∃ parser toks, jsmnParse msg arr num = some (.ok (parser, toks))
    ∧ jsmnGetValue msg toks key
      = some (indexOf (member (· == key) o.kids 1))
    ∧ ∀ j v, member (· == key) o.kids 1 = some (j, v) →
      ∃ l n, toks[j]? = some (Lab.tok l n) ∧ Stands msg l v

/-- The lookup finds the member with the key asked for exactly when no
longer key that starts with it comes first. -/
theorem jsmn_get_value_exact {msg key : List UInt8} {o : ObjectText}
    {arr : List JsmnTok} {num : Nat} (hmsg : cstr msg = o.text)
    (hnum : num ≤ arr.length) (hroom : o.doc.count ≤ num)
    (hq : QUOTE ∉ key) :
    FindsMember msg key o arr num
      ↔ ∀ k, (keys o.kids).find? key.isPrefixOf = some k → k = key := by
  have hz : zipParse msg num = .ok (labels 0 o.doc) :=
    zipParse_text o.legible o.layout hmsg hroom
  have hspec := jsmnParse_spec msg hnum
  rw [hz] at hspec
  obtain ⟨parser, -, hparse⟩ := hspec
  obtain ⟨-, -, hin, hkids, -⟩ := o.legible
  -- the members in the buffer
  obtain ⟨r, hr⟩ := List.takeWhile_prefix (l := msg) (p := (· ≠ 0))
  have hdrop : msg.drop (o.pre.length + 1)
      = text o.kids ++ (o.inner ++ RBRACE :: (o.after ++ r)) := by
    have : msg = o.pre ++ LBRACE :: (text o.kids
        ++ (o.inner ++ RBRACE :: (o.after ++ r))) := by
      rw [← hr, ← cstr, hmsg]
      simp [ObjectText.text, ObjectText.doc, tree, text, Piece.write]
    rw [← List.drop_drop]
    conv_lhs => rw [this, List.drop_left]
    rfl
  have hends : Ends (o.inner ++ RBRACE :: (o.after ++ r)) :=
    ends_layout hin fun c hc => by
      cases hc
      exact Or.inr (by decide)
  have htoks : tokens (labels 0 o.doc) ++ arr.drop (labels 0 o.doc).count
      = tokens (tree ((Piece.object o.inner).lab (0 + o.pre.length)
          (text o.kids).length) (labels (o.pre.length + 1) o.kids))
        ++ arr.drop (labels 0 o.doc).count := by
    simp [ObjectText.doc, tree, labels]
  have hw := (zipParse_good hz).2
  simp only [ObjectText.doc, tree, labels, Nat.zero_add] at hw
  have hget := jsmnGetValue_spec msg key htoks hw.2.1
  have hfind := findPair_text hkids o.paired hends hdrop hq
  have hidx : answer (findPair msg key (labels (o.pre.length + 1) o.kids))
      = indexOf (member key.isPrefixOf o.kids 1) := by
    cases hm : member key.isPrefixOf o.kids 1 with
    | none =>
        rw [hm] at hfind
        simp only at hfind
        rw [hfind]
        rfl
    | some q =>
        rw [hm] at hfind
        obtain ⟨p, hp, hpi, -⟩ := hfind
        rw [hp]
        simp [answer, indexOf, hpi]
  rw [← indexOf_member key o.kids 1, ← hidx]
  constructor
  · intro h
    obtain ⟨parser', toks, hparse', hval, -⟩ := h
    rw [hparse] at hparse'
    cases hparse'
    rw [hget, Option.some.injEq] at hval
    exact hval
  · intro heq
    refine ⟨parser, _, hparse, hget.trans (congrArg some heq), ?_⟩
    intro j v hm
    obtain ⟨q, hq', hj, hstands⟩ := member_pairs o.kids hkids o.paired hends
      hdrop hm
    have htok := (@pairs_tok _ _ _ hq' _ hw.2.1
      (tokens (labels 0 o.doc) ++ arr.drop (labels 0 o.doc).count)
      (arr.drop (labels 0 o.doc).count)
      (by simp [ObjectText.doc, tree, labels])).2.1
    rw [hj] at htok
    exact ⟨_, _, htok, hstands⟩

-- ============================================================== two examples

/-- A member of an object written without blanks. -/
def plainMember (sep : List UInt8) (key : String) (v : Piece)
    (rest : Forest Lex) : Forest Lex :=
  .node ⟨sep, .string (ascii key)⟩ .nil (.node ⟨ascii ":", v⟩ .nil rest)

/-- `{"ip":"::","ipv":6}`. -/
def ipFirst : ObjectText where
  pre := []
  inner := []
  after := []
  kids := plainMember [] "ip" (.string (ascii "::"))
    (plainMember (ascii ",") "ipv" (.word (ascii "6")) .nil)
  legible := by decide
  paired := by decide
  layout := by decide

/-- `{"ipv":6,"ip":"::"}`. -/
def ipvFirst : ObjectText where
  pre := []
  inner := []
  after := []
  kids := plainMember [] "ipv" (.word (ascii "6"))
    (plainMember (ascii ",") "ip" (.string (ascii "::")) .nil)
  legible := by decide
  paired := by decide
  layout := by decide

def fiveTokens : List JsmnTok := List.replicate 5 JsmnTok.zero

theorem jsmn_get_value_exact_ip :
    FindsMember ipFirst.text (ascii "ip") ipFirst fiveTokens 5 :=
  (@jsmn_get_value_exact _ _ ipFirst fiveTokens 5 (by decide) (by decide)
    (by decide) (by decide)).mpr (by decide)

/-- With the keys the other way round, `ip` is looked up in `ipv`. -/
theorem ip_finds_ipv :
    ¬ FindsMember ipvFirst.text (ascii "ip") ipvFirst fiveTokens 5 := by
  intro h
  obtain ⟨parser, toks, hparse, hval, -⟩ := h
  have hfound : (jsmnParse ipvFirst.text fiveTokens 5).map (fun r =>
      match r with
      | .ok (_, toks) => jsmnGetValue ipvFirst.text toks (ascii "ip")
      | .error _ => none) = some (some 2) := by decide +kernel
  rw [hparse] at hfound
  simp only [Option.map_some, hval] at hfound
  revert hfound
  decide

end Psnet.Jsmn
