/-
`jsmn_get_value` on the tokens of an object.

`skipLoop` passes over whole trees (`skipLoop_spec`), so the lookup
visits the members of the object two by two. `pairs` is what it visits:
the pairs up to the first member in key position that is no string. The
lookup answers with the first pair whose key's text starts with the key
asked for (`jsmnGetValue_spec`), reading no token outside the object.

# What is visited

A value of an object may have anything below it; the walk passes over it
by counting down sizes, which the tokens of a tree end exactly. A member
in key position that is no string stops the lookup, even if there are
others behind it.
-/
import Psnet.Jsmn.Shape
import Mathlib.Data.List.Pairwise

namespace Psnet.Jsmn

open Forest

/-- A key, and its value with the value's index in the array. -/
structure Pair where
  key : Lab
  idx : Nat
  val : Lab
  kids : Forest Lab

/-- The pairs the lookup visits among members listed from index `i`
on. -/
def pairs : Forest Lab → Nat → List Pair
  | .node k _ (.node v vk rest), i =>
      if k.type = .string then ⟨k, i + 1, v, vk⟩ :: pairs rest (i + 2 + vk.count)
      else []
  | _, _ => []

/-- The pair the lookup answers with. -/
def findPair (msg : List UInt8) (key : List UInt8) (kids : Forest Lab) :
    Option Pair :=
  (pairs kids 1).find? fun p => startsWith msg p.key.start key

/-- The index of a pair's value, as the lookup returns it. -/
def answer : Option Pair → Int
  | none => -1
  | some p => p.idx

-- ============================================================= passing over

/-- The skip loop passes over the trees of a forest, and counts their
proper descendants. -/
theorem skipLoop_spec (f : Forest Lab) {toks : List JsmnTok} {i : Nat}
    {r : List JsmnTok} (h : toks.drop i = tokens f ++ r)
    (k e n : Nat) :
    skipLoop toks (k + f.count) (f.width + e) i n
      = skipLoop toks k e (i + f.count) (n + (f.count - f.width)) := by
  induction f generalizing i r k e n with
  | nil => simp
  | node a kids rest ihk ihr =>
      have hi : toks[i]? = some (a.tok kids.width) := by
        rw [← List.head?_drop, h]
        rfl
      have hkids : toks.drop (i + 1) = tokens kids ++ (tokens rest ++ r) := by
        rw [← List.drop_drop, h]
        simp
      have hrest : toks.drop (i + 1 + kids.count) = tokens rest ++ r := by
        rw [← List.drop_drop, hkids]
        simp
      have hwk := width_le_count kids
      have hwr := width_le_count rest
      rw [show k + (node a kids rest).count
          = k + rest.count + kids.count + 1 by simp; omega,
        show (node a kids rest).width + e = rest.width + e + 1 by
          simp; omega]
      simp only [skipLoop, hi, bind, Option.bind_some, Lab.tok]
      rw [show rest.width + e + kids.width = kids.width + (rest.width + e)
          by omega, ihk hkids, ihr hrest]
      simp only [count_node, width_node]
      congr 1
      · omega
      · omega

/-- From a token of a complete parse, the loop ends just past its
subtree. -/
theorem skipLoop_tree {a : Lab} {kids : Forest Lab} {toks r : List JsmnTok}
    {i : Nat} (h : toks.drop i = tokens (tree a kids) ++ r) (n : Nat) :
    skipLoop toks (toks.length + 1) 1 i n
      = some (i + 1 + kids.count, n + kids.count) := by
  have hlen := congrArg List.length h
  simp only [List.length_drop, List.length_append, length_tokens,
    count_tree] at hlen
  have := skipLoop_spec (tree a kids) h
    (toks.length + 1 - (kids.count + 1)) 0 n
  simp only [count_tree, width_tree] at this
  rw [show toks.length + 1 - (kids.count + 1) + (kids.count + 1)
    = toks.length + 1 by omega] at this
  rw [this, show toks.length + 1 - (kids.count + 1)
    = (toks.length - (kids.count + 1)) + 1 by omega, skipLoop]
  simp only [Option.some.injEq, Prod.mk.injEq]
  omega

-- ================================================================ the lookup

theorem tokStartsWith_tok (msg : List UInt8) (a : Lab) (n : Nat)
    (key : List UInt8) :
    tokStartsWith msg (a.tok n) key = some (startsWith msg a.start key) := by
  have h : ¬ (a.tok n).start < 0 := Int.not_lt.mpr (Int.natCast_nonneg _)
  rw [tokStartsWith, if_neg h]
  rfl

/-- The members of the object before the lookup's cursor are passed, the
others are `kids`. -/
theorem getValueLoop_spec {msg key : List UInt8} {obj : List JsmnTok}
    {js : List UInt8} (kids : Forest Lab) (i : Nat) {r : List JsmnTok}
    {k : Nat} (h : obj.drop i = tokens kids ++ r)
    (hw : All (Written js) kids) (hk : kids.count < k) :
    getValueLoop msg obj key k i (i + kids.width)
      = some (answer ((pairs kids i).find? fun p =>
          startsWith msg p.key.start key)) := by
  induction kids, i using pairs.induct generalizing k with
  | case1 a akids v vk rest i hstr ih =>
      obtain ⟨⟨rfl, -⟩, -, ⟨hv, hvk, hrest⟩⟩ :
          (akids = .nil ∧ _) ∧ _ ∧ Written js v vk ∧ All (Written js) vk
            ∧ All (Written js) rest := by
        have := hw
        simp only [All, Written, hstr] at this ⊢
        exact this
      obtain ⟨k, rfl⟩ : ∃ j, k = j + 1 := ⟨k - 1, by simp at hk; omega⟩
      have h0 : obj[i]? = some (a.tok 0) := by
        rw [← List.head?_drop, h]
        rfl
      have hval : obj.drop (i + 1) = tokens (tree v vk)
          ++ (tokens rest ++ r) := by
        rw [← List.drop_drop, h]
        simp
      have h1 : obj[i + 1]? = some (v.tok vk.width) := by
        rw [← List.head?_drop, hval]
        simp
      have hdrop : obj.drop (i + 2 + vk.count) = tokens rest ++ r := by
        rw [show i + 2 + vk.count = i + 1 + (vk.count + 1) by omega,
          ← List.drop_drop, hval]
        simp
      simp only [count_node, count_nil] at hk
      have hih := ih (k := k) hdrop hrest (by omega)
      rw [getValueLoop, if_pos (by simp)]
      simp only [h0, bind, Option.bind_some, tokStartsWith_tok, pairs,
        if_pos hstr, List.find?_cons]
      rw [if_neg (by simp [Lab.tok, hstr])]
      cases hs : startsWith msg a.start key with
      | true => simp [answer]
      | false =>
          simp only [Bool.false_eq_true, ↓reduceIte, h1, Option.bind_some]
          by_cases hc : v.type = .object ∨ v.type = .array
          · rw [if_pos (by simpa [Lab.tok] using hc), skipLoop_tree hval,
              Option.bind_some]
            simp only [width_node]
            rw [← hih]
            congr 1
            omega
          · rw [if_neg (by simpa [Lab.tok] using hc)]
            -- a string or primitive has no members
            have hnil : vk = .nil := by
              simp only [Written] at hv
              cases ht : v.type with
              | object => exact absurd (Or.inl ht) hc
              | array => exact absurd (Or.inr ht) hc
              | string => rw [ht] at hv; exact hv.1
              | primitive => rw [ht] at hv; exact hv.1
            subst hnil
            simp only [width_node, count_nil, Nat.add_zero] at hih ⊢
            rw [← hih]
            congr 1
            omega
  | case2 a akids v vk rest i hstr =>
      obtain ⟨k, rfl⟩ : ∃ j, k = j + 1 := ⟨k - 1, by simp at hk; omega⟩
      have h0 : obj[i]? = some (a.tok akids.width) := by
        rw [← List.head?_drop, h]
        rfl
      rw [getValueLoop, if_pos (by simp)]
      simp only [h0, bind, Option.bind_some, pairs, if_neg hstr,
        List.find?_nil, answer]
      rw [if_pos (by simpa [Lab.tok] using hstr)]
      rfl
  | case3 kids i hkids =>
      obtain ⟨k, rfl⟩ : ∃ j, k = j + 1 := ⟨k - 1, by omega⟩
      have hw : kids.width < 2 := by
        cases kids with
        | nil => simp
        | node a ak rest =>
            cases rest with
            | nil => simp
            | node v vk rest => exact absurd rfl (hkids a ak v vk rest)
      rw [getValueLoop, if_neg (by omega)]
      rw [pairs]
      · rfl
      · exact hkids

/-- The lookup on the tokens of a value answers with its first pair
whose key starts with the key asked for. -/
theorem jsmnGetValue_spec (msg key : List UInt8) {js : List UInt8}
    {a : Lab} {kids : Forest Lab} {obj r : List JsmnTok}
    (h : obj = tokens (tree a kids) ++ r) (hw : All (Written js) kids) :
    jsmnGetValue msg obj key = some (answer (findPair msg key kids)) := by
  have h0 : obj[0]? = some (a.tok kids.width) := by simp [h]
  have h1 : obj.drop 1 = tokens kids ++ r := by simp [h]
  have hlen : kids.count < obj.length + 1 := by
    rw [h]
    simp
    omega
  simp only [jsmnGetValue, h0, bind, Option.bind_some, Lab.tok]
  rw [Nat.add_comm kids.width 1]
  exact getValueLoop_spec kids 1 h1 hw hlen

-- ================================================================= the pairs

/-- Where a pair's value stands in the array. -/
theorem pairs_tok {kids : Forest Lab} {i : Nat} {p : Pair}
    (hp : p ∈ pairs kids i) {js : List UInt8} (hw : All (Written js) kids)
    {toks r : List JsmnTok} (h : toks.drop i = tokens kids ++ r) :
    i ≤ p.idx ∧ toks[p.idx]? = some (p.val.tok p.kids.width)
      ∧ Written js p.val p.kids := by
  induction kids, i using pairs.induct with
  | case1 a akids v vk rest i hstr ih =>
      have hnil : akids = .nil := by
        have := hw.1
        simp only [Written, hstr] at this
        exact this.1
      subst hnil
      have hval : toks.drop (i + 1) = tokens (tree v vk)
          ++ (tokens rest ++ r) := by
        rw [← List.drop_drop, h]
        simp
      rw [pairs, if_pos hstr, List.mem_cons] at hp
      rcases hp with rfl | hp
      · refine ⟨Nat.le_succ _, ?_, hw.2.2.1⟩
        rw [← List.head?_drop, hval]
        simp
      · have hdrop : toks.drop (i + 2 + vk.count) = tokens rest ++ r := by
          rw [show i + 2 + vk.count = i + 1 + (vk.count + 1) by omega,
            ← List.drop_drop, hval]
          simp
        obtain ⟨hle, htok, hwr⟩ := ih hp hw.2.2.2.2 hdrop
        exact ⟨by omega, htok, hwr⟩
  | case2 a akids v vk rest i hstr =>
      rw [pairs, if_neg hstr] at hp
      cases hp
  | case3 kids i hkids =>
      rw [pairs] at hp
      · cases hp
      · exact hkids

/-- The values of the pairs follow one another, after their keys. -/
theorem pairs_spans {kids : Forest Lab} {i lo hi : Nat}
    (h : LabSpans lo kids hi) :
    (∀ p ∈ pairs kids i, lo ≤ p.key.start ∧ p.key.start ≤ p.val.start
        ∧ p.val.start ≤ p.val.stop ∧ p.val.stop ≤ hi)
      ∧ (pairs kids i).Pairwise fun p q => p.val.stop ≤ q.val.start := by
  induction kids, i using pairs.induct generalizing lo with
  | case1 a akids v vk rest i hstr ih =>
      obtain ⟨ha, hak, hv, hvk, hrest⟩ := h
      obtain ⟨hin, hpw⟩ := ih hrest
      have h1 := hak.le
      have h2 := hvk.le
      have h3 := hrest.le
      rw [pairs, if_pos hstr]
      refine ⟨fun p hp => ?_, List.pairwise_cons.mpr ⟨fun q hq => ?_, hpw⟩⟩
      · rcases List.mem_cons.mp hp with rfl | hp
        · simp only
          omega
        · have := hin p hp
          omega
      · have := hin q hq
        simp only
        omega
  | case2 a akids v vk rest i hstr =>
      rw [pairs, if_neg hstr]
      simp
  | case3 kids i hkids =>
      rw [pairs]
      · simp
      · exact hkids

/-- One of two values ends before the other starts. -/
def Apart (p q : Pair) : Prop :=
  p.val.stop ≤ q.val.start ∨ q.val.stop ≤ p.val.start

instance : Std.Symm Apart := ⟨fun _ _ h => h.symm⟩

/-- The values of two pairs do not overlap. -/
theorem pairs_apart {kids : Forest Lab} {i lo hi : Nat}
    (h : LabSpans lo kids hi) {p q : Pair} (hp : p ∈ pairs kids i)
    (hq : q ∈ pairs kids i) (hne : p ≠ q) : Apart p q := by
  have hpw : (pairs kids i).Pairwise Apart :=
    (pairs_spans h).2.imp Or.inl
  exact hpw.forall hp hq hne

end Psnet.Jsmn
