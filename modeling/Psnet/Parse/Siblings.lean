/-
The loops over the children of a token.

`parse_node_list` walks the elements of an array and `jsmn_get_value`
the members of an object; both pass over the tree below a child by a
loop that keeps the number of trees it still owes in one counter. From
the position of any token that loop ends just past its tree and reads no
token beyond it, so the walks come by every child once, in order
(`subtree_skipping`).

# The counter

The loop adds the size of each token it passes over and takes one off, so
it owes `k` trees in front of the listing of `k` trees; the proof is the
listing's own recursion. The statement is about the whole array, cut at
the end of the subtree: nothing behind it is looked at.
-/
import Psnet.Jsmn.Lookup
import Psnet.Net.Dotted
import Psnet.Parse.Model

namespace Psnet.Parse

open Net Jsmn Forest

variable {inet : Inet} {msg key : List UInt8} {toks r : List JsmnTok}
  {f kids : Forest Lab} {a : Lab} {i k : Nat}

-- ==================================================================== values

/-- Strings and primitives have nothing below them. -/
def IsValue (a : Lab) (kids : Forest Lab) : Prop :=
  a.type = .string ∨ a.type = .primitive → kids = .nil

/-- The members of an object: keys and values in turn. -/
def KeyValues : Forest Lab → Prop
  | .nil => True
  | .node k _ (.node _ _ rest) => k.type = .string ∧ KeyValues rest
  | .node _ _ .nil => False

-- ==================================================================== the walks

/-- What `parse_node_list` does at one element: the entry it appends,
`none` inside when it gives up. -/
def nodeBody (inet : Inet) (msg : List UInt8) (tok : List JsmnTok)
    (i : Nat) : Option (Option Sockaddr) := do
  let t ← tok[i]?
  if t.type ≠ .object ∨ t.size < 6 then return none
  else parseNode inet msg (tok.drop i)

/-- `body` on one element after the other until it gives up: the return
code and what was appended. -/
def collect {ι α : Type} (body : ι → Option (Option α)) :
    List ι → Option (Int × List α)
  | [] => some (0, [])
  | i :: is => do
      match ← body i with
      | none => return (-1, [])
      | some x => do
          let (rc, xs) ← collect body is
          return (rc, x :: xs)

/-- What `jsmn_get_value` does at one key: the value it returns, `none`
inside when it goes on. -/
def keyBody (msg : List UInt8) (obj : List JsmnTok) (key : List UInt8)
    (i : Nat) : Option (Option Int) := do
  let t ← obj[i]?
  if t.type ≠ .string then return some (-1)
  else do
    let found ← tokStartsWith msg t key
    return if found then some (i + 1 : Nat) else none

/-- `body` at one index after the other until it returns. -/
def search (body : Nat → Option (Option Int)) : List Nat → Option Int
  | [] => some (-1)
  | i :: is => do
      match ← body i with
      | some x => return x
      | none => search body is

/-- Every other element, as long as one follows. -/
def evens : List Nat → List Nat
  | i :: _ :: is => i :: evens is
  | _ => []

/-- A tree's token, the tokens of its own tree, and those after it. -/
theorem drop_starts (h : toks.drop i = tokens (.node a kids f) ++ r) :
    toks.drop (i + 1 + kids.count) = tokens f ++ r
      ∧ toks[i]? = some (a.tok kids.width)
      ∧ toks.drop i = tokens (tree a kids) ++ (tokens f ++ r) := by
  have htree : toks.drop i = tokens (tree a kids) ++ (tokens f ++ r) := by
    simpa using h
  refine ⟨?_, ?_, htree⟩
  · rw [Nat.add_assoc, ← List.drop_drop, htree,
      List.drop_append_of_le_length (by simp [Nat.add_comm]),
      List.drop_eq_nil_of_le (by simp [Nat.add_comm]), List.nil_append]
  · rw [← List.head?_drop, h]
    rfl

/-- The walk over the elements of an array. -/
theorem nodeLoop_visits (f : Forest Lab) :
    ∀ {i k : Nat}, toks.drop i = tokens f ++ r → f.width < k →
      nodeLoop inet msg toks k i (i + f.width)
        = collect (nodeBody inet msg toks) (starts i f) := by
  induction f with
  | nil =>
      intro i k _ hk
      obtain ⟨k, rfl⟩ : ∃ j, k = j + 1 := ⟨k - 1, by simp at hk; omega⟩
      simp [nodeLoop, starts, collect]
  | node a kids rest _ ih =>
      intro i k h hk
      obtain ⟨k, rfl⟩ : ∃ j, k = j + 1 := ⟨k - 1, by simp at hk; omega⟩
      obtain ⟨hrest, hi, htree⟩ := drop_starts h
      have hnext := ih (k := k) hrest (by simp at hk; omega)
      rw [nodeLoop, if_pos (by simp), starts, collect]
      simp only [nodeBody, hi, bind, Option.bind_some, width_node]
      split
      · rfl
      · cases parseNode inet msg (toks.drop i) with
        | none => rfl
        | some sa =>
            cases sa with
            | none => rfl
            | some sa =>
                simp only [Option.bind_some, skipLoop_tree htree]
                rw [show i + (rest.width + 1) + kids.count
                  = i + 1 + kids.count + rest.width by omega, hnext]

/-- The walk over the members of an object. -/
private theorem valueLoop_visits (f : Forest Lab) :
    ∀ {i k : Nat}, toks.drop i = tokens f ++ r → All IsValue f →
      f.width < k →
      getValueLoop msg toks key k i (i + f.width)
        = search (keyBody msg toks key) (evens (starts i f)) := by
  induction f using KeyValues.induct with
  | case1 =>
      intro i k _ _ hk
      obtain ⟨k, rfl⟩ : ∃ j, k = j + 1 := ⟨k - 1, by simp at hk; omega⟩
      simp [getValueLoop, starts, evens, search]
  | case2 a akids v vk rest ih =>
      intro i k h hf hk
      obtain ⟨k, rfl⟩ : ∃ j, k = j + 1 := ⟨k - 1, by simp at hk; omega⟩
      obtain ⟨hakids, -, hv, -, hrest⟩ := hf
      obtain ⟨htail, hi, -⟩ := drop_starts h
      rw [getValueLoop, if_pos (by simp), starts, starts, evens, search]
      simp only [keyBody, hi, bind, Option.bind_some]
      split
      · rfl
      · next hstr =>
        -- a key has nothing below it, so its value comes next
        have hnil : akids = .nil :=
          hakids (Or.inl (by simpa [Lab.tok] using hstr))
        subst hnil
        obtain ⟨hdrop, hi1, htree⟩ := drop_starts htail
        have hnext := ih (k := k) hdrop hrest (by simp at hk; omega)
        simp only [count_nil, Nat.add_zero] at hi1 htree hnext ⊢
        rw [tokStartsWith_tok]
        cases startsWith msg a.start key with
        | true => rfl
        | false =>
            simp only [Bool.false_eq_true, ↓reduceIte, hi1,
              Option.bind_some, width_node]
            rw [← hnext]
            by_cases hc : v.type = .object ∨ v.type = .array
            · rw [if_pos (by simpa [Lab.tok] using hc), skipLoop_tree htree,
                Option.bind_some]
              congr 1
              omega
            · have hvnil : vk = .nil := hv (by
                cases ht : v.type <;> simp [ht] at hc ⊢)
              rw [if_neg (by simpa [Lab.tok] using hc)]
              subst hvnil
              simp only [count_nil, Nat.add_zero]
              congr 1
              omega
  | case3 a akids =>
      intro i k _ _ hk
      obtain ⟨k, rfl⟩ : ∃ j, k = j + 1 := ⟨k - 1, by simp at hk; omega⟩
      simp [getValueLoop, starts, evens, search]

/-- The members of an object start at the keys, and just after them. -/
private theorem starts_members (f : Forest Lab) (hm : KeyValues f)
    (hf : All IsValue f) (i : Nat) :
    starts i f = (evens (starts i f)).flatMap fun j => [j, j + 1] := by
  induction f using KeyValues.induct generalizing i with
  | case1 => rfl
  | case2 a akids v vk rest ih =>
      have hnil : akids = .nil := hf.1 (Or.inl hm.1)
      subst hnil
      have hnext := ih hm.2 hf.2.2.2.2 (i + 1 + 1 + vk.count)
      simp only [starts, count_nil, Nat.add_zero, evens,
        List.flatMap_cons, List.cons_append, List.nil_append] at hnext ⊢
      rw [← hnext]
  | case3 a akids => exact hm.elim

-- ============================================================= the skip loop

/-- The skip loop passes over a tree on the array that ends with it. -/
private theorem skipLoop_cut (h : toks.drop i = tokens (tree a kids) ++ r)
    (n : Nat) :
    skipLoop (toks.take (i + 1 + kids.count)) (toks.length + 1) 1 i n
      = some (i + 1 + kids.count, n + kids.count) := by
  have hlen := congrArg List.length h
  simp only [List.length_drop, List.length_append, length_tokens,
    count_tree] at hlen
  have hcut : (toks.take (i + 1 + kids.count)).drop i
      = tokens (tree a kids) ++ [] := by
    rw [List.drop_take, h, show i + 1 + kids.count - i
      = (tokens (tree a kids)).length by simp; omega, List.take_left,
      List.append_nil]
  have hrun := skipLoop_spec (tree a kids) hcut
    (toks.length - (kids.count + 1) + 1) 0 n
  simp only [count_tree, width_tree] at hrun
  rw [show toks.length + 1 = toks.length - (kids.count + 1) + 1
    + (kids.count + 1) by omega, hrun, skipLoop]
  simp only [Option.some.injEq, Prod.mk.injEq]
  omega

/-- On the tokens of a forest of values, the skip loop started at the
token of any of its nodes ends just past that node's tree, having
counted its proper descendants, and does so on the array cut there; the
walks of `parse_node_list` and of `jsmn_get_value` come by the children
of the node, one by one and in order. -/
theorem subtree_skipping (inet : Inet) (msg key : List UInt8)
    {f kids : Forest Lab} {toks r : List JsmnTok} {a : Lab} {i : Nat}
    (htoks : toks = tokens f ++ r) (hf : All IsValue f)
    (hi : f.sub i = some (a, kids)) :
    (∀ n, skipLoop (toks.take (i + 1 + kids.count)) (toks.length + 1) 1 i n
        = some (i + 1 + kids.count, n + kids.count))
      ∧ nodeLoop inet msg (toks.drop i) ((toks.drop i).length + 1) 1
          (kids.width + 1)
        = collect (nodeBody inet msg (toks.drop i)) (starts 1 kids)
      ∧ jsmnGetValue msg (toks.drop i) key
        = search (keyBody msg (toks.drop i) key) (evens (starts 1 kids))
      ∧ (KeyValues kids → starts 1 kids
        = (evens (starts 1 kids)).flatMap fun j => [j, j + 1]) := by
  obtain ⟨r', hr⟩ := sub_listing Lab.tok hi
  have hdrop : toks.drop i = tokens (tree a kids) ++ (r' ++ r) := by
    rw [htoks, List.drop_append_of_le_length, ← List.append_assoc]
    · exact congrArg (· ++ r) hr
    · have := congrArg List.length hr
      simp at this ⊢
      omega
  obtain ⟨-, hkids⟩ := hf.sub hi
  -- the children start right behind their token
  have hone : (toks.drop i).drop 1 = tokens kids ++ (r' ++ r) := by
    rw [hdrop]
    simp
  have hlen : kids.width < (toks.drop i).length + 1 := by
    have := width_le_count kids
    rw [hdrop]
    simp
    omega
  refine ⟨skipLoop_cut hdrop, ?_, ?_, ?_⟩
  · rw [Nat.add_comm kids.width 1]
    exact nodeLoop_visits kids hone hlen
  · have h0 : (toks.drop i)[0]? = some (a.tok kids.width) := by
      rw [hdrop]
      simp
    simp only [jsmnGetValue, h0, bind, Option.bind_some, Lab.tok]
    rw [Nat.add_comm kids.width 1]
    exact valueLoop_visits kids hone hkids hlen
  · exact fun hm => starts_members kids hm hkids 1

/-- The tokens of `[{"k":[1]}]`. -/
def nestedForest : Forest Lab :=
  tree ⟨.array, 0, 11⟩ (tree ⟨.object, 1, 10⟩
    (.node ⟨.string, 3, 4⟩ .nil
      (tree ⟨.array, 6, 9⟩ (tree ⟨.primitive, 7, 8⟩ .nil))))

theorem subtree_skipping_nested :
    (∀ n, skipLoop ((tokens nestedForest).take 5) 6 1 1 n = some (5, n + 3))
      ∧ nodeLoop dotted [] ((tokens nestedForest).drop 1) 5 1 3
        = collect (nodeBody dotted [] ((tokens nestedForest).drop 1)) [1, 2]
      ∧ jsmnGetValue [] ((tokens nestedForest).drop 1) [107]
        = search (keyBody [] ((tokens nestedForest).drop 1) [107]) [1] := by
  have h := subtree_skipping dotted [] [107] (f := nestedForest) (r := [])
    (i := 1) (List.append_nil _).symm
    (by simp [nestedForest, tree, All, IsValue]) rfl
  exact ⟨h.1, h.2.1, h.2.2.1⟩

end Psnet.Parse
