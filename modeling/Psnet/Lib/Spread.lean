/-
Spreading with a bounded fan-out and a bounded depth.

A pool holds items, each of some generation. Using one up makes at most
`F` items of the next generation, and none at all from generation `D`
on. Whatever the order of the uses, one item of generation zero leads to
at most `F + F ^ 2 + ... + F ^ D` others (`Inv.made_le`): an item is
charged with what it may still lead to, and no use raises the sum.
-/
import Mathlib.Tactic.Common
import Mathlib.Tactic.Ring
import Mathlib.Logic.Relation

namespace Spread

variable {M : Type*}

/-- Items in a pool, how many were made so far and how many used. -/
structure Pool (M : Type*) where
  items : List M
  made : Nat
  used : Nat

/-- One item is used up, and makes the items `new`. -/
inductive Step (gen : M → Nat) (F D : Nat) : Pool M → Pool M → Prop
  | use {made used : Nat} {pre post new : List M} {x : M}
      (few : new.length ≤ F) (next : ∀ y ∈ new, gen y = gen x + 1)
      (deep : new ≠ [] → gen x < D) :
      Step gen F D ⟨pre ++ x :: post, made, used⟩
        ⟨pre ++ post ++ new, made + new.length, used + 1⟩

/-- What an item with `k` generations to go leads to at most. -/
def budget (F : Nat) : Nat → Nat
  | 0 => 0
  | k + 1 => F * (1 + budget F k)

variable {gen : M → Nat} {F D : Nat}

/-- What the items of a list lead to at most. -/
def charge (gen : M → Nat) (F D : Nat) (l : List M) : Nat :=
  (l.map fun x => budget F (D - gen x)).sum

@[simp] theorem charge_append (l₁ l₂ : List M) :
    charge gen F D (l₁ ++ l₂) = charge gen F D l₁ + charge gen F D l₂ := by
  simp [charge]

@[simp] theorem charge_cons (x : M) (l : List M) :
    charge gen F D (x :: l)
      = budget F (D - gen x) + charge gen F D l := by
  simp [charge]

/-- Items of one generation. -/
theorem charge_gen {l : List M} {n : Nat} (h : ∀ y ∈ l, gen y = n) :
    charge gen F D l = l.length * budget F (D - n) := by
  induction l with
  | nil => simp [charge]
  | cons y l ih =>
      rw [charge_cons, h y (List.mem_cons_self ..),
        ih fun z hz => h z (List.mem_cons_of_mem _ hz), List.length_cons]
      ring

/-- What holds of every pool reached: the items made and still to come
stay within the budget, no item is too deep, and none is lost count
of. -/
structure Inv (gen : M → Nat) (F D : Nat) (p : Pool M) : Prop where
  charged : p.made + charge gen F D p.items ≤ budget F D
  depth : ∀ x ∈ p.items, gen x ≤ D
  count : p.used + p.items.length = 1 + p.made

theorem Inv.init {x : M} (h : gen x = 0) :
    Inv gen F D ⟨[x], 0, 0⟩ where
  charged := by simp [charge, h]
  depth y hy := by simp [List.mem_singleton.mp hy, h]
  count := rfl

/-- What a use takes from the charge pays for what it makes. -/
theorem Inv.step {p q : Pool M} (h : Inv gen F D p)
    (hstep : Step gen F D p q) : Inv gen F D q := by
  obtain ⟨hcharged, hdepth, hcount⟩ := h
  cases hstep with
  | @use made used pre post new x few next deep =>
      have hpay : new.length + charge gen F D new
          ≤ budget F (D - gen x) := by
        rw [charge_gen next]
        by_cases hnew : new = []
        · simp [hnew]
        · have hlt := deep hnew
          rw [show D - gen x = (D - (gen x + 1)) + 1 by omega, budget]
          calc new.length + new.length * budget F (D - (gen x + 1))
              = new.length * (1 + budget F (D - (gen x + 1))) := by ring
            _ ≤ F * (1 + budget F (D - (gen x + 1))) :=
                Nat.mul_le_mul_right _ few
      refine ⟨?_, fun y hy => ?_, ?_⟩
      · simp only [charge_append, charge_cons] at hcharged ⊢
        omega
      · rcases List.mem_append.mp hy with hy | hy
        · refine hdepth y (List.mem_append.mpr ?_)
          exact (List.mem_append.mp hy).imp_right (List.mem_cons_of_mem _)
        · have hlt := deep (List.ne_nil_of_mem hy)
          rw [next y hy]
          exact hlt
      · simp only [List.length_append, List.length_cons] at hcount ⊢
        omega

/-- No more than the budget is ever made. -/
theorem Inv.made_le {p : Pool M} (h : Inv gen F D p) :
    p.made ≤ budget F D :=
  Nat.le_trans (Nat.le_add_right _ _) h.charged

end Spread
