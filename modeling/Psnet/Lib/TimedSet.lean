/-
Timed sets: elements that expire a fixed number of ticks after their
last refresh.

# The set

A timed set is the list of its elements with the ticks each has left,
in order of last refresh. Elements are compared by a Boolean `eq` that
is only an equivalence, so a refresh of a present element keeps the
copy that is stored. `apply` is one operation and `run` a history from
the empty set.

`present_iff` reads membership off the history alone: an element is in
the set exactly when some refresh of it lies fewer than `iv` ticks back
with no removal since. Its two halves are the step lemma `left_apply_of`
(what is left survives an operation that does not remove it) and the
step lemmas `left_*` read backwards.

# The difference coding

`sums` turns a list of differences into ticks left: each element's
count is the sum of the differences up to it. Decrementing the first
difference is a tick, adding an element's difference to its successor's
erases it (`sums_erase`), and the elements a tick drops are the leading
zeros (`filter_sums`).
-/
import Mathlib.Algebra.GroupWithZero.Nat
import Mathlib.Tactic.Common
import Mathlib.Data.List.Basic
import Mathlib.Data.List.Induction
import Mathlib.Order.Defs.Unbundled

namespace TimedSet

/-- An operation on a timed set. -/
inductive Op (α : Type*)
  | insert (x : α)
  | update (x : α)
  | remove (x : α)
  | tick
  | clear
  deriving DecidableEq, Repr

/-- Elements with the ticks they have left, oldest refresh first. -/
abbrev Timed (α : Type*) := List (α × Nat)

section Operations

variable {α : Type*} (eq : α → α → Bool) (iv : Nat)

/-- Some element of the set equals `x`. -/
def has (l : Timed α) (x : α) : Bool := l.any fun e => eq e.1 x

/-- The stored element that equals `x`. -/
def stored (l : Timed α) (x : α) : Option α :=
  (l.find? fun e => eq e.1 x).map Prod.fst

/-- The set without `x`. -/
def erase (l : Timed α) (x : α) : Timed α := l.filter fun e => !eq e.1 x

/-- `x` put last with all its ticks; a stored copy of it is kept. -/
def refresh (l : Timed α) (x : α) : Timed α :=
  erase eq l x ++ [((stored eq l x).getD x, iv)]

/-- Every count lowered by one. -/
def lower (l : Timed α) : Timed α := l.map fun e => (e.1, e.2 - 1)

/-- One tick: the elements whose count reaches zero are dropped. -/
def tick (l : Timed α) : Timed α := (lower l).filter fun e => e.2 ≠ 0

/-- The elements a tick drops. -/
def expired (l : Timed α) : List α :=
  ((lower l).filter fun e => e.2 = 0).map Prod.fst

/-- One operation. An insertion of a present element does nothing. -/
def apply (l : Timed α) : Op α → Timed α
  | .insert x => if has eq l x then l else l ++ [(x, iv)]
  | .update x => refresh eq iv l x
  | .remove x => erase eq l x
  | .tick => tick l
  | .clear => []

/-- The set after a history. -/
def run (ops : List (Op α)) : Timed α := ops.foldl (apply eq iv) []

@[simp] theorem run_nil : run eq iv [] = [] := rfl

/-- The last operation is applied to what the others left. -/
theorem run_snoc (ops : List (Op α)) (o : Op α) :
    run eq iv (ops ++ [o]) = apply eq iv (run eq iv ops) o := by
  simp [run, List.foldl_append]

/-- `x` has `k` ticks left in the set. -/
def Left (l : Timed α) (x : α) (k : Nat) : Prop :=
  ∃ y, (y, k) ∈ l ∧ eq y x = true

/-- An element is there while it has some time left. -/
theorem has_iff {l : Timed α} {x : α} :
    has eq l x = true ↔ ∃ k, Left eq l x k := by
  simp only [has, List.any_eq_true, Left]
  constructor
  · intro h
    obtain ⟨⟨y, k⟩, hmem, heq⟩ := h
    exact ⟨k, y, hmem, heq⟩
  · intro h
    obtain ⟨k, y, hmem, heq⟩ := h
    exact ⟨(y, k), hmem, heq⟩

/-- There is nothing to take out for an absent element. -/
theorem erase_absent {l : Timed α} {x : α} (h : has eq l x = false) :
    erase eq l x = l := by
  rw [has, List.any_eq_false] at h
  exact List.filter_eq_self.mpr fun e he => by simp [h e he]

/-- No element is stored for an absent one. -/
theorem stored_absent {l : Timed α} {x : α} (h : has eq l x = false) :
    stored eq l x = none := by
  rw [has, List.any_eq_false] at h
  rw [stored, List.find?_eq_none.mpr h, Option.map_none]

/-- `o` refreshes `x` when it comes after the history `pre`. -/
def Refreshes (pre : List (Op α)) (o : Op α) (x : α) : Prop :=
  match o with
  | .update y => eq y x = true
  | .insert y => eq y x = true ∧ has eq (run eq iv pre) y = false
  | _ => False

/-- `o` takes `x` out of the set. -/
def Removes (o : Op α) (x : α) : Prop :=
  match o with
  | .remove y => eq y x = true
  | .clear => True
  | _ => False

/-- The ticks an operation lets pass. -/
def Op.cost : Op α → Nat
  | .tick => 1
  | _ => 0

/-- The number of ticks in a history. -/
def ticks (ops : List (Op α)) : Nat := (ops.map Op.cost).sum

/-- The ticks of a run are those of its operations. -/
theorem ticks_snoc (ops : List (Op α)) (o : Op α) :
    ticks (ops ++ [o]) = ticks ops + o.cost := by
  simp [ticks]

end Operations

section History

variable {α : Type*} {eq : α → α → Bool} {iv : Nat}
variable (heq : Equivalence fun a b => eq a b = true)

include heq

/-- Two equal elements are equal to the same elements. -/
theorem eq_congr {x y z : α} (h : eq x y = true) : eq z x = eq z y := by
  have h1 : eq z x = true → eq z y = true := fun hz => heq.trans hz h
  have h2 : eq z y = true → eq z x = true := fun hz =>
    heq.trans hz (heq.symm h)
  cases hx : eq z x <;> cases hy : eq z y <;> simp_all

/-- It does not matter which of two elements is compared to the other. -/
theorem eq_comm' (x y : α) : eq x y = eq y x := by
  cases hx : eq x y <;> cases hy : eq y x
  · rfl
  · exact absurd (heq.symm hy) (by simp [hx])
  · exact absurd (heq.symm hx) (by simp [hy])
  · rfl

/-- Two equal elements have the same elements equal to them. -/
theorem eq_congr_left {x y z : α} (h : eq x y = true) :
    eq x z = eq y z := by
  rw [eq_comm' heq x z, eq_comm' heq y z, eq_congr heq h]

-- ============================================ what one operation leaves

/-- Erasing one element leaves the others their time. -/
theorem left_erase {l : Timed α} {x y : α} {k : Nat} :
    Left eq (erase eq l y) x k ↔ eq y x = false ∧ Left eq l x k := by
  unfold Left erase
  constructor
  · intro h
    obtain ⟨z, hz, hzx⟩ := h
    obtain ⟨hmem, hne⟩ := List.mem_filter.mp hz
    refine ⟨?_, z, hmem, hzx⟩
    rw [eq_comm' heq, ← eq_congr_left heq hzx]
    simpa using hne
  · intro h
    obtain ⟨hne, z, hmem, hzx⟩ := h
    refine ⟨z, List.mem_filter.mpr ⟨hmem, ?_⟩, hzx⟩
    rw [eq_congr_left heq hzx, eq_comm' heq, hne]
    rfl

omit heq in
/-- An insertion gives a new element the whole interval, and changes nothing
for one that is there. -/
theorem left_insert {l : Timed α} {x y : α} {k : Nat} :
    Left eq (apply eq iv l (.insert y)) x k
      ↔ Left eq l x k ∨ (has eq l y = false ∧ eq y x = true ∧ k = iv) := by
  simp only [apply]
  cases hy : has eq l y with
  | true => simp
  | false =>
      simp only [Bool.false_eq_true, ↓reduceIte, Left, List.mem_append,
        List.mem_singleton, Prod.mk.injEq]
      constructor
      · intro h
        obtain ⟨z, hz | ⟨rfl, rfl⟩, hzx⟩ := h
        · exact Or.inl ⟨z, hz, hzx⟩
        · exact Or.inr ⟨trivial, hzx, rfl⟩
      · rintro (⟨z, hz, hzx⟩ | ⟨-, hyx, rfl⟩)
        · exact ⟨z, Or.inl hz, hzx⟩
        · exact ⟨y, Or.inr ⟨rfl, rfl⟩, hyx⟩

/-- What `refresh` puts last equals the element asked for. -/
theorem stored_getD_eq (l : Timed α) (x : α) :
    eq ((stored eq l x).getD x) x = true := by
  unfold stored
  cases hf : l.find? fun e => eq e.1 x with
  | none => exact heq.refl x
  | some e => simpa using List.find?_some hf

/-- An update gives its element the whole interval in any case. -/
theorem left_update {l : Timed α} {x y : α} {k : Nat} :
    Left eq (apply eq iv l (.update y)) x k
      ↔ (eq y x = true ∧ k = iv) ∨ (eq y x = false ∧ Left eq l x k) := by
  have hy := stored_getD_eq heq l y
  simp only [apply, refresh]
  rw [← left_erase heq]
  simp only [Left, List.mem_append, List.mem_singleton, Prod.mk.injEq]
  constructor
  · intro h
    obtain ⟨z, hz | ⟨rfl, rfl⟩, hzx⟩ := h
    · exact Or.inr ⟨z, hz, hzx⟩
    · rw [eq_congr_left heq hy] at hzx
      exact Or.inl ⟨hzx, rfl⟩
  · rintro (⟨hyx, rfl⟩ | ⟨z, hz, hzx⟩)
    · exact ⟨_, Or.inr ⟨rfl, rfl⟩, by rw [eq_congr_left heq hy, hyx]⟩
    · exact ⟨z, Or.inl hz, hzx⟩

omit heq in
/-- A tick takes one from every time, and no element stays at zero. -/
theorem left_tick {l : Timed α} {x : α} {k : Nat} :
    Left eq (tick l) x k ↔ 0 < k ∧ Left eq l x (k + 1) := by
  simp only [Left, tick, lower, List.mem_filter, List.mem_map,
    decide_eq_true_eq, Prod.mk.injEq, Prod.exists]
  constructor
  · intro h
    obtain ⟨y, ⟨⟨z, j, hz, rfl, rfl⟩, hne⟩, hyx⟩ := h
    refine ⟨by omega, z, ?_, hyx⟩
    rwa [show j - 1 + 1 = j by omega]
  · intro h
    obtain ⟨hk, y, hy, hyx⟩ := h
    exact ⟨y, ⟨⟨y, k + 1, hy, rfl, rfl⟩, by omega⟩, hyx⟩

-- ===================================================== what always holds

/-- A well-formed timed set: no two elements are equal, and every count
is between one and the interval. -/
structure Ok (eq : α → α → Bool) (iv : Nat) (l : Timed α) : Prop where
  distinct : l.Pairwise fun a b => eq a.1 b.1 = false
  bound : ∀ e ∈ l, 0 < e.2 ∧ e.2 ≤ iv

omit heq in
/-- Fewer elements are still distinct and within the interval. -/
theorem ok_filter {l : Timed α} (p : α × Nat → Bool) (h : Ok eq iv l) :
    Ok eq iv (l.filter p) :=
  ⟨h.distinct.filter p, fun e he => h.bound e (List.mem_filter.mp he).1⟩

omit heq in
/-- Putting an absent element last. -/
theorem ok_append {l : Timed α} {x : α} (hiv : 0 < iv)
    (h : Ok eq iv l) (hx : ∀ e ∈ l, eq e.1 x = false) :
    Ok eq iv (l ++ [(x, iv)]) := by
  refine ⟨List.pairwise_append.mpr ⟨h.distinct, by simp, ?_⟩, ?_⟩
  · intro a ha b hb
    rw [List.mem_singleton.mp hb]
    exact hx a ha
  · intro e he
    rcases List.mem_append.mp he with he | he
    · exact h.bound e he
    · rw [List.mem_singleton.mp he]
      exact ⟨hiv, Nat.le_refl _⟩

omit heq in
/-- A tick keeps the times positive, and the elements apart. -/
theorem ok_tick {l : Timed α} (h : Ok eq iv l) : Ok eq iv (tick l) := by
  constructor
  · apply List.Pairwise.filter
    unfold lower
    rw [List.pairwise_map]
    exact h.distinct
  · intro e he
    simp only [tick, lower, List.mem_filter, List.mem_map,
      decide_eq_true_eq] at he
    obtain ⟨⟨f, hf, rfl⟩, hne⟩ := he
    have := h.bound f hf
    simp only at hne ⊢
    omega

/-- Every operation keeps the times positive, and the elements apart. -/
theorem ok_apply {l : Timed α} (hiv : 0 < iv) (h : Ok eq iv l)
    (o : Op α) : Ok eq iv (apply eq iv l o) := by
  cases o with
  | insert x =>
      simp only [apply]
      split
      · exact h
      · next hx =>
          apply ok_append hiv h
          intro e he
          simp only [has, List.any_eq_true, not_exists, not_and] at hx
          simpa using hx e he
  | update x =>
      apply ok_append hiv (ok_filter _ h)
      intro e he
      obtain ⟨-, hne⟩ := List.mem_filter.mp he
      rw [eq_congr heq (heq.symm (stored_getD_eq heq l x))] at hne
      simpa using hne
  | remove x => exact ok_filter _ h
  | tick => exact ok_tick h
  | clear => exact ⟨List.Pairwise.nil, by simp [apply]⟩

/-- Every history leaves a well-formed set. -/
theorem ok_run (hiv : 0 < iv) (ops : List (Op α)) :
    Ok eq iv (run eq iv ops) := by
  induction ops using List.reverseRecOn with
  | nil => exact ⟨List.Pairwise.nil, by simp⟩
  | append_singleton ops o ih =>
      rw [run_snoc]
      exact ok_apply heq hiv ih o

/-- Whatever is there has some of the interval left, and never more. -/
theorem left_bound {ops : List (Op α)} {x : α} {k : Nat} (hiv : 0 < iv)
    (h : Left eq (run eq iv ops) x k) : 0 < k ∧ k ≤ iv := by
  obtain ⟨y, hy, -⟩ := h
  exact (ok_run heq hiv ops).bound _ hy

-- ============================================= membership as a history

/-- An operation that does not remove an element lowers its count by at
most the tick it may be. -/
theorem left_apply_of {l : Timed α} {o : Op α} {x : α} {k : Nat}
    (hle : k ≤ iv) (h : Left eq l x k) (hnr : ¬ Removes eq o x)
    (hk : o.cost < k) :
    ∃ j, Left eq (apply eq iv l o) x j
      ∧ k ≤ j + o.cost := by
  cases o with
  | insert y => exact ⟨k, left_insert.mpr (Or.inl h), by simp⟩
  | update y =>
      cases hyx : eq y x with
      | true => exact ⟨iv, (left_update heq).mpr (Or.inl ⟨hyx, rfl⟩), by simpa⟩
      | false => exact ⟨k, (left_update heq).mpr (Or.inr ⟨hyx, h⟩), by simp⟩
  | remove y =>
      have hyx : eq y x = false := by simpa [Removes] using hnr
      exact ⟨k, (left_erase heq).mpr ⟨hyx, h⟩, by simp⟩
  | tick =>
      simp only [Op.cost] at hk
      refine ⟨k - 1, left_tick.mpr ⟨by omega, ?_⟩, by simp only [Op.cost]; omega⟩
      rwa [show k - 1 + 1 = k by omega]
  | clear => exact absurd trivial hnr

/-- An element with `k` ticks left was refreshed `iv - k` ticks ago and
not removed since. -/
theorem refreshed_of_left {ops : List (Op α)} {x : α} {k : Nat}
    (h : Left eq (run eq iv ops) x k) :
    ∃ pre o post, ops = pre ++ o :: post ∧ Refreshes eq iv pre o x
      ∧ (∀ p ∈ post, ¬ Removes eq p x) ∧ ticks post + k = iv := by
  induction ops using List.reverseRecOn generalizing k with
  | nil => obtain ⟨y, hy, -⟩ := h; cases hy
  | append_singleton ops o ih =>
      rw [run_snoc] at h
      -- either `o` is the refresh, or the earlier one still counts
      have hcases : (Refreshes eq iv ops o x ∧ k = iv)
          ∨ (¬ Removes eq o x ∧ Left eq (run eq iv ops) x
              (k + o.cost)) := by
        cases o with
        | insert y =>
            rcases left_insert.mp h with h | ⟨hno, hyx, rfl⟩
            · exact Or.inr ⟨id, h⟩
            · exact Or.inl ⟨⟨hyx, hno⟩, rfl⟩
        | update y =>
            rcases (left_update heq).mp h with ⟨hyx, rfl⟩ | ⟨-, h⟩
            · exact Or.inl ⟨hyx, rfl⟩
            · exact Or.inr ⟨id, h⟩
        | remove y =>
            obtain ⟨hyx, h⟩ := (left_erase heq).mp h
            exact Or.inr ⟨by simp [Removes, hyx], h⟩
        | tick => exact Or.inr ⟨id, (left_tick.mp h).2⟩
        | clear => obtain ⟨y, hy, -⟩ := h; cases hy
      rcases hcases with ⟨href, rfl⟩ | ⟨hnr, hleft⟩
      · exact ⟨ops, o, [], rfl, href, by simp, by simp [ticks]⟩
      · obtain ⟨pre, q, post, rfl, href, hpost, hcount⟩ := ih hleft
        refine ⟨pre, q, post ++ [o], by simp, href, ?_, ?_⟩
        · intro p hp
          rcases List.mem_append.mp hp with hp | hp
          · exact hpost p hp
          · rw [List.mem_singleton.mp hp]
            exact hnr
        · rw [ticks_snoc]
          omega

/-- A refresh keeps an element in the set for as long as fewer than
`iv` ticks pass and nothing removes it. -/
theorem left_of_refreshed {pre post : List (Op α)} {o : Op α} {x : α}
    (hiv : 0 < iv) (href : Refreshes eq iv pre o x)
    (hpost : ∀ p ∈ post, ¬ Removes eq p x) (hticks : ticks post < iv) :
    ∃ k, Left eq (run eq iv (pre ++ o :: post)) x k
      ∧ iv ≤ ticks post + k := by
  induction post using List.reverseRecOn with
  | nil =>
      rw [run_snoc]
      refine ⟨iv, ?_, by omega⟩
      cases o with
      | insert y =>
          exact left_insert.mpr (Or.inr ⟨href.2, href.1, rfl⟩)
      | update y => exact (left_update heq).mpr (Or.inl ⟨href, rfl⟩)
      | remove y => exact href.elim
      | tick => exact href.elim
      | clear => exact href.elim
  | append_singleton post p ih =>
      rw [ticks_snoc] at hticks
      obtain ⟨k, hleft, hk⟩ := ih
        (fun q hq => hpost q (List.mem_append_left _ hq)) (by omega)
      obtain ⟨j, hj, hjk⟩ := left_apply_of heq (left_bound heq hiv hleft).2 hleft
        (hpost p (by simp)) (by omega)
      refine ⟨j, ?_, by rw [ticks_snoc]; omega⟩
      rw [show pre ++ o :: (post ++ [p]) = (pre ++ o :: post) ++ [p] by simp,
        run_snoc]
      exact hj

/-- An element is in the set exactly when it was refreshed fewer than
`iv` ticks ago and not removed since. -/
theorem present_iff {ops : List (Op α)} {x : α} (hiv : 0 < iv) :
    has eq (run eq iv ops) x = true
      ↔ ∃ pre o post, ops = pre ++ o :: post ∧ Refreshes eq iv pre o x
          ∧ (∀ p ∈ post, ¬ Removes eq p x) ∧ ticks post < iv := by
  rw [has_iff]
  constructor
  · intro h
    obtain ⟨k, h⟩ := h
    have hk := (left_bound heq hiv h).1
    obtain ⟨pre, o, post, rfl, href, hpost, hc⟩ := refreshed_of_left heq h
    exact ⟨pre, o, post, rfl, href, hpost, by omega⟩
  · intro h
    obtain ⟨pre, o, post, rfl, href, hpost, hticks⟩ := h
    obtain ⟨k, hk, -⟩ := left_of_refreshed heq hiv href hpost hticks
    exact ⟨k, hk⟩

end History

-- ================================================= the difference coding

section Differences

variable {α : Type*}

/-- The counts coded by a list of differences, from the running sum
`s` on. -/
def sums : Nat → List (α × Nat) → Timed α
  | _, [] => []
  | s, (x, d) :: l => (x, s + d) :: sums (s + d) l

/-- The sum of all differences. -/
def total (l : List (α × Nat)) : Nat := (l.map Prod.snd).sum

@[simp] theorem total_nil : total ([] : List (α × Nat)) = 0 := rfl

@[simp] theorem total_cons (e : α × Nat) (l : List (α × Nat)) :
    total (e :: l) = e.2 + total l := by
  simp [total]

@[simp] theorem total_append (l₁ l₂ : List (α × Nat)) :
    total (l₁ ++ l₂) = total l₁ + total l₂ := by
  simp [total]

/-- The sums of a second part start from the total of the first. -/
theorem sums_append (s : Nat) (l₁ l₂ : List (α × Nat)) :
    sums s (l₁ ++ l₂) = sums s l₁ ++ sums (s + total l₁) l₂ := by
  induction l₁ generalizing s with
  | nil => simp [sums]
  | cons e l ih =>
      simp only [List.cons_append, sums, ih, total_cons]
      rw [Nat.add_assoc]

/-- Summing up moves no element. -/
theorem map_fst_sums (s : Nat) (l : List (α × Nat)) :
    (sums s l).map Prod.fst = l.map Prod.fst := by
  induction l generalizing s with
  | nil => rfl
  | cons e l ih => simp [sums, ih]

/-- An element's difference goes to its successor when it is erased. -/
def pass (d : Nat) : List (α × Nat) → List (α × Nat)
  | [] => []
  | (y, d') :: l => (y, d' + d) :: l

/-- A difference passed on to the first is one to start from. -/
theorem sums_pass (s d : Nat) (l : List (α × Nat)) :
    sums s (pass d l) = sums (s + d) l := by
  cases l with
  | nil => rfl
  | cons e l =>
      simp only [pass, sums]
      rw [show s + (e.2 + d) = s + d + e.2 by omega]

/-- A sum is no less than what it started from, and is an element's. -/
theorem mem_sums {s : Nat} {l : List (α × Nat)} {e : α × Nat}
    (he : e ∈ sums s l) : s ≤ e.2 ∧ ∃ d, (e.1, d) ∈ l := by
  induction l generalizing s with
  | nil => cases he
  | cons f l ih =>
      rcases List.mem_cons.mp he with rfl | he
      · exact ⟨Nat.le_add_right _ _, f.2, List.mem_cons_self ..⟩
      · obtain ⟨hle, d, hd⟩ := ih he
        exact ⟨by omega, d, List.mem_cons_of_mem _ hd⟩

/-- Erasing an element that is not there. -/
theorem erase_sums_of_absent {eq : α → α → Bool} {x : α} {s : Nat}
    {l : List (α × Nat)} (h : ∀ e ∈ l, eq e.1 x = false) :
    erase eq (sums s l) x = sums s l := by
  apply List.filter_eq_self.mpr
  intro e he
  obtain ⟨-, d, hd⟩ := mem_sums he
  rw [h _ hd]
  rfl

/-- Erasing an element from the differences erases it from the counts. -/
theorem sums_erase {eq : α → α → Bool} {x y : α} {d s : Nat}
    {l₁ l₂ : List (α × Nat)} (hy : eq y x = true)
    (h₁ : ∀ e ∈ l₁, eq e.1 x = false) (h₂ : ∀ e ∈ l₂, eq e.1 x = false) :
    sums s (l₁ ++ pass d l₂)
      = erase eq (sums s (l₁ ++ (y, d) :: l₂)) x := by
  rw [sums_append, sums_append, sums_pass, sums]
  unfold erase
  rw [List.filter_append, List.filter_cons_of_neg (by simp [hy])]
  have e1 : erase eq (sums s l₁) x = sums s l₁ := erase_sums_of_absent h₁
  have e2 : erase eq (sums (s + total l₁ + d) l₂) x
      = sums (s + total l₁ + d) l₂ := erase_sums_of_absent h₂
  unfold erase at e1 e2
  rw [e1, e2]

/-- Starting the running sum one lower is a tick. -/
theorem lower_sums (s : Nat) (l : List (α × Nat)) :
    lower (sums (s + 1) l) = sums s l := by
  induction l generalizing s with
  | nil => rfl
  | cons e l ih =>
      have := ih (s + e.2)
      simp only [lower, sums, List.map_cons] at this ⊢
      rw [show s + 1 + e.2 = s + e.2 + 1 by omega, this,
        Nat.add_sub_cancel]

/-- The counts that are zero are the leading zero differences. -/
theorem filter_sums (l : List (α × Nat)) :
    (sums 0 l).filter (fun e => e.2 ≠ 0)
      = sums 0 (l.dropWhile fun e => e.2 = 0) := by
  induction l with
  | nil => rfl
  | cons e l ih =>
      by_cases he : e.2 = 0
      · rw [List.dropWhile_cons_of_pos (by simpa using he), ← ih, sums,
          List.filter_cons_of_neg (by simpa using he), he]
      · rw [List.dropWhile_cons_of_neg (by simpa using he)]
        apply List.filter_eq_self.mpr
        intro f hf
        rcases List.mem_cons.mp hf with rfl | hf
        · simpa using he
        · have := (mem_sums hf).1
          simp only [Nat.zero_add, ne_eq, decide_eq_true_eq] at this ⊢
          omega

/-- What those zeros are. -/
theorem filter_zero_sums (l : List (α × Nat)) :
    ((sums 0 l).filter fun e => e.2 = 0).map Prod.fst
      = (l.takeWhile fun e => e.2 = 0).map Prod.fst := by
  induction l with
  | nil => rfl
  | cons e l ih =>
      by_cases he : e.2 = 0
      · rw [List.takeWhile_cons_of_pos (by simpa using he), sums,
          List.filter_cons_of_pos (by simpa using he), he]
        simpa using ih
      · rw [List.takeWhile_cons_of_neg (by simpa using he), List.map_nil,
          List.map_eq_nil_iff]
        apply List.filter_eq_nil_iff.mpr
        intro f hf
        rcases List.mem_cons.mp hf with rfl | hf
        · simpa using he
        · have := (mem_sums hf).1
          simp only [Nat.zero_add, decide_eq_true_eq] at this ⊢
          omega

end Differences

section Keys

variable {α β : Type*} [DecidableEq β] (key : α → β)

/-- Elements with the same key. -/
def keyEq (x y : α) : Bool := decide (key x = key y)

/-- The operation on the keys. -/
def Op.onKeys : Op α → Op β
  | .insert x => .insert (key x)
  | .update x => .update (key x)
  | .remove x => .remove (key x)
  | .tick => .tick
  | .clear => .clear

/-- The set of the keys. -/
def keys (l : Timed α) : Timed β := l.map (Prod.map key id)

/-- Having the same key is an equivalence, as `eq` must be. -/
theorem keyEq_equivalence : Equivalence fun x y => keyEq key x y = true where
  refl x := by simp [keyEq]
  symm h := by
    simp only [keyEq, decide_eq_true_eq] at h ⊢
    exact h.symm
  trans h h' := by
    simp only [keyEq, decide_eq_true_eq] at h h' ⊢
    exact h.trans h'

variable (l : Timed α) (x : α)

/-- An element is there exactly when its key is. -/
@[simp] theorem has_keys :
    has (keyEq id) (keys key l) (key x) = has (keyEq key) l x := by
  simp only [has, keys, List.any_map]
  rfl

/-- Erasing an element is erasing its key. -/
@[simp] theorem erase_keys :
    erase (keyEq id) (keys key l) (key x) = keys key (erase (keyEq key) l x) := by
  simp only [erase, keys, List.filter_map]
  rfl

/-- Whichever copy is kept, its key is the key. -/
theorem key_stored : key ((stored (keyEq key) l x).getD x) = key x := by
  cases hst : stored (keyEq key) l x with
  | none => rfl
  | some y =>
      obtain ⟨e, he, rfl⟩ := Option.map_eq_some_iff.mp hst
      simpa [keyEq] using List.find?_some he

/-- Refreshing an element is refreshing its key. -/
theorem refresh_keys (iv : Nat) :
    refresh (keyEq id) iv (keys key l) (key x)
      = keys key (refresh (keyEq key) iv l x) := by
  have hl := key_stored key l x
  have hk := key_stored id (keys key l) (key x)
  rw [id, id] at hk
  rw [refresh, refresh, erase_keys, hk, keys, keys, List.map_append,
    List.map_cons, Prod.map, hl]
  rfl

omit [DecidableEq β] in
/-- A tick of the elements is a tick of their keys. -/
theorem tick_keys : tick (keys key l) = keys key (tick l) := by
  simp only [tick, lower, keys, List.map_map, List.filter_map]
  rfl

/-- The keys of a timed set are a timed set. -/
theorem apply_keys (iv : Nat) (o : Op α) :
    apply (keyEq id) iv (keys key l) (o.onKeys key)
      = keys key (apply (keyEq key) iv l o) := by
  cases o with
  | insert x =>
      simp only [Op.onKeys, apply, has_keys]
      split
      · rfl
      · simp [keys]
  | update x => exact refresh_keys key l x iv
  | remove x => exact erase_keys key l x
  | tick => exact tick_keys key l
  | clear => rfl

end Keys

end TimedSet
