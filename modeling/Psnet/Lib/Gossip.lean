/-
Hop-limited flooding with suppression of duplicates.

# The protocol

Nodes listen at addresses; an address may have nobody, or somebody who
passes nothing on. A node that has heard nothing yet passes the first
copy it takes to its destinations, one hop further, unless the copy has
`D` hops already; it may leave out the node it has the copy from. Every
other copy it drops. Copies are taken in any order. A copy carries the
nodes that have passed it on, first to last.

# What a run comes to

A node passes a copy on once at most (`Inv.once`), so that a run is over
after at most as many copies as there are destinations, and one
(`Inv.count`). The path of every copy is a walk from the first node to who
sent it, and shorter than the limit where it is passed on (`Inv.walks`).
When nothing is in flight any more, the first node and all that it reaches
directly have passed it on, and whoever they send to has a copy
(`Inv.next_heard`, `Inv.delivered`); of nodes further away that depends on
which copies come first.
-/
import Mathlib.Algebra.BigOperators.Group.Finset.Basic
import Mathlib.Algebra.Order.BigOperators.Group.Finset
import Mathlib.Data.Fintype.Basic
import Mathlib.Logic.Relation
import Mathlib.Tactic.Common

namespace Gossip

/-- Who listens where, and whom a node sends to. -/
structure Graph (A N : Type*) where
  host : A → Option N
  dests : N → List A

/-- A copy: where it goes, and the nodes that have passed it on. -/
structure Copy (A N : Type*) where
  dst : A
  path : List N
  deriving DecidableEq

/-- The path of the copy a node has passed on, the nodes that have passed
one on, in order, the copies in flight, and those that were taken. -/
structure State (A N : Type*) where
  heard : N → Option (List N)
  passed : List N
  flight : List (Copy A N)
  taken : List (Copy A N)

variable {A N : Type*}

/-- What node `n` sends when it passes `c` on. -/
structure Passes (g : Graph A N) (n : N) (c : Copy A N)
    (new : List (Copy A N)) : Prop where
  copies : ∀ y ∈ new, y.dst ∈ g.dests n ∧ y.path = c.path ++ [n]
  all : ∀ a ∈ g.dests n, (∃ y ∈ new, y.dst = a)
    ∨ ∃ m, g.host a = some m ∧ c.path.getLast? = some m
  few : new.length ≤ (g.dests n).length

variable [DecidableEq N]

/-- A copy is taken. -/
inductive Step (g : Graph A N) (D : Nat) : State A N → State A N → Prop
  | pass {heard passed pre post taken new} {c : Copy A N} {n : N}
      (here : g.host c.dst = some n) (fresh : heard n = none)
      (low : c.path.length < D) (passes : Passes g n c new) :
      Step g D ⟨heard, passed, pre ++ c :: post, taken⟩
        ⟨Function.update heard n (some c.path), passed ++ [n],
          pre ++ post ++ new, taken ++ [c]⟩
  | drop {heard passed pre post taken} {c : Copy A N}
      (stale : ∀ n, g.host c.dst = some n →
        heard n ≠ none ∨ D ≤ c.path.length) :
      Step g D ⟨heard, passed, pre ++ c :: post, taken⟩
        ⟨heard, passed, pre ++ post, taken ++ [c]⟩

/-- The first copy, from outside. -/
def State.init (a : A) : State A N := ⟨fun _ => none, [], [⟨a, []⟩], []⟩

/-- From `src` a copy can come to a node by way of these, each of which
sends to the next. -/
inductive Walk (g : Graph A N) (src : N) : List N → N → Prop
  | here : Walk g src [] src
  | hop {n m : N} {p : List N} {a : A} (walk : Walk g src p n)
      (dest : a ∈ g.dests n) (host : g.host a = some m) :
      Walk g src (p ++ [n]) m

/-- How many copies a node makes, if it has passed one on. -/
def makes (g : Graph A N) (heard : N → Option (List N)) (n : N) : Nat :=
  if (heard n).isSome then (g.dests n).length else 0

/-- A copy comes from outside to the first node, or from a node that has
passed it on. -/
def Sent (g : Graph A N) (src : N) (heard : N → Option (List N))
    (c : Copy A N) : Prop :=
  (c.path = [] ∧ g.host c.dst = some src)
    ∨ ∃ n p, c.path = p ++ [n] ∧ heard n = some p ∧ c.dst ∈ g.dests n

/-- What holds in every state of a run. -/
structure Inv [Fintype N] (g : Graph A N) (D : Nat) (src : N)
    (heard : N → Option (List N)) (passed : List N)
    (flight taken : List (Copy A N)) : Prop where
  walks : ∀ n p, heard n = some p → Walk g src p n ∧ p.length < D
    ∧ ∀ m ∈ p, heard m ≠ none
  sent : ∀ c ∈ flight ++ taken, Sent g src heard c
  covered : ∀ n p, heard n = some p → ∀ a ∈ g.dests n,
    (∃ c ∈ flight ++ taken, c.path = p ++ [n] ∧ c.dst = a)
      ∨ ∃ m, g.host a = some m ∧ heard m ≠ none
  stale : ∀ c ∈ taken, ∀ n, g.host c.dst = some n →
    heard n ≠ none ∨ D ≤ c.path.length
  taker : ∀ n, heard n ≠ none → ∃ c ∈ taken, g.host c.dst = some n
  root : heard src = some []
    ∨ (∀ n, heard n = none) ∧ ∃ a, flight = [⟨a, []⟩]
  once : passed.Nodup ∧ ∀ n, n ∈ passed ↔ heard n ≠ none
  count : flight.length + taken.length ≤ 1 + ∑ n, makes g heard n

/-- After a copy `x` is taken and others are sent for it, there are those
that were there before and the new ones. -/
theorem mem_take {α : Type*} {pre post new taken : List α} {x y : α} :
    y ∈ (pre ++ post ++ new) ++ (taken ++ [x])
      ↔ y ∈ (pre ++ x :: post) ++ taken ∨ y ∈ new := by
  simp only [List.mem_append, List.mem_cons, List.not_mem_nil, or_false]
  tauto

/-- After a copy `x` is taken and nothing is sent for it, there are just
those that were there before. -/
theorem mem_drop {α : Type*} {pre post taken : List α} {x y : α} :
    y ∈ (pre ++ post) ++ (taken ++ [x])
      ↔ y ∈ (pre ++ x :: post) ++ taken := by
  simp only [List.mem_append, List.mem_cons, List.not_mem_nil, or_false]
  tauto

section

variable {g : Graph A N} {D : Nat} {src n : N} {heard : N → Option (List N)}
  {passed : List N} {pre post flight taken new : List (Copy A N)}
  {c : Copy A N}

/-- What is heard stays heard. -/
theorem heard_update {k : List N} (fresh : heard n = none) {m : N}
    {p : List N} (hm : heard m = some p) :
    Function.update heard n (some k) m = some p := by
  rw [Function.update_of_ne, hm]
  intro hmn
  subst hmn
  rw [fresh] at hm
  cases hm

/-- By whomever something is heard, it stays so. -/
theorem heard_update_ne {k : List N} {m : N} (hm : heard m ≠ none) :
    Function.update heard n (some k) m ≠ none := by
  by_cases hmn : m = n
  · subst hmn
    rw [Function.update_self]
    exact Option.some_ne_none k
  · rwa [Function.update_of_ne hmn]

/-- A copy stays sent when another node hears of the message. -/
theorem Sent.update {k : List N} {y : Copy A N} (fresh : heard n = none)
    (h : Sent g src heard y) :
    Sent g src (Function.update heard n (some k)) y := by
  refine h.imp_right fun hsent => ?_
  obtain ⟨m, p, hpath, hp, hdst⟩ := hsent
  exact ⟨m, p, hpath, heard_update fresh hp, hdst⟩

variable [Fintype N]

/-- A node that passes its first copy on makes as many as it has
destinations. -/
theorem sum_makes_update {k : List N} (fresh : heard n = none) :
    ∑ m, makes g (Function.update heard n (some k)) m
      = (g.dests n).length + ∑ m, makes g heard m := by
  have hrest : ∀ m ∈ Finset.univ.erase n,
      makes g (Function.update heard n (some k)) m = makes g heard m := by
    intro m hm
    rw [makes, Function.update_of_ne (Finset.ne_of_mem_erase hm)]
    rfl
  have hself : makes g (Function.update heard n (some k)) n
      = (g.dests n).length := by
    simp [makes]
  have hnone : makes g heard n = 0 := by simp [makes, fresh]
  rw [← Finset.add_sum_erase _ _ (Finset.mem_univ n),
    ← Finset.add_sum_erase _ (makes g heard) (Finset.mem_univ n),
    Finset.sum_congr rfl hrest, hself, hnone, Nat.zero_add]

omit [DecidableEq N] in
/-- The invariant holds of the first copy alone. -/
theorem Inv.init {a : A} (ha : g.host a = some src) :
    Inv g D src (fun _ => none) [] [⟨a, []⟩] [] where
  walks := fun n h hn => by cases hn
  sent := fun c hc => by
    rw [List.append_nil, List.mem_singleton] at hc
    subst hc
    exact Or.inl ⟨rfl, ha⟩
  covered := fun n h hn => by cases hn
  stale := fun c hc => by cases hc
  taker := fun n hn => absurd rfl hn
  root := Or.inr ⟨fun _ => rfl, a, rfl⟩
  once := ⟨List.nodup_nil, fun n =>
    ⟨fun h => absurd h List.not_mem_nil, fun h => absurd rfl h⟩⟩
  count := Nat.le_add_right _ _

omit [DecidableEq N] in
/-- Until the first node has heard something, there is the first copy
only. -/
theorem Inv.first_copy
    (h : Inv g D src heard passed (pre ++ c :: post) taken) :
    heard src = some []
      ∨ heard src = none ∧ g.host c.dst = some src ∧ c.path = [] := by
  refine h.root.imp_right fun hroot => ?_
  obtain ⟨hnone, a, hflight⟩ := hroot
  have hc : c ∈ pre ++ c :: post := by simp
  have hpath : c.path = [] := by
    rw [hflight, List.mem_singleton] at hc
    rw [hc]
  rcases h.sent c (List.mem_append_left _ hc) with
    ⟨-, hsrc⟩ | ⟨m, p, hm, -⟩
  · exact ⟨hnone src, hsrc, hpath⟩
  · rw [hpath] at hm
    exact absurd hm.symm (List.append_ne_nil_of_right_ne_nil p (by simp))

omit [DecidableEq N] in
/-- The path of a copy leads to whoever it is for. -/
theorem Inv.walk_to (h : Inv g D src heard passed flight taken)
    (hc : c ∈ flight ++ taken) (here : g.host c.dst = some n) :
    Walk g src c.path n := by
  rcases h.sent c hc with ⟨hpath, hsrc⟩ | ⟨m, p, hpath, hp, hdst⟩
  · rw [hsrc, Option.some.injEq] at here
    rw [hpath, here]
    exact .here
  · rw [hpath]
    exact .hop (h.walks m p hp).1 hdst here

omit [DecidableEq N] in
/-- Everybody on the path of a copy has heard of the message. -/
theorem Inv.path_heard (h : Inv g D src heard passed flight taken)
    (hc : c ∈ flight ++ taken) : ∀ m ∈ c.path, heard m ≠ none := by
  intro m hm
  rcases h.sent c hc with ⟨hnil, -⟩ | ⟨n, p, hpath, hp, -⟩
  · rw [hnil] at hm
    cases hm
  · rw [hpath] at hm
    rcases List.mem_append.mp hm with hm | hm
    · exact (h.walks n p hp).2.2 m hm
    · rw [List.mem_singleton.mp hm, hp]
      exact Option.some_ne_none p

/-- What a node passes on covers its destinations. -/
theorem Inv.pass_covers
    (h : Inv g D src heard passed (pre ++ c :: post) taken)
    (passes : Passes g n c new) {a : A} (ha : a ∈ g.dests n) :
    (∃ y ∈ (pre ++ post ++ new) ++ (taken ++ [c]),
        y.path = c.path ++ [n] ∧ y.dst = a)
      ∨ ∃ m, g.host a = some m
        ∧ Function.update heard n (some c.path) m ≠ none := by
  rcases passes.all a ha with ⟨y, hy, hdst⟩ | ⟨v, hv, hvia⟩
  · exact Or.inl ⟨y, mem_take.mpr (Or.inr hy), (passes.copies y hy).2, hdst⟩
  · -- the node left out is the one the copy comes from
    right
    rcases h.sent c (by simp) with ⟨hnil, -⟩ | ⟨w, p, hpath, hp, -⟩
    · rw [hnil] at hvia
      cases hvia
    · rw [hpath, List.getLast?_concat, Option.some.injEq] at hvia
      subst hvia
      exact ⟨w, hv, heard_update_ne (hp ▸ Option.some_ne_none p)⟩

/-- A node that passes a copy on keeps the invariant. -/
theorem Inv.pass (h : Inv g D src heard passed (pre ++ c :: post) taken)
    (here : g.host c.dst = some n) (fresh : heard n = none)
    (low : c.path.length < D) (passes : Passes g n c new) :
    Inv g D src (Function.update heard n (some c.path)) (passed ++ [n])
      (pre ++ post ++ new) (taken ++ [c]) := by
  -- for each field: `n` itself, or a node that has heard before
  refine ⟨fun m k hk => ?_, fun y hy => ?_, fun m k hk a ha => ?_,
    fun y hy m hm => ?_, fun m hm => ?_, ?_, ⟨?_, fun m => ?_⟩, ?_⟩
  · by_cases hmn : m = n
    · subst hmn
      rw [Function.update_self, Option.some.injEq] at hk
      subst hk
      exact ⟨h.walk_to (by simp) here, low,
        fun v hv => heard_update_ne (h.path_heard (by simp) v hv)⟩
    · rw [Function.update_of_ne hmn] at hk
      obtain ⟨hwalk, hlow, hheard⟩ := h.walks m k hk
      exact ⟨hwalk, hlow, fun v hv => heard_update_ne (hheard v hv)⟩
  · rcases mem_take.mp hy with hy | hy
    · exact (h.sent y hy).update fresh
    · obtain ⟨hdst, hpath⟩ := passes.copies y hy
      exact Or.inr ⟨n, c.path, hpath, Function.update_self .., hdst⟩
  · by_cases hmn : m = n
    · subst hmn
      rw [Function.update_self, Option.some.injEq] at hk
      subst hk
      exact h.pass_covers passes ha
    · rw [Function.update_of_ne hmn] at hk
      rcases h.covered m k hk a ha with ⟨y, hy, hrest⟩ | ⟨v, hv, hne⟩
      · exact Or.inl ⟨y, mem_take.mpr (Or.inl hy), hrest⟩
      · exact Or.inr ⟨v, hv, heard_update_ne hne⟩
  · rcases List.mem_append.mp hy with hy | hy
    · exact (h.stale y hy m hm).imp_left heard_update_ne
    · obtain rfl := List.mem_singleton.mp hy
      rw [here, Option.some.injEq] at hm
      subst hm
      rw [Function.update_self]
      exact Or.inl (Option.some_ne_none _)
  · by_cases hmn : m = n
    · subst hmn
      exact ⟨c, List.mem_append_right _ (List.mem_singleton_self c), here⟩
    · rw [Function.update_of_ne hmn] at hm
      obtain ⟨y, hy, hhost⟩ := h.taker m hm
      exact ⟨y, List.mem_append_left _ hy, hhost⟩
  · left
    rcases h.first_copy with hroot | ⟨-, hsrc, hpath⟩
    · exact heard_update fresh hroot
    · rw [hsrc, Option.some.injEq] at here
      rw [here, hpath, Function.update_self]
  · -- it had passed nothing on before
    have hnew : n ∉ passed := fun hn => (h.once.2 n).mp hn fresh
    exact List.nodup_append.mpr ⟨h.once.1, List.nodup_singleton n,
      fun a ha b hb hab => hnew (List.mem_singleton.mp hb ▸ hab ▸ ha)⟩
  · rw [List.mem_append, List.mem_singleton, h.once.2]
    by_cases hmn : m = n
    · subst hmn
      rw [Function.update_self]
      exact iff_of_true (Or.inr rfl) (Option.some_ne_none _)
    · rw [Function.update_of_ne hmn]
      exact ⟨fun hm => hm.resolve_right hmn, Or.inl⟩
  · have hcount := h.count
    have hfew := passes.few
    rw [sum_makes_update fresh]
    simp only [List.length_append, List.length_cons, List.length_nil]
      at hcount ⊢
    omega

omit [DecidableEq N] in
/-- So does a copy that is dropped. -/
theorem Inv.drop (hD : 0 < D)
    (h : Inv g D src heard passed (pre ++ c :: post) taken)
    (stale : ∀ n, g.host c.dst = some n →
      heard n ≠ none ∨ D ≤ c.path.length) :
    Inv g D src heard passed (pre ++ post) (taken ++ [c]) := by
  refine ⟨h.walks, fun y hy => h.sent y (mem_drop.mp hy),
    fun n k hk a ha => ?_, fun y hy m hm => ?_, fun m hm => ?_, ?_, h.once, ?_⟩
  · refine (h.covered n k hk a ha).imp_left fun hcopy => ?_
    obtain ⟨y, hy, hrest⟩ := hcopy
    exact ⟨y, mem_drop.mpr hy, hrest⟩
  · rcases List.mem_append.mp hy with hy | hy
    · exact h.stale y hy m hm
    · obtain rfl := List.mem_singleton.mp hy
      exact stale m hm
  · obtain ⟨y, hy, hhost⟩ := h.taker m hm
    exact ⟨y, List.mem_append_left _ hy, hhost⟩
  · rcases h.first_copy with hroot | ⟨hnone, hsrc, hpath⟩
    · exact Or.inl hroot
    · -- the first copy is not dropped
      rcases stale src hsrc with hne | hle
      · exact absurd hnone hne
      · rw [hpath, List.length_nil] at hle
        omega
  · have hcount := h.count
    simp only [List.length_append, List.length_cons, List.length_nil]
      at hcount ⊢
    omega

/-- It holds of every state of a run. -/
theorem Inv.reaches {a : A} {s : State A N} (hD : 0 < D)
    (ha : g.host a = some src)
    (hrun : Relation.ReflTransGen (Step g D) (State.init a) s) :
    Inv g D src s.heard s.passed s.flight s.taken := by
  induction hrun with
  | refl => exact .init ha
  | tail _ hstep ih =>
      cases hstep with
      | pass here fresh low passes => exact ih.pass here fresh low passes
      | drop stale => exact ih.drop hD stale

omit [DecidableEq N] in
/-- The path of a copy is a walk from the first node to who has sent it,
of nodes that have passed it on. -/
theorem Inv.path_walk (h : Inv g D src heard passed flight taken)
    (hc : c ∈ flight ++ taken) {p : List N} (hpath : c.path = p ++ [n]) :
    Walk g src p n ∧ c.dst ∈ g.dests n ∧ ∀ m ∈ c.path, m ∈ passed := by
  rcases h.sent c hc with ⟨hnil, -⟩ | ⟨m, q, hm, hq, hdst⟩
  · rw [hpath] at hnil
    exact absurd hnil (List.append_ne_nil_of_right_ne_nil p (by simp))
  · rw [hpath] at hm
    obtain ⟨rfl, hmn⟩ := List.append_inj' hm rfl
    obtain rfl := List.singleton_inj.mp hmn
    exact ⟨(h.walks n p hq).1, hdst,
      fun v hv => (h.once.2 v).mpr (h.path_heard hc v hv)⟩

-- ================================================================= at the end

omit [DecidableEq N] in
/-- At the end the first node has passed the message on. -/
theorem Inv.first_heard (h : Inv g D src heard passed [] taken) :
    heard src = some [] := by
  rcases h.root with hroot | ⟨-, a, hflight⟩
  · exact hroot
  · cases hflight

omit [DecidableEq N] in
/-- Whoever a node sends to has a copy in the end. -/
theorem Inv.delivered (h : Inv g D src heard passed [] taken) {k : List N}
    (hn : heard n = some k) {a : A} (ha : a ∈ g.dests n) :
    ∃ c ∈ taken, c.dst = a
      ∨ ∃ m, g.host a = some m ∧ g.host c.dst = some m := by
  rcases h.covered n k hn a ha with ⟨c, hc, -, hdst⟩ | ⟨m, hm, hne⟩
  · exact ⟨c, hc, Or.inl hdst⟩
  · obtain ⟨c, hc, hhost⟩ := h.taker m hne
    exact ⟨c, hc, Or.inr ⟨m, hm, hhost⟩⟩

omit [DecidableEq N] in
/-- Every node it sends to has heard of the message, if it is not too far
from the first. -/
theorem Inv.next_heard (h : Inv g D src heard passed [] taken) {m : N}
    {k : List N} (hn : heard n = some k) (hk : k.length + 1 < D) {a : A}
    (ha : a ∈ g.dests n) (hhost : g.host a = some m) :
    ∃ j, heard m = some j := by
  rw [← Option.ne_none_iff_exists']
  rcases h.covered n k hn a ha with ⟨c, hc, hpath, hdst⟩ | ⟨m', hm', hne⟩
  · subst hdst
    rcases h.stale c hc m hhost with hne | hle
    · exact hne
    · rw [hpath, List.length_append, List.length_singleton] at hle
      omega
  · rw [hhost, Option.some.injEq] at hm'
    exact hm' ▸ hne

omit [DecidableEq N] in
/-- There are no more copies than destinations, and one. -/
theorem Inv.copies_le (h : Inv g D src heard passed flight taken) :
    flight.length + taken.length ≤ 1 + ∑ n, (g.dests n).length := by
  have hsum : ∑ n, makes g heard n ≤ ∑ n, (g.dests n).length := by
    apply Finset.sum_le_sum
    intro n _
    unfold makes
    split <;> omega
  exact Nat.le_trans h.count (Nat.add_le_add_left hsum 1)

end

end Gossip
