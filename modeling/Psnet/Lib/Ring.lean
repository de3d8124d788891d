/-
Circular doubly linked lists in a heap, as the list the nodes after the
head spell.

`Ring next prev h head as` says that following `next` from `head` meets
the nodes `as` and comes back, that `prev` inverts every one of these
links, and that no node occurs twice. An operation is stated by the
links it writes: `Ring.snoc`, `Ring.tail` and `Ring.rehead` need only
the new links and that the others are kept, so they fit any order of
stores.
-/
import Psnet.Lib.Linked
import Mathlib.Data.List.Chain
import Mathlib.Data.List.Nodup

namespace Linked

variable {A N : Type*}

/-- `y` follows `x`, and `x` precedes `y`. -/
def Link (next prev : N → A) (h : Heap A N) (x y : A) : Prop :=
  (h x).map next = some y ∧ (h y).map prev = some x

/-- The nodes `as` follow `head` in a circle, each once. -/
structure Ring (next prev : N → A) (h : Heap A N) (head : A)
    (as : List A) : Prop where
  links : List.IsChain (Link next prev h) (head :: (as ++ [head]))
  nodup : (head :: as).Nodup

/-- The addresses met by following `next` from `s` up to `head`, given
fuel; `none` when the walk meets a freed node or does not end. -/
def cycle [DecidableEq A] (next : N → A) (h : Heap A N) (head : A) :
    Nat → A → Option (List A)
  | 0, _ => none
  | k + 1, a =>
      if a = head then some []
      else match h a with
        | none => none
        | some n => (cycle next h head k (next n)).map (a :: ·)

variable {next prev : N → A} {h h' : Heap A N} {head : A} {as : List A}

-- ============================================================ reading a ring

/-- The first link of a ring, and the last. -/
theorem Ring.ends (hr : Ring next prev h head as) :
    (h head).map next = some (as.head?.getD head)
      ∧ (h head).map prev = some (as.getLast?.getD head) := by
  obtain ⟨hl, -⟩ := hr
  constructor
  · cases as with
    | nil => exact (List.isChain_pair.mp hl).1
    | cons a as => exact (List.isChain_cons_cons.mp hl).1.1
  · rcases List.eq_nil_or_concat as with rfl | ⟨l, a, rfl⟩
    · exact (List.isChain_pair.mp hl).2
    · rw [List.concat_eq_append, List.append_assoc, ← List.cons_append,
        List.singleton_append, List.isChain_split] at hl
      simpa using (List.isChain_pair.mp hl.2).2

/-- The links of the first node. -/
theorem Ring.first {x : A} (hr : Ring next prev h head (x :: as)) :
    (h x).map next = some (as.head?.getD head)
      ∧ (h x).map prev = some head := by
  have hl := List.isChain_cons_cons.mp hr.links
  refine ⟨?_, hl.1.2⟩
  cases as with
  | nil => exact (List.isChain_pair.mp hl.2).1
  | cons a as => exact (List.isChain_cons_cons.mp hl.2).1.1

/-- Every node of a linked path but the last is live. -/
theorem links_isSome {z : A} {l : List A}
    (hl : List.IsChain (Link next prev h) (l ++ [z])) {a : A}
    (ha : a ∈ l) : (h a).isSome := by
  obtain ⟨l₁, l₂, rfl⟩ := List.append_of_mem ha
  rw [List.append_assoc, List.cons_append, List.isChain_split] at hl
  obtain ⟨b, m, hm⟩ : ∃ b m, l₂ ++ [z] = b :: m := by
    cases l₂ with
    | nil => exact ⟨z, [], rfl⟩
    | cons b l => exact ⟨b, _, rfl⟩
  rw [hm, List.isChain_cons_cons] at hl
  rw [← Option.isSome_map (f := next), hl.2.1.1]
  rfl

theorem Ring.isSome (hr : Ring next prev h head as) {a : A}
    (ha : a ∈ head :: as) : (h a).isSome :=
  links_isSome (l := head :: as) hr.links ha

/-- The walk along a path of live nodes that ends at `head`. -/
theorem cycle_of_links [DecidableEq A] {l : List A} {a : A}
    (hl : List.IsChain (Link next prev h) (a :: (l ++ [head])))
    (hne : ∀ b ∈ l, b ≠ head) {n : N} (hn : h a = some n) :
    ∀ {k : Nat}, l.length < k → cycle next h head k (next n) = some l := by
  induction l generalizing a n with
  | nil =>
      intro k hk
      obtain ⟨k, rfl⟩ : ∃ j, k = j + 1 := ⟨k - 1, by simp at hk; omega⟩
      have := (List.isChain_pair.mp hl).1
      rw [hn, Option.map_some, Option.some.injEq] at this
      rw [this, cycle, if_pos rfl]
  | cons b l ih =>
      intro k hk
      obtain ⟨k, rfl⟩ : ∃ j, k = j + 1 := ⟨k - 1, by simp at hk; omega⟩
      rw [List.cons_append, List.isChain_cons_cons] at hl
      obtain ⟨⟨hnext, -⟩, hrest⟩ := hl
      rw [hn, Option.map_some, Option.some.injEq] at hnext
      obtain ⟨m, hm⟩ := Option.isSome_iff_exists.mp
        (links_isSome (l := b :: l) hrest (List.mem_cons_self ..))
      have := ih hrest (fun d hd => hne d (List.mem_cons_of_mem _ hd)) hm
        (k := k) (by simp at hk; omega)
      rw [hnext, cycle, if_neg (hne b (List.mem_cons_self ..)), hm]
      simp only [this, Option.map_some]

/-- The walk around a ring meets its nodes in order. -/
theorem Ring.cycle_eq [DecidableEq A] (hr : Ring next prev h head as)
    {n : N} (hn : h head = some n) {k : Nat} (hk : as.length < k) :
    cycle next h head k (next n) = some as := by
  refine cycle_of_links hr.links (fun b hb hbh => ?_) hn hk
  exact (List.nodup_cons.mp hr.nodup).1 (hbh ▸ hb)

-- ============================================================ writing a ring

/-- A path owes its links to the `next` of all nodes but the last and
the `prev` of all but the first. -/
theorem links_congr {l : List A}
    (hl : List.IsChain (Link next prev h) l)
    (hnext : ∀ a ∈ l.dropLast, (h' a).map next = (h a).map next)
    (hprev : ∀ a ∈ l.tail, (h' a).map prev = (h a).map prev) :
    List.IsChain (Link next prev h') l := by
  induction l with
  | nil => exact List.isChain_nil
  | cons a l ih =>
      cases l with
      | nil => exact List.isChain_singleton a
      | cons b l =>
          rw [List.isChain_cons_cons] at hl ⊢
          refine ⟨⟨?_, ?_⟩, ih hl.2 (fun d hd => hnext d ?_)
            (fun d hd => hprev d ?_)⟩
          · rw [hnext a (by simp), hl.1.1]
          · rw [hprev b (by simp), hl.1.2]
          · rw [List.dropLast_cons_cons]
            exact List.mem_cons_of_mem _ hd
          · exact List.mem_of_mem_tail hd

theorem Ring.congr (hr : Ring next prev h head as)
    (heq : ∀ a ∈ head :: as, h' a = h a) : Ring next prev h' head as := by
  refine ⟨links_congr hr.links (fun a ha => ?_) (fun a ha => ?_), hr.nodup⟩
  · rw [← List.cons_append, List.dropLast_concat] at ha
    rw [heq a ha]
  · rw [List.tail_cons] at ha
    rw [heq a (by simpa [or_comm] using ha)]

/-- A head linked to itself. -/
theorem Ring.nil {n : N} (hn : h head = some n) (hnext : next n = head)
    (hprev : prev n = head) : Ring next prev h head [] :=
  ⟨List.isChain_pair.mpr ⟨by simp [hn, hnext], by simp [hn, hprev]⟩,
    List.nodup_singleton head⟩

/-- A path of all nodes of a ring, closed by the link from the last to
the head. -/
theorem ring_iff_last (l : List A) (z : A) (hz : head :: as = l ++ [z]) :
    List.IsChain (Link next prev h) (head :: (as ++ [head]))
      ↔ List.IsChain (Link next prev h) (head :: as)
        ∧ Link next prev h z head := by
  rw [← List.cons_append, hz, List.append_assoc, List.singleton_append,
    List.isChain_split, List.isChain_pair]

/-- Linking `x` between the last node and the head. -/
theorem Ring.snoc {x : A} (hr : Ring next prev h head as)
    (hx : x ∉ head :: as)
    (hxn : (h' x).map next = some head)
    (hxp : (h' x).map prev = some (as.getLast?.getD head))
    (hlast : (h' (as.getLast?.getD head)).map next = some x)
    (hhead : (h' head).map prev = some x)
    (hnext : ∀ a ∈ head :: as, a ≠ as.getLast?.getD head →
      (h' a).map next = (h a).map next)
    (hprev : ∀ a ∈ as, (h' a).map prev = (h a).map prev) :
    Ring next prev h' head (as ++ [x]) := by
  obtain ⟨l, hl⟩ : ∃ l, head :: as = l ++ [as.getLast?.getD head] := by
    rcases List.eq_nil_or_concat as with rfl | ⟨l, z, rfl⟩
    · exact ⟨[], rfl⟩
    · exact ⟨head :: l, by simp⟩
  have hnd := hr.nodup
  constructor
  · have hold := ((ring_iff_last l _ hl).mp hr.links).1
    rw [ring_iff_last (head :: as) x (by simp), ← List.cons_append]
    refine ⟨?_, hxn, hhead⟩
    have hpath : List.IsChain (Link next prev h') (head :: as) := by
      refine links_congr hold (fun a ha => hnext a ?_ ?_) hprev
      · exact List.mem_of_mem_dropLast ha
      · rw [hl, List.dropLast_concat] at ha
        rw [hl, List.nodup_append] at hnd
        exact hnd.2.2 a ha _ (List.mem_singleton_self _)
    rw [hl] at hpath ⊢
    rw [List.append_assoc, List.singleton_append, List.isChain_split]
    exact ⟨hpath, List.isChain_pair.mpr ⟨hlast, hxp⟩⟩
  · rw [← List.cons_append]
    exact List.nodup_append.mpr ⟨hnd, List.nodup_singleton x, by
      intro a ha b hb heq
      subst heq
      rw [List.mem_singleton] at hb
      exact hx (hb ▸ ha)⟩

/-- Unlinking the first node. -/
theorem Ring.tail {x : A} (hr : Ring next prev h head (x :: as))
    (hhead : (h' head).map next = some (as.head?.getD head))
    (hfirst : (h' (as.head?.getD head)).map prev = some head)
    (hnext : ∀ a ∈ as, (h' a).map next = (h a).map next)
    (hprev : ∀ a ∈ head :: as, a ≠ as.head?.getD head →
      (h' a).map prev = (h a).map prev) :
    Ring next prev h' head as := by
  obtain ⟨hl, hnd⟩ := hr
  have hnd' : (head :: as).Nodup := by
    simp only [List.nodup_cons, List.mem_cons, not_or] at hnd ⊢
    exact ⟨hnd.1.2, hnd.2.2⟩
  refine ⟨?_, hnd'⟩
  rw [List.cons_append, List.isChain_cons_cons] at hl
  obtain ⟨-, hl⟩ := hl
  cases as with
  | nil => exact List.isChain_pair.mpr ⟨hhead, hfirst⟩
  | cons y as =>
      rw [List.cons_append, List.isChain_cons_cons] at hl
      rw [List.cons_append, List.isChain_cons_cons]
      refine ⟨⟨hhead, hfirst⟩, links_congr hl.2 ?_ ?_⟩
      · intro a ha
        rw [← List.cons_append, List.dropLast_concat] at ha
        exact hnext a ha
      · intro a ha
        rw [List.tail_cons, List.mem_append, List.mem_singleton] at ha
        simp only [List.nodup_cons, List.mem_cons, not_or] at hnd'
        refine hprev a ?_ ?_
        · rcases ha with ha | rfl
          · simp [ha]
          · simp
        intro heq
        subst heq
        rcases ha with ha | ha
        · exact hnd'.2.1 ha
        · exact hnd'.1.1 ha.symm

/-- Putting a new head in the place of the old one. -/
theorem Ring.rehead {head' : A} (hr : Ring next prev h head as)
    (hne : as ≠ []) (hx : head' ∉ as)
    (hhn : (h' head').map next = as.head?)
    (hhp : (h' head').map prev = as.getLast?)
    (hfirst : ∀ a ∈ as.head?, (h' a).map prev = some head')
    (hlast : ∀ a ∈ as.getLast?, (h' a).map next = some head')
    (hnext : ∀ a ∈ as, as.getLast? ≠ some a →
      (h' a).map next = (h a).map next)
    (hprev : ∀ a ∈ as, as.head? ≠ some a →
      (h' a).map prev = (h a).map prev) :
    Ring next prev h' head' as := by
  obtain ⟨l, z, rfl⟩ := (List.eq_nil_or_concat as).resolve_left hne
  rw [List.concat_eq_append] at *
  have hnd := (List.nodup_cons.mp hr.nodup).2
  refine ⟨?_, List.nodup_cons.mpr ⟨hx, hnd⟩⟩
  have hold := ((ring_iff_last (head :: l) z (by simp)).mp hr.links).1
  rw [List.isChain_cons] at hold
  -- between the elements nothing is written
  have hpath : List.IsChain (Link next prev h') (l ++ [z]) := by
    refine links_congr hold.2 (fun a ha => hnext a ?_ ?_)
      (fun a ha => hprev a ?_ ?_)
    · exact List.mem_of_mem_dropLast ha
    · rw [List.dropLast_concat] at ha
      rw [List.getLast?_concat]
      intro h
      cases h
      rw [List.nodup_append] at hnd
      exact hnd.2.2 z ha z (List.mem_singleton_self z) rfl
    · exact List.mem_of_mem_tail ha
    · cases hlz : l ++ [z] with
      | nil => simp at hlz
      | cons b m =>
          rw [hlz] at ha hnd
          intro h
          cases h
          exact (List.nodup_cons.mp hnd).1 ha
  rw [ring_iff_last (head' :: l) z (by simp), List.isChain_cons]
  refine ⟨⟨fun b hb => ⟨?_, hfirst b hb⟩, hpath⟩, hlast z (by simp), ?_⟩
  · rw [hhn]
    exact hb
  · rw [hhp, List.getLast?_concat]

/-- Putting the nodes of a ring behind those of another. -/
theorem Ring.splice {body : A} {bs : List A} {y z : A}
    (ha : Ring next prev h head as) (hb : Ring next prev h body bs)
    (hy : bs.head? = some y) (hz : bs.getLast? = some z)
    (hoff : ∀ a ∈ head :: as, a ∉ bs)
    (hfirst : (h' y).map prev = some (as.getLast?.getD head))
    (hlast : (h' (as.getLast?.getD head)).map next = some y)
    (hend : (h' z).map next = some head)
    (hhead : (h' head).map prev = some z)
    (hnext : ∀ a ∈ head :: (as ++ bs), a ≠ as.getLast?.getD head → a ≠ z →
      (h' a).map next = (h a).map next)
    (hprev : ∀ a ∈ as ++ bs, a ≠ y → (h' a).map prev = (h a).map prev) :
    Ring next prev h' head (as ++ bs) := by
  -- both lists with their last elements apart, where the links change
  obtain ⟨l, hl⟩ : ∃ l, head :: as = l ++ [as.getLast?.getD head] := by
    rcases List.eq_nil_or_concat as with rfl | ⟨l, x, rfl⟩
    · exact ⟨[], rfl⟩
    · exact ⟨head :: l, by simp⟩
  obtain ⟨m, hm⟩ : ∃ m, bs = m ++ [z] :=
    List.getLast?_eq_some_iff.mp hz
  obtain ⟨t, rfl⟩ : ∃ t, bs = y :: t := List.head?_eq_some_iff.mp hy
  have hnda := ha.nodup
  have hndb := (List.nodup_cons.mp hb.nodup).2
  have hlastmem : as.getLast?.getD head ∈ head :: as := by
    rw [hl]
    exact List.mem_append_right _ (List.mem_singleton_self _)
  have hdisj : ∀ a ∈ head :: as, ∀ b ∈ y :: t, a ≠ b := by
    intro a ha' b hb' heq
    subst heq
    exact hoff a ha' hb'
  refine ⟨?_, ?_⟩
  · have holda := ((ring_iff_last l _ hl).mp ha.links).1
    have holdb := ((ring_iff_last (body :: m) z (by rw [hm]; rfl)).mp
      hb.links).1
    rw [List.isChain_cons_cons] at holdb
    -- inside either list the links are the old ones
    have hpatha : List.IsChain (Link next prev h') (head :: as) := by
      refine links_congr holda (fun a hmem => ?_) (fun a hmem => ?_)
      · have hmem' := List.mem_of_mem_dropLast hmem
        refine hnext a ?_ ?_ ?_
        · rw [← List.cons_append]
          exact List.mem_append_left _ hmem'
        · rw [hl, List.dropLast_concat] at hmem
          rw [hl, List.nodup_append] at hnda
          exact hnda.2.2 a hmem _ (List.mem_singleton_self _)
        · exact hdisj a hmem' z (hm ▸ by simp)
      · exact hprev a (List.mem_append_left _ hmem)
          (hdisj a (List.mem_cons_of_mem _ hmem) y (List.mem_cons_self ..))
    have hpathb : List.IsChain (Link next prev h') (y :: t) := by
      refine links_congr holdb.2 (fun a hmem => ?_) (fun a hmem => ?_)
      · have hmem' := List.mem_of_mem_dropLast hmem
        refine hnext a ?_ ?_ ?_
        · exact List.mem_cons_of_mem _ (List.mem_append_right _ hmem')
        · exact (hdisj _ hlastmem a hmem').symm
        · rw [hm, List.dropLast_concat] at hmem
          rw [hm, List.nodup_append] at hndb
          exact hndb.2.2 a hmem z (List.mem_singleton_self z)
      · refine hprev a (List.mem_append_right _
          (List.mem_cons_of_mem _ hmem)) ?_
        intro heq
        subst heq
        exact (List.nodup_cons.mp hndb).1 hmem
    -- and the four links written join them
    rw [ring_iff_last (head :: (as ++ m)) z (by rw [hm]; simp),
      ← List.cons_append]
    refine ⟨?_, hend, hhead⟩
    rw [hl] at hpatha ⊢
    rw [List.append_assoc, List.singleton_append, List.isChain_split]
    refine ⟨hpatha, List.isChain_cons_cons.mpr ⟨⟨hlast, hfirst⟩, hpathb⟩⟩
  · rw [← List.cons_append]
    exact List.nodup_append.mpr ⟨hnda, hndb, hdisj⟩

end Linked
