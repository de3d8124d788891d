/-
The representation invariant, read off the two link structures.

`Rep` names the entries of a table; `WellFormed` only follows pointers.
It asks that the walk from `delta_head` and the walks from the buckets
end without meeting a freed node, and speaks about the nodes they find.
`wellFormed_of_rep` is the translation.

`delta_tail` is the one field `Rep` leaves out. `tailStays` is the
condition on an operation that keeps it live: the node taken off the
list is not the last of several. A run all of whose operations meet it
keeps `Sim` with a tail that is never stale.

# Both directions

`Layout` is what following pointers finds. From `Rep` it is read off
(`wellFormed_of_rep`); the way back is in `DeltaList.Tick`. Observers
that only follow pointers are stated on `WellFormed` alone.
-/
import Psnet.DeltaList.Runs

namespace Psnet.DeltaList

open Linked TimedSet

variable {α : Type} {c : Conf α}

/-- The table with the nodes `as` on its list and `bs` in its buckets is
well formed. -/
structure Layout (c : Conf α) (t : Table α) (as : List Addr)
    (bs : Fin HT_SIZE → List Addr) : Prop where
  list : walk DeltaNode.dlNext t.heap (t.brk + 1) t.deltaHead = some as
  once : as.Nodup
  chains : ∀ i,
    walk DeltaNode.htNext t.heap (t.brk + 1) (t.table i) = some (bs i)
  chainOnce : ∀ i, (bs i).Nodup
  same : ∀ a, a ∈ as ↔ ∃ i, a ∈ bs i
  home : ∀ i, ∀ a ∈ bs i, ∀ n, t.heap a = some n → bucket c n.data = i
  distinct : (as.filterMap t.heap).Pairwise fun m n =>
    c.equals m.data n.data = false
  back : Seg DeltaNode.dlNext DeltaNode.dlPrev t.heap none as none
  tail : as ≠ [] → t.deltaTail = as.getLast?
  size : t.size.toNat = as.length
  sum : ((as.filterMap t.heap).map (·.delta.toNat)).sum = t.delta.toNat
  le : t.delta ≤ c.interval
  head : ∀ a ∈ as.head?, ∀ n, t.heap a = some n → 1 ≤ n.delta
  fresh : ∀ a, t.brk ≤ a → t.heap a = none

/-- The representation invariant of the table. -/
def WellFormed (c : Conf α) (t : Table α) : Prop :=
  ∃ as bs, Layout c t as bs

-- ==================================================== the nodes of a table

/-- The nodes found at the entries hold the entries' elements and
differences. -/
theorem diffs_of_nodes {h : Heap Addr (DeltaNode α)} {es : List (Entry α)}
    (hdata : ∀ e ∈ es, (h e.addr).map (·.data) = some e.data)
    (hdelta : ∀ e ∈ es, (h e.addr).map (·.delta.toNat) = some e.delta) :
    ((addrs es).filterMap h).map (fun n => (n.data, n.delta.toNat))
      = diffs es := by
  induction es with
  | nil => rfl
  | cons e es ih =>
      have hrest := ih (fun f hf => hdata f (List.mem_cons_of_mem _ hf))
        (fun f hf => hdelta f (List.mem_cons_of_mem _ hf))
      obtain ⟨n, hn, hd⟩ := live_of_map (hdata e (List.mem_cons_self ..))
      have hδ := hdelta e (List.mem_cons_self ..)
      rw [hn, Option.map_some, Option.some.injEq] at hδ
      rw [addrs_cons, List.filterMap_cons, hn]
      simp only [List.map_cons, hd, hδ, hrest, diffs_cons]

theorem nodes_of_entries {h : Heap Addr (DeltaNode α)}
    {es : List (Entry α)}
    (hdata : ∀ e ∈ es, (h e.addr).map (·.data) = some e.data)
    (hdelta : ∀ e ∈ es, (h e.addr).map (·.delta.toNat) = some e.delta) :
    ((addrs es).filterMap h).map (·.data) = elems es
      ∧ (((addrs es).filterMap h).map (·.delta.toNat)).sum
        = total (diffs es) := by
  have hd := diffs_of_nodes hdata hdelta
  constructor
  · have := congrArg (List.map Prod.fst) hd
    rw [List.map_map, diffs, List.map_map] at this
    exact this
  · rw [total, ← hd, List.map_map]
    rfl

theorem wellFormed_of_rep {t : Table α} {es : List (Entry α)}
    {bs : Fin HT_SIZE → List Addr} (h : Rep c t es bs) (hpos : HeadPos es)
    (htail : TailLive t es) (hlen : es.length < 2 ^ 32) :
    Layout c t (addrs es) bs := by
  have hfuel : (addrs es).length < t.brk + 1 := by
    simpa [addrs] using Nat.lt_succ_of_le h.length_le
  obtain ⟨hdata, hsum⟩ := nodes_of_entries h.data h.list.delta
  refine
    { list := ?_
      once := h.list.nodup
      chains := fun i => ?_
      chainOnce := h.hash.nodup
      same := fun a => ?_
      home := fun i a ha n hn => ?_
      distinct := ?_
      back := h.list.linked
      tail := fun hne => htail (by simpa [addrs] using hne)
      size := ?_
      sum := hsum.trans h.list.sum.symm
      le := h.list.le
      head := fun a ha n hn => ?_
      fresh := h.fresh }
  · rw [h.list.head]
    exact walk_of_chain h.list.linked.chain hfuel
  · rw [h.hash.heads]
    exact walk_of_chain (h.hash.chains i)
      (Nat.lt_succ_of_le (h.bucket_length_le i))
  · constructor
    · intro ha
      obtain ⟨e, he, rfl⟩ := List.mem_map.mp ha
      exact ⟨_, (h.hash.buckets _ _).mpr ⟨e, he, rfl, rfl⟩⟩
    · intro h
      obtain ⟨i, ha⟩ := h
      obtain ⟨e, he, rfl, -⟩ := (h.hash.buckets i a).mp ha
      exact List.mem_map_of_mem he
  · obtain ⟨e, he, rfl, hi⟩ := (h.hash.buckets i a).mp ha
    have := h.data e he
    rw [hn, Option.map_some, Option.some.injEq] at this
    rw [this, hi]
  · have := h.distinct
    rw [← hdata, List.pairwise_map] at this
    exact this
  · rw [h.size, UInt32.toNat_ofNat_of_lt' hlen, addrs, List.length_map]
  · cases es with
    | nil => cases ha
    | cons e es =>
        cases ha
        have hδ := h.list.delta e (List.mem_cons_self ..)
        rw [hn, Option.map_some, Option.some.injEq] at hδ
        have := hpos e rfl
        rw [UInt32.le_iff_toNat_le, hδ]
        exact this

-- =============================================== the elements of a table

/-- The elements in `delta_foreach` order. -/
def members (t : Table α) : Option (List α) :=
  (walk DeltaNode.dlNext t.heap (t.brk + 1) t.deltaHead).map fun as =>
    (as.filterMap t.heap).map (·.data)

theorem WellFormed.members {t : Table α} (h : WellFormed c t) :
    ∃ xs, members t = some xs := by
  obtain ⟨as, bs, hl⟩ := h
  exact ⟨_, by rw [DeltaList.members, hl.list]; rfl⟩

private theorem foreachLoop_walk {σ : Type} {h : Heap Addr (DeltaNode α)}
    (f : α → σ → σ × Int) :
    ∀ (k : Nat) (s : Option Addr) (as : List Addr) (arg : σ),
      walk DeltaNode.dlNext h k s = some as →
      foreachLoop h f k s arg
        = some (visit f ((as.filterMap h).map (·.data)) arg) := by
  intro k
  induction k with
  | zero => exact fun s as arg hw => nomatch hw
  | succ k ih =>
      intro s as arg hw
      cases s with
      | none =>
          cases hw
          rfl
      | some a =>
          cases hn : h a with
          | none => simp [walk, hn] at hw
          | some n =>
              simp only [walk, hn] at hw
              obtain ⟨l, hl, rfl⟩ := Option.map_eq_some_iff.mp hw
              simp only [foreachLoop, hn, List.filterMap_cons, List.map_cons,
                visit, ih n.dlNext l _ hl]
              split <;> rfl

/-- `delta_foreach` runs its function on the elements, oldest first,
until one call returns a non-zero code. -/
theorem deltaForeach_members {σ : Type} {t : Table α} {xs : List α}
    (h : members t = some xs) (f : α → σ → σ × Int) (arg : σ) :
    deltaForeach t f arg = some (visit f xs arg) := by
  obtain ⟨as, has, rfl⟩ := Option.map_eq_some_iff.mp h
  exact foreachLoop_walk f _ _ as arg has

/-- The first element of a table. -/
theorem members_first (c : Conf α) (x : α) :
    ∃ t, deltaUpdate c Table.empty x = some (0, t) ∧ members t = some [x] := by
  refine ⟨_, rfl, ?_⟩
  simp [members, Table.empty, walk]

/-- A `delta_foreach` that comes to its end has met elements. -/
theorem members_of_foreach {σ : Type} {t : Table α} {f : α → σ → σ × Int}
    (hf : ∀ x s, (f x s).2 = 0) {arg arg' : σ}
    (h : deltaForeach t f arg = some arg') : ∃ xs, members t = some xs := by
  unfold deltaForeach at h
  unfold members
  generalize t.brk + 1 = k at h ⊢
  generalize t.deltaHead = a at h ⊢
  suffices ∃ as, walk DeltaNode.dlNext t.heap k a = some as by
    obtain ⟨as, has⟩ := this
    exact ⟨_, by rw [has]; rfl⟩
  induction k generalizing a arg with
  | zero => cases h
  | succ k ih =>
      cases a with
      | none => exact ⟨[], rfl⟩
      | some a =>
          rw [foreachLoop] at h
          cases hn : t.heap a with
          | none => simp [hn] at h
          | some n =>
              simp only [hn, hf, ne_eq, not_true, ↓reduceIte] at h
              obtain ⟨as, has⟩ := ih _ h
              exact ⟨a :: as, by simp [walk, hn, has]⟩

/-- Two callbacks that agree on when to stop, and keep their arguments
related, end with related arguments, whatever the table. -/
theorem deltaForeach_rel {σ τ : Type} {t : Table α} {f : α → σ → σ × Int}
    {g : α → τ → τ × Int} {R : σ → τ → Prop}
    (hfg : ∀ x s s', R s s' → R (f x s).1 (g x s').1
      ∧ (f x s).2 = (g x s').2) {arg : σ} {arg' : τ} (harg : R arg arg') :
    Option.Rel R (deltaForeach t f arg) (deltaForeach t g arg') := by
  unfold deltaForeach
  generalize t.brk + 1 = k
  generalize t.deltaHead = a
  induction k generalizing a arg arg' with
  | zero => exact .none
  | succ k ih =>
      cases a with
      | none => exact .some harg
      | some a =>
          rw [foreachLoop, foreachLoop]
          cases t.heap a with
          | none => exact .none
          | some n =>
              obtain ⟨hR, hrc⟩ := hfg n.data _ _ harg
              simp only [← hrc]
              split
              · exact .some hR
              · exact ih hR _

-- ===================================================== runs that keep it

/-- The operation does not take the last of several nodes off the
list. -/
def tailStays (c : Conf α) (a : Abs α) : Op α → Bool
  | .update x | .remove x => !isTail c a.set x
  | _ => true

/-- No operation of the history takes the last of several nodes off the
list, and each leaves fewer than `2^32` elements. -/
def keepsOk (c : Conf α) (ops : List (Op α)) : Bool :=
  Machine.allOk (next c) (fun a o => tailStays c a o && sizeOk c a o)
    Abs.init ops

private theorem isTail_of_absent {l : Timed α} {x : α}
    (h : has c.equals l x = false) : isTail c l x = false := by
  unfold isTail
  cases hl : l.getLast? with
  | none => simp
  | some e =>
      have he : c.equals e.1 x = false := by
        simp only [has, List.any_eq_false] at h
        simpa using h e (List.mem_of_getLast? hl)
      simp [he]

/-- While the tail is never taken off, it is never stale, and every
operation links behind a live tail. -/
private theorem tailOk_of_stays {a : Abs α} {o : Op α} (hs : a.stale = false)
    (h : tailStays c a o = true) :
    tailOk c a o = true ∧ (next c a o).stale = false := by
  cases o with
  | insert x =>
      cases hhas : has c.equals a.set x with
      | true => simp [tailOk, next, hhas, hs]
      | false => simp [tailOk, linkOk, next, hhas, hs, isTail_of_absent hhas]
  | update x =>
      simp only [tailStays, Bool.not_eq_true'] at h
      simp [tailOk, linkOk, next, hs, h]
  | remove x =>
      simp only [tailStays, Bool.not_eq_true'] at h
      simp [tailOk, next, hs, h]
  | tick => exact ⟨rfl, hs⟩
  | clear => exact ⟨rfl, hs⟩

theorem keeps_run (hc : Lawful c) {ops : List (Op α)}
    (h : keepsOk c ops = true) :
    ∃ t rs, Machine.run (step c) Table.empty ops = some (t, rs)
      ∧ WellFormed c t ∧ t.wrapped = false := by
  have hstep : ∀ t a o, Sim c t a ∧ a.stale = false →
      (tailStays c a o && sizeOk c a o) = true →
      ∃ t', step c t o = some (t', reply c a.set o)
        ∧ Sim c t' (next c a o) ∧ (next c a o).stale = false := by
    intro t a o h hok
    obtain ⟨hsim, hstale⟩ := h
    rw [Bool.and_eq_true] at hok
    obtain ⟨htail, hstale'⟩ := tailOk_of_stays hstale hok.1
    obtain ⟨t', ht', hsim'⟩ := sim_step hc hsim htail
    exact ⟨t', ht', hsim', hstale'⟩
  obtain ⟨t, ht, ⟨es, bs, hrep, hpos, hset, htail⟩, hstale⟩ :=
    Machine.run_simulates hstep ops Table.empty Abs.init
      ⟨sim_init c, rfl⟩ h
  have hlen := length_foldl_lt ops Abs.init (by simp [Abs.init]) h
  rw [← hset, length_timed] at hlen
  exact ⟨t, _, ht, ⟨_, _, wellFormed_of_rep hrep hpos (htail hstale) hlen⟩,
    hrep.noWrap⟩

/-- As long as the last of several nodes is never refreshed or removed
and the counter does not overflow, every state of the run is well
formed, and no subtraction has wrapped. -/
theorem delta_list_well_formed (hc : Lawful c) {ops : List (Op α)}
    (h : keepsOk c ops = true) :
    ∀ pre, pre <+: ops →
      ∃ t rs, Machine.run (step c) Table.empty pre = some (t, rs)
        ∧ WellFormed c t ∧ t.wrapped = false := by
  intro pre h
  obtain ⟨post, rfl⟩ := h
  apply keeps_run hc
  rw [keepsOk, Machine.allOk_append, Bool.and_eq_true] at h
  exact h.1

theorem delta_list_well_formed_mixed :
    ∃ t rs, Machine.run (step numbers) Table.empty
        [.update 1, .insert 11, .tick, .update 1, .remove 11, .insert 2,
          .clear, .insert 3] = some (t, rs)
      ∧ WellFormed numbers t ∧ t.wrapped = false :=
  delta_list_well_formed numbers_lawful (by decide) _ (List.prefix_refl _)

/-- After refreshing the newest of two elements the buckets hold two
nodes and the list one. -/
theorem update_last_not_well_formed :
    Lawful numbers
      ∧ ∃ t rs, Machine.run (step numbers) Table.empty
          [.update 1, .update 2, .update 2] = some (t, rs)
        ∧ ¬ WellFormed numbers t := by
  refine ⟨numbers_lawful, ?_⟩
  have hrun : (Machine.run (step numbers) Table.empty
      [.update 1, .update 2, .update 2]).map
        (fun p => ((walk DeltaNode.dlNext p.1.heap (p.1.brk + 1)
          p.1.deltaHead).map List.length, p.1.size.toNat))
      = some (some 1, 2) := by decide
  obtain ⟨⟨t, rs⟩, ht, hp⟩ := Option.map_eq_some_iff.mp hrun
  refine ⟨t, rs, ht, ?_⟩
  intro h
  obtain ⟨as, bs, hl⟩ := h
  simp only [Prod.mk.injEq, hl.list, Option.map_some, Option.some.injEq,
    hl.size] at hp
  omega

end Psnet.DeltaList
