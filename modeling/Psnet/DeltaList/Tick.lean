/-
One tick, from any well-formed table.

`Layout` only follows pointers; reading the nodes along the list gives
back the entries `Rep` asks for (`rep_of_layout`), so what is known of
`delta_tick` on a represented table holds of every well-formed one. The
`wrapped` flag decides nothing (`deltaTick_mark`), and is taken to be
clear on the way.

`remaining` reads off a table its elements with the sums of the
differences up to them: the ticks each has left.

# What a tick calls

A tick calls `act` and then `free` for each element whose time is over,
oldest first, and for nobody else (`expireCalls`). That the loop stops is
part of the statement: its fuel is the number of nodes ever allocated.
-/
import Psnet.DeltaList.Invariant

namespace Psnet.DeltaList

open Linked TimedSet

variable {α : Type} {c : Conf α}

-- ============================================================ the entries

/-- The entries found at the nodes `as`. -/
def entriesAt (h : Heap Addr (DeltaNode α)) (as : List Addr) :
    List (Entry α) :=
  as.filterMap fun a => (h a).map fun n => ⟨a, n.data, n.delta.toNat⟩

/-- Where every node is live, each has its entry. -/
theorem entriesAt_spec {h : Heap Addr (DeltaNode α)} {as : List Addr}
    (hlive : ∀ a ∈ as, (h a).isSome) :
    addrs (entriesAt h as) = as
      ∧ ∀ e ∈ entriesAt h as, (h e.addr).map (·.data) = some e.data
        ∧ (h e.addr).map (·.delta.toNat) = some e.delta := by
  induction as with
  | nil => exact ⟨rfl, by simp [entriesAt]⟩
  | cons a as ih =>
      obtain ⟨n, hn⟩ := Option.isSome_iff_exists.mp
        (hlive a (List.mem_cons_self ..))
      obtain ⟨haddr, hat⟩ := ih fun b hb => hlive b (List.mem_cons_of_mem _ hb)
      have hcons : entriesAt h (a :: as)
          = ⟨a, n.data, n.delta.toNat⟩ :: entriesAt h as := by
        simp [entriesAt, hn]
      rw [hcons]
      refine ⟨by rw [addrs_cons, haddr], fun e he => ?_⟩
      rcases List.mem_cons.mp he with rfl | he
      · exact ⟨by simp [hn], by simp [hn]⟩
      · exact hat e he

/-- A well-formed table in which no subtraction has wrapped holds the
entries found at its nodes. -/
theorem rep_of_layout {t : Table α} {as : List Addr}
    {bs : Fin HT_SIZE → List Addr} (h : Layout c t as bs)
    (hw : t.wrapped = false) :
    Rep c t (entriesAt t.heap as) bs ∧ HeadPos (entriesAt t.heap as)
      ∧ TailLive t (entriesAt t.heap as) := by
  obtain ⟨hchain, hhead⟩ := chain_of_walk h.list
  -- the entries are read off the nodes the list walks through
  obtain ⟨haddr, hat⟩ := entriesAt_spec (h := t.heap)
    fun a ha => hchain.isSome ha
  obtain ⟨hdata, hsum⟩ := nodes_of_entries (fun e he => (hat e he).1)
    fun e he => (hat e he).2
  rw [haddr] at hdata hsum
  have hmem : ∀ a, a ∈ as ↔ ∃ e ∈ entriesAt t.heap as, e.addr = a := by
    intro a
    conv_lhs => rw [← haddr]
    exact List.mem_map
  have hlen : (entriesAt t.heap as).length = as.length := by
    conv_rhs => rw [← haddr]
    exact (List.length_map _).symm
  refine ⟨⟨⟨?_, ?_, ?_, fun e he => (hat e he).2, ?_, h.le⟩,
    ⟨fun i => (chain_of_walk (h.chains i)).1,
      fun i => (chain_of_walk (h.chains i)).2, h.chainOnce, ?_⟩,
    fun e he => (hat e he).1, ?_, ?_, h.fresh, hw⟩, ?_, ?_⟩
  · rw [haddr]
    exact h.back
  · rw [haddr, hhead]
  · rw [haddr]
    exact h.once
  · rw [← hsum, h.sum]
  · -- a node is in the bucket of its element and in no other
    intro i a
    constructor
    · intro ha
      obtain ⟨e, he, rfl⟩ := (hmem a).mp ((h.same a).mpr ⟨i, ha⟩)
      obtain ⟨n, hn, hd⟩ := live_of_map (hat e he).1
      exact ⟨e, he, rfl, by rw [← hd]; exact h.home i _ ha n hn⟩
    · intro h
      obtain ⟨e, he, rfl, hi⟩ := h
      obtain ⟨j, hj⟩ := (h.same _).mp ((hmem _).mpr ⟨e, he, rfl⟩)
      obtain ⟨n, hn, hd⟩ := live_of_map (hat e he).1
      have hij : j = i := by
        rw [← hi, ← hd]
        exact (h.home j _ hj n hn).symm
      rw [← hij]
      exact hj
  · rw [← hdata, List.pairwise_map]
    exact h.distinct
  · rw [hlen, ← h.size, UInt32.ofNat_toNat]
  · intro e he
    have hmemE : e ∈ entriesAt t.heap as := List.mem_of_head? he
    obtain ⟨n, hn, hd⟩ := live_of_map (hat e hmemE).2
    have hfirst : e.addr ∈ as.head? := by
      rw [← haddr, addrs, List.head?_map, he]
      rfl
    rw [← hd]
    exact UInt32.le_iff_toNat_le.mp (h.head _ hfirst n hn)
  · intro hne
    rw [haddr]
    apply h.tail
    intro heq
    subst heq
    exact hne rfl

-- ============================================================= the flag

/-- The table with its flag raised when `w` is. -/
def Table.mark (w : Bool) (t : Table α) : Table α :=
  { t with wrapped := t.wrapped || w }

@[simp] theorem Table.noteSub_mark (w : Bool) (t : Table α) (a b : UInt32) :
    (t.mark w).noteSub a b = (t.noteSub a b).mark w := by
  simp [Table.mark, Table.noteSub, Bool.or_right_comm]

@[simp] theorem Table.write_mark (w : Bool) (t : Table α) (a : Addr)
    (f : DeltaNode α → DeltaNode α) :
    (t.mark w).write a f = (t.write a f).map (Table.mark w) := by
  unfold Table.write
  cases h : t.heap a with
  | none => simp [Table.mark, h]
  | some n => simp [Table.mark, h]

private theorem hashUnlink_mark (w : Bool) (t : Table α) (x : α)
    (prev : Option Addr) (n : DeltaNode α) :
    hashUnlink c (t.mark w) x prev n
      = (hashUnlink c t x prev n).map (Table.mark w) := by
  cases prev with
  | none => rfl
  | some p => exact Table.write_mark ..

private theorem dlRemoveNode_mark (w : Bool) (t : Table α) (a : Addr) :
    dlRemoveNode (t.mark w) a = (dlRemoveNode t a).map (Table.mark w) := by
  have hnext : ∀ n : DeltaNode α, unlinkNext (t.mark w) n
      = (unlinkNext t n).map (Table.mark w) := by
    intro n
    unfold unlinkNext
    cases n.dlNext with
    | none =>
        simp only [Table.noteSub_mark, Option.map_some]
        rfl
    | some b => exact Table.write_mark ..
  have hprev : ∀ (t : Table α) (n : DeltaNode α), unlinkPrev (t.mark w) n
      = (unlinkPrev t n).map (Table.mark w) := by
    intro t n
    unfold unlinkPrev
    cases n.dlPrev with
    | none => rfl
    | some p => exact Table.write_mark ..
  simp only [dlRemoveNode, Option.bind_eq_bind, hnext]
  rw [show (t.mark w).heap a = t.heap a from rfl]
  cases t.heap a with
  | none => rfl
  | some n =>
      simp only [Option.bind_some]
      cases unlinkNext t n with
      | none => rfl
      | some t₁ =>
          simp only [Option.map_some, Option.bind_some]
          rw [show (t₁.mark w).heap a = t₁.heap a from rfl]
          cases t₁.heap a with
          | none => rfl
          | some n => exact hprev t₁ n

private theorem deltaDelete_mark (w : Bool) (t : Table α) (x : α) :
    deltaDelete c (t.mark w) x = (deltaDelete c t x).map
      fun (rc, t, calls) => (rc, t.mark w, calls) := by
  simp only [deltaDelete, Option.bind_eq_bind]
  rw [show getNode c (t.mark w) x = getNode c t x from rfl]
  cases getNode c t x with
  | none => rfl
  | some r =>
      obtain ⟨node, prev⟩ := r
      cases node with
      | none => rfl
      | some a =>
          simp only [Option.bind_some, hashUnlink_mark]
          rw [show (t.mark w).heap a = t.heap a from rfl]
          cases t.heap a with
          | none => rfl
          | some n =>
              simp only [Option.bind_some]
              cases hashUnlink c t x prev n with
              | none => rfl
              | some t₁ =>
                  simp only [Option.map_some, Option.bind_some,
                    dlRemoveNode_mark]
                  cases dlRemoveNode t₁ a with
                  | none => rfl
                  | some t₂ =>
                      simp only [Option.map_some, Option.bind_some]
                      rw [show ({ t₂.mark w with
                        size := (t₂.mark w).size - 1 } : Table α).heap a
                          = t₂.heap a from rfl]
                      cases t₂.heap a with
                      | none => rfl
                      | some n => rfl

private theorem expireLoop_mark (w : Bool) (k : Nat) (t : Table α) :
    expireLoop c k (t.mark w) = (expireLoop c k t).map
      fun (t, calls) => (t.mark w, calls) := by
  induction k generalizing t with
  | zero => rfl
  | succ k ih =>
      rw [expireLoop, expireLoop,
        show (t.mark w).deltaHead = t.deltaHead from rfl]
      cases t.deltaHead with
      | none => rfl
      | some a =>
          simp only [Option.bind_eq_bind]
          rw [show (t.mark w).heap a = t.heap a from rfl]
          cases t.heap a with
          | none => rfl
          | some n =>
              simp only [Option.bind_some, deltaDelete_mark]
              split
              · rfl
              · cases deltaDelete c t n.data with
                | none => rfl
                | some r =>
                    simp only [Option.map_some, Option.bind_some, ih]
                    cases expireLoop c k r.2.1 with
                    | none => rfl
                    | some r => rfl

/-- A tick does the same whether the flag is up or not. -/
theorem deltaTick_mark (w : Bool) (t : Table α) :
    deltaTick c (t.mark w) = (deltaTick c t).map
      fun (t, calls) => (t.mark w, calls) := by
  unfold deltaTick
  rw [show (t.mark w).deltaHead = t.deltaHead from rfl]
  cases t.deltaHead with
  | none => rfl
  | some a =>
      -- what is left once the sum is lowered
      have hrest : ∀ u : Table α,
          ((u.heap a).bind fun n =>
            (((u.mark w).noteSub n.delta 1).write a fun n =>
              { n with delta := n.delta - 1 }).bind fun t =>
                expireLoop c (t.brk + 1) t)
          = ((u.heap a).bind fun n =>
            ((u.noteSub n.delta 1).write a fun n =>
              { n with delta := n.delta - 1 }).bind fun t =>
                expireLoop c (t.brk + 1) t).map
              fun (t, calls) => (t.mark w, calls) := by
        intro u
        cases u.heap a with
        | none => rfl
        | some n =>
            simp only [Option.bind_some, Table.noteSub_mark,
              Table.write_mark]
            cases (u.noteSub n.delta 1).write a fun n =>
              { n with delta := n.delta - 1 } with
            | none => rfl
            | some t => exact expireLoop_mark w (t.brk + 1) t
      simp only [Option.bind_eq_bind, Table.noteSub_mark]
      exact hrest { t.noteSub t.delta 1 with delta := t.delta - 1 }

-- ============================================================== one tick

/-- The elements of a table, each with the sum of the differences up to
it. -/
def remaining (t : Table α) : Option (Timed α) :=
  (walk DeltaNode.dlNext t.heap (t.brk + 1) t.deltaHead).map fun as =>
    sums 0 ((as.filterMap t.heap).map fun n => (n.data, n.delta.toNat))

theorem remaining_of_rep {t : Table α} {es : List (Entry α)}
    {bs : Fin HT_SIZE → List Addr} (h : Rep c t es bs) :
    remaining t = some (timed es) := by
  have hwalk := walk_of_chain h.list.linked.chain (k := t.brk + 1)
    (by simpa [addrs] using Nat.lt_succ_of_le h.length_le)
  rw [remaining, h.list.head, hwalk, Option.map_some,
    diffs_of_nodes h.data h.list.delta]
  rfl

/-- While the first of them has a tick left, a tick lowers every count
by one and drops those that were one. -/
theorem tick_of_headPos {es : List (Entry α)} (h : HeadPos es) :
    tick (timed es)
        = ((timed es).filter fun e => e.2 ≠ 1).map (fun e => (e.1, e.2 - 1))
      ∧ expired (timed es)
        = ((timed es).filter fun e => e.2 = 1).map Prod.fst := by
  have hpos : ∀ e ∈ timed es, 1 ≤ e.2 := by
    cases es with
    | nil => exact fun e he => (by cases he)
    | cons f es =>
        intro e he
        have hf := h f rfl
        rcases List.mem_cons.mp he with rfl | he
        · exact Nat.le_trans hf (Nat.le_add_left _ _)
        · have := (mem_sums he).1
          simp only [Nat.zero_add] at this
          omega
  have hiff : ∀ e ∈ timed es, (e.2 - 1 = 0 ↔ e.2 = 1) := fun e he => by
    have := hpos e he
    omega
  constructor
  · rw [tick, lower, List.filter_map]
    congr 1
    apply List.filter_congr
    intro e he
    simp [hiff e he]
  · rw [expired, lower, List.filter_map, List.map_map]
    congr 1
    apply List.filter_congr
    intro e he
    simp [hiff e he]

theorem wellFormed_mark {t : Table α} {w : Bool} (h : WellFormed c t) :
    WellFormed c (t.mark w) := by
  obtain ⟨as, bs, hl⟩ := h
  exact ⟨as, bs, ⟨hl.list, hl.once, hl.chains, hl.chainOnce, hl.same,
    hl.home, hl.distinct, hl.back, hl.tail, hl.size, hl.sum, hl.le, hl.head,
    hl.fresh⟩⟩

/-- On any well-formed table `delta_tick` ends. It calls `act` once on
each element that had one tick left, in list order, each before freeing
it, and leaves a well-formed table of the others, in order, each with
one tick less. -/
theorem one_tick {t : Table α} {l : Timed α} (h : WellFormed c t)
    (hl : remaining t = some l) (hc : Compares c (l.map Prod.fst)) :
    ∃ t', deltaTick c t = some (t',
          expireCalls ((l.filter fun e => e.2 = 1).map Prod.fst))
      ∧ WellFormed c t'
      ∧ remaining t' = some ((l.filter fun e => e.2 ≠ 1).map
          fun e => (e.1, e.2 - 1)) := by
  obtain ⟨as, bs, hlay⟩ := h
  -- the same table with its flag clear
  have hlay₀ : Layout c { t with wrapped := false } as bs :=
    ⟨hlay.list, hlay.once, hlay.chains, hlay.chainOnce, hlay.same,
      hlay.home, hlay.distinct, hlay.back, hlay.tail, hlay.size, hlay.sum,
      hlay.le, hlay.head, hlay.fresh⟩
  obtain ⟨hrep, hpos, htail⟩ := rep_of_layout hlay₀ rfl
  obtain rfl : timed (entriesAt t.heap as) = l :=
    Option.some.inj ((remaining_of_rep hrep).symm.trans hl)
  rw [map_fst_timed] at hc
  obtain ⟨t₁, bs₁, ht₁, hrep₁, htail₁⟩ := deltaTick_spec hc hrep hpos
  obtain ⟨htick, hexp⟩ := timed_tick hpos
  obtain ⟨htick', hexp'⟩ := tick_of_headPos hpos
  have hlen : (tickEntries (entriesAt t.heap as)).length < 2 ^ 32 := by
    have hle : (tickEntries (entriesAt t.heap as)).length
        ≤ (entriesAt t.heap as).length := by
      rw [← length_timed, htick, htick', ← length_timed]
      simpa using List.length_filter_le _ _
    have hadd : (entriesAt t.heap as).length ≤ as.length :=
      List.length_filterMap_le ..
    have := t.size.toNat_lt
    rw [hlay.size] at this
    omega
  have hwf₁ : WellFormed c t₁ :=
    ⟨_, _, wellFormed_of_rep hrep₁ (headPos_tickEntries _)
      (tailLive_tick htail htail₁) hlen⟩
  refine ⟨t₁.mark t.wrapped, ?_, wellFormed_mark hwf₁, ?_⟩
  · rw [← hexp', ← hexp]
    have := deltaTick_mark (c := c) t.wrapped { t with wrapped := false }
    rw [ht₁, Table.mark, Bool.false_or] at this
    exact this
  · rw [← htick', ← htick, show remaining (t₁.mark t.wrapped)
      = remaining t₁ from rfl]
    exact remaining_of_rep hrep₁

/-- Two elements of one bucket expire together, a later one stays. -/
theorem one_tick_numbers :
    ∃ t t', deltaTick numbers t
          = some (t', [.act 1, .free 1, .act 11, .free 11])
      ∧ WellFormed numbers t' ∧ remaining t' = some [(2, 6)] := by
  have hok : keepsOk numbers [.update 1, .insert 11, .tick, .tick, .tick,
      .tick, .tick, .tick, .update 2, .tick, .tick, .tick] = true := by
    decide
  obtain ⟨t, rs, hrun, hwf, -⟩ :=
    delta_list_well_formed numbers_lawful hok _ (List.prefix_refl _)
  have hrem : (Machine.run (step numbers) Table.empty
      [.update 1, .insert 11, .tick, .tick, .tick, .tick, .tick, .tick,
        .update 2, .tick, .tick, .tick]).bind (fun p => remaining p.1)
      = some [(1, 1), (11, 1), (2, 7)] := by decide
  rw [hrun, Option.bind_some] at hrem
  obtain ⟨t', ht', hwf', hrem'⟩ :=
    one_tick hwf hrem (numbers_lawful.compares _)
  exact ⟨t, t', ht', hwf', hrem'⟩

end Psnet.DeltaList
