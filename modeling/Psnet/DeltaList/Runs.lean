/-
Runs of the delta list.

# What goes wrong

`dl_remove_node` never writes `delta_tail`. Removing the last of several
nodes therefore leaves the tail pointing off the list: at the node
`delta_update` is about to link again, which then becomes its own
predecessor and is reachable from the buckets only, or at the node
`delta_delete` is about to free. Nothing is lost until a node is linked
behind that tail while the list is not empty.

# What holds

`Sim` relates a table to the timed set it stands for and to one bit,
`stale`, that says whether the tail may point off the list. `linkOk` is
the abstract condition under which an insertion or an update links
behind a tail that is the last node. A run all of whose operations meet
it behaves as the timed set (`Machine.run_simulates` over `sim_step`).
When moreover no removal makes the tail stale, the representation
invariant holds in full after every operation.
-/
import Psnet.DeltaList.Ops
import Psnet.Lib.Machine

namespace Psnet.DeltaList

open Linked TimedSet

variable {α : Type} {c : Conf α}

-- ======================================================= the abstract side

/-- What the table stands for, and whether `delta_tail` may point off
the list. -/
structure Abs (α : Type) where
  set : Timed α
  stale : Bool

/-- The empty table. -/
def Abs.init : Abs α := ⟨[], false⟩

/-- `x` is the last of at least two elements. -/
def isTail (c : Conf α) (l : Timed α) (x : α) : Bool :=
  decide (2 ≤ l.length) && l.getLast?.any fun e => c.equals e.1 x

/-- A node for `x` would be linked to an empty list, or behind a tail
that is the last node and not the node of `x` itself. -/
def linkOk (c : Conf α) (a : Abs α) (x : α) : Bool :=
  (erase c.equals a.set x).isEmpty || (!a.stale && !isTail c a.set x)

/-- The operation links no node behind a tail that is off the list. -/
def tailOk (c : Conf α) (a : Abs α) : Op α → Bool
  | .insert x => has c.equals a.set x || linkOk c a x
  | .update x => linkOk c a x
  | _ => true

/-- The set and the state of the tail after an operation. -/
def next (c : Conf α) (a : Abs α) (o : Op α) : Abs α where
  set := apply c.equals c.interval.toNat a.set o
  stale := match o with
    | .insert x => a.stale && has c.equals a.set x
    | .update _ => false
    | .remove x => a.stale || isTail c a.set x
    | _ => a.stale

/-- What an operation gives back, read off the set. -/
def reply (c : Conf α) (l : Timed α) : Op α → Reply α
  | .insert _ => ⟨0, []⟩
  | .update x => ⟨if has c.equals l x then 1 else 0, []⟩
  | .remove x =>
      match stored c.equals l x with
      | none => ⟨-1, []⟩
      | some y => ⟨0, [.free y]⟩
  | .tick => ⟨0, expireCalls (expired l)⟩
  | .clear => ⟨0, []⟩

/-- The table represents the set, and its tail is the last node unless
it is known to be stale. -/
def Sim (c : Conf α) (t : Table α) (a : Abs α) : Prop :=
  ∃ es bs, Rep c t es bs ∧ HeadPos es ∧ timed es = a.set
    ∧ (a.stale = false → TailLive t es)

-- =================================================== entries and the set

/-- The elements of the timed set are those of the list. -/
theorem map_fst_timed (es : List (Entry α)) :
    (timed es).map Prod.fst = elems es := by
  rw [timed, map_fst_sums, diffs, List.map_map]
  rfl

/-- An element is in the set exactly when one equal to it is on the list. -/
private theorem has_timed (es : List (Entry α)) (x : α) :
    has c.equals (timed es) x = (elems es).any fun y => c.equals y x := by
  rw [← map_fst_timed, List.any_map]
  rfl

/-- No entry is equal to an element that is not in the set. -/
private theorem absent_of_has {es : List (Entry α)} {x : α}
    (h : has c.equals (timed es) x = false) :
    ∀ e ∈ es, c.equals e.data x = false := by
  intro e he
  rw [has_timed, List.any_eq_false] at h
  simpa using h e.data (List.mem_map_of_mem he)

/-- A present element splits the entries at the only one equal to it. -/
private theorem split_of_has (hc : Lawful c) {es : List (Entry α)} {x : α}
    (hd : (elems es).Pairwise fun x y => c.equals x y = false)
    (h : has c.equals (timed es) x = true) :
    ∃ l₁ e l₂, es = l₁ ++ e :: l₂ ∧ c.equals e.data x = true
      ∧ (∀ f ∈ l₁, c.equals f.data x = false)
      ∧ (∀ f ∈ l₂, c.equals f.data x = false) := by
  rw [has_timed, List.any_eq_true] at h
  obtain ⟨y, hy, hyx⟩ := h
  obtain ⟨e, he, rfl⟩ := List.mem_map.mp hy
  obtain ⟨l₁, l₂, rfl⟩ := List.append_of_mem he
  rw [elems_append, elems_cons, List.pairwise_append,
    List.pairwise_cons] at hd
  refine ⟨l₁, e, l₂, rfl, hyx, fun f hf => ?_, fun f hf => ?_⟩
  · rw [eq_congr hc.equiv (hc.equiv.symm hyx)]
    exact hd.2.2 _ (List.mem_map_of_mem hf) _ (List.mem_cons_self ..)
  · rw [eq_congr hc.equiv (hc.equiv.symm hyx), eq_comm' hc.equiv]
    exact hd.2.1.1 _ (List.mem_map_of_mem hf)

section Split

variable {l₁ l₂ : List (Entry α)} {e : Entry α} {x : α}
  (hx : c.equals e.data x = true)
  (h₁ : ∀ f ∈ l₁, c.equals f.data x = false)
  (h₂ : ∀ f ∈ l₂, c.equals f.data x = false)

include hx h₁ in
/-- The set stores the element the entry found has. -/
private theorem stored_split :
    stored c.equals (timed (l₁ ++ e :: l₂)) x = some e.data := by
  have hnone : (sums 0 (diffs l₁)).find? (fun p => c.equals p.1 x)
      = none := by
    refine List.find?_eq_none.mpr fun p hp => ?_
    obtain ⟨-, d, hd⟩ := mem_sums hp
    obtain ⟨f, hf, hfp⟩ := List.mem_map.mp hd
    have := h₁ f hf
    rw [(Prod.mk.inj hfp).1] at this
    simp [this]
  simp only [stored, timed, diffs_append, diffs_cons, sums_append, sums,
    List.find?_append, hnone, Option.none_or, List.find?_cons, hx,
    Option.map_some]

include hx h₁ h₂ in
/-- Erasing its element is leaving the entry out and passing its difference
on. -/
private theorem erase_split :
    erase c.equals (timed (l₁ ++ e :: l₂)) x
      = timed (l₁ ++ passE e.delta l₂) := by
  have hd : ∀ l : List (Entry α), (∀ f ∈ l, c.equals f.data x = false) →
      ∀ p ∈ diffs l, c.equals p.1 x = false := by
    intro l hl p hp
    obtain ⟨f, hf, rfl⟩ := List.mem_map.mp hp
    exact hl f hf
  simp only [timed, diffs_append, diffs_cons, diffs_passE]
  exact (sums_erase hx (hd l₁ h₁) (hd l₂ h₂)).symm

include hx h₂ in
/-- The entry found is the last of several when none follows and some are
before it. -/
private theorem isTail_split :
    isTail c (timed (l₁ ++ e :: l₂)) x
      = (l₂.isEmpty && !l₁.isEmpty) := by
  have hlen : ∀ es : List (Entry α), (timed es).length = es.length := by
    intro es
    rw [← List.length_map Prod.fst, map_fst_timed, elems, List.length_map]
  have hlast : ∀ es : List (Entry α),
      ((timed es).getLast?.any fun p => c.equals p.1 x)
        = (elems es).getLast?.any fun y => c.equals y x := by
    intro es
    rw [← map_fst_timed, List.getLast?_map, Option.any_map]
  unfold isTail
  rw [hlen, hlast]
  rcases List.eq_nil_or_concat l₂ with rfl | ⟨l, f, rfl⟩
  · rw [elems_append, elems_cons, elems_nil, List.getLast?_concat]
    cases l₁ <;> simp [hx]
  · have hf := h₂ f (by simp)
    rw [List.concat_eq_append, ← List.cons_append, ← List.append_assoc,
      elems_append, elems_cons, elems_nil, List.getLast?_concat]
    simp [hf]

end Split

/-- An entry behind all others has the whole interval left. -/
private theorem timed_lastEntry {es : List (Entry α)} {a : Addr} {x : α}
    (h : total (diffs es) ≤ c.interval.toNat) :
    timed (es ++ [lastEntry c es a x])
      = timed es ++ [(x, c.interval.toNat)] := by
  simp only [timed, diffs_append, sums_append, diffs_cons, diffs_nil, sums,
    lastEntry, Nat.zero_add, List.append_cancel_left_eq, List.cons.injEq,
    Prod.mk.injEq, true_and, and_true]
  omega

/-- Lowering the head's difference is one tick on the set. -/
theorem timed_tick {es : List (Entry α)} (h : HeadPos es) :
    timed (tickEntries es) = TimedSet.tick (timed es)
      ∧ tickExpired es = expired (timed es) := by
  cases es with
  | nil => exact ⟨rfl, rfl⟩
  | cons e es =>
      have hd : e.delta = (e.delta - 1) + 1 := by
        have := h e rfl
        omega
      have hlow : lower (timed (e :: es))
          = sums 0 (diffs ({ e with delta := e.delta - 1 } :: es)) := by
        simp only [timed, diffs_cons, sums, Nat.zero_add]
        rw [hd, lower, List.map_cons, ← lower, lower_sums,
          Nat.add_sub_cancel]
      constructor
      · rw [TimedSet.tick, hlow, filter_sums]
        unfold timed tickEntries diffs
        rw [List.dropWhile_map]
        rfl
      · rw [expired, hlow, filter_zero_sums]
        unfold tickExpired elems diffs
        rw [List.takeWhile_map, List.map_map]
        rfl

-- ============================================== the head and the tail

/-- An entry behind the others leaves the first difference positive. -/
private theorem headPos_append {es : List (Entry α)} (hc : Lawful c)
    (h : HeadPos es) (a : Addr) (x : α) :
    HeadPos (es ++ [lastEntry c es a x]) := by
  cases es with
  | nil =>
      intro e he
      cases he
      exact hc.interval
  | cons f es => exact h

/-- Passing a difference on leaves the first one positive. -/
private theorem headPos_erase {l₁ l₂ : List (Entry α)} {e : Entry α}
    (h : HeadPos (l₁ ++ e :: l₂)) : HeadPos (l₁ ++ passE e.delta l₂) := by
  cases l₁ with
  | nil =>
      intro f hf
      have he := h e rfl
      cases l₂ with
      | nil => cases hf
      | cons g l =>
          cases hf
          exact Nat.lt_of_lt_of_le he (Nat.le_add_left _ _)
  | cons f l => exact h

/-- The tail is still the last node after another one is removed. -/
private theorem tailLive_erase {t : Table α} {l₁ l₂ : List (Entry α)}
    {e : Entry α} {d : Nat} (h : TailLive t (l₁ ++ e :: l₂))
    (hl : (l₂.isEmpty && !l₁.isEmpty) = false) :
    TailLive t (l₁ ++ passE d l₂) := by
  intro hne
  rw [h (by simp)]
  simp only [addrs_append, addrs_passE, addrs_cons, List.getLast?_append]
  cases l₂ with
  | nil =>
      have : l₁ = [] := by simpa using hl
      rw [this] at hne
      exact absurd rfl hne
  | cons f l => rw [addrs_cons, List.getLast?_cons_cons]

/-- The tail is still the last node after a tick that leaves some. -/
theorem tailLive_tick {t t' : Table α} {es : List (Entry α)}
    (h : TailLive t es) (ht : t'.deltaTail = t.deltaTail) :
    TailLive t' (tickEntries es) := by
  intro hne
  cases es with
  | nil => exact absurd rfl hne
  | cons e es =>
      rw [ht, h (by simp)]
      obtain ⟨pre, hpre⟩ := List.dropWhile_suffix
        (l := { e with delta := e.delta - 1 } :: es)
        (p := fun f : Entry α => decide (f.delta = 0))
      have haddr : addrs (e :: es) = addrs pre
          ++ addrs (tickEntries (e :: es)) := by
        rw [← addrs_append, tickEntries, hpre]
        rfl
      rw [haddr, List.getLast?_append]
      obtain ⟨f, l, hl⟩ := List.exists_cons_of_ne_nil hne
      rw [hl, addrs_cons, List.getLast?_cons, Option.some_or]

/-- The node just linked last is the tail. -/
private theorem tailLive_concat {t : Table α} {es : List (Entry α)}
    {e : Entry α} (h : t.deltaTail = some e.addr) :
    TailLive t (es ++ [e]) := by
  intro _
  rw [h, addrs_append, addrs_cons, addrs_nil, List.getLast?_concat]

/-- What `linkOk` is for: the tail is live in the list without `x`. -/
private theorem tailLive_of_linkOk {t : Table α} {a : Abs α}
    {l₁ l₂ : List (Entry α)} {e : Entry α} {x : α}
    (hx : c.equals e.data x = true)
    (h₁ : ∀ f ∈ l₁, c.equals f.data x = false)
    (h₂ : ∀ f ∈ l₂, c.equals f.data x = false)
    (hset : timed (l₁ ++ e :: l₂) = a.set)
    (htail : a.stale = false → TailLive t (l₁ ++ e :: l₂))
    (hok : linkOk c a x = true) :
    TailLive t (l₁ ++ passE e.delta l₂) := by
  unfold linkOk at hok
  rw [← hset, erase_split hx h₁ h₂, isTail_split hx h₂] at hok
  simp only [Bool.or_eq_true, Bool.and_eq_true, Bool.not_eq_true',
    List.isEmpty_iff] at hok
  rcases hok with hempty | ⟨hstale, hl⟩
  · intro hne
    have := congrArg List.length (map_fst_timed (l₁ ++ passE e.delta l₂))
    rw [hempty, List.map_nil, elems, List.length_map] at this
    exact absurd (List.length_eq_zero_iff.mp this.symm) hne
  · exact tailLive_erase (htail hstale) hl

/-- The same for an element that is not in the list. -/
private theorem tailLive_of_linkOk_absent {t : Table α} {a : Abs α}
    {es : List (Entry α)} {x : α} (hx : ∀ e ∈ es, c.equals e.data x = false)
    (hset : timed es = a.set) (htail : a.stale = false → TailLive t es)
    (hok : linkOk c a x = true) : TailLive t es := by
  have herase : erase c.equals (timed es) x = timed es := by
    apply erase_sums_of_absent
    intro p hp
    obtain ⟨f, hf, rfl⟩ := List.mem_map.mp hp
    exact hx f hf
  unfold linkOk at hok
  rw [← hset, herase] at hok
  simp only [Bool.or_eq_true, Bool.and_eq_true, Bool.not_eq_true',
    List.isEmpty_iff] at hok
  rcases hok with hempty | ⟨hstale, -⟩
  · intro hne
    have := congrArg List.length (map_fst_timed es)
    rw [hempty, List.map_nil, elems, List.length_map] at this
    exact absurd (List.length_eq_zero_iff.mp this.symm) hne
  · exact htail hstale

-- ================================================= one operation simulated

/-- `delta_insert` does what an insertion does to the set. -/
theorem sim_insert (hc : Lawful c) {t : Table α} {a : Abs α} {x : α}
    (h : Sim c t a) (hok : tailOk c a (.insert x) = true) :
    ∃ t', step c t (.insert x) = some (t', reply c a.set (.insert x))
      ∧ Sim c t' (next c a (.insert x)) := by
  obtain ⟨es, bs, hrep, hpos, hset, htail⟩ := h
  cases hhas : has c.equals a.set x with
  | true =>
      obtain ⟨l₁, e, l₂, rfl, hx, -, -⟩ :=
        split_of_has hc hrep.distinct (hset ▸ hhas)
      refine ⟨t, ?_, l₁ ++ e :: l₂, bs, hrep, hpos, ?_, ?_⟩
      · simp [step, deltaInsert_present hc hrep hx, reply]
      · simp [next, apply, hhas, hset]
      · simpa [next, hhas] using htail
  | false =>
      have hx := absent_of_has (hset ▸ hhas)
      have hlink : linkOk c a x = true := by simpa [tailOk, hhas] using hok
      obtain ⟨t', bs', b, ht', hrep', htl⟩ := deltaInsert_absent hrep hx
        (tailLive_of_linkOk_absent hx hset htail hlink)
      have hle : total (diffs es) ≤ c.interval.toNat := by
        rw [← hrep.list.sum]
        exact UInt32.le_iff_toNat_le.mp hrep.list.le
      refine ⟨t', by simp [step, ht', reply], _, bs', hrep',
        headPos_append hc hpos b x, ?_, fun _ => tailLive_concat htl⟩
      rw [timed_lastEntry hle, hset]
      simp [next, apply, hhas]

/-- `delta_update` does what an update does to the set. -/
theorem sim_update (hc : Lawful c) {t : Table α} {a : Abs α} {x : α}
    (h : Sim c t a) (hok : tailOk c a (.update x) = true) :
    ∃ t', step c t (.update x) = some (t', reply c a.set (.update x))
      ∧ Sim c t' (next c a (.update x)) := by
  obtain ⟨es, bs, hrep, hpos, hset, htail⟩ := h
  cases hhas : has c.equals a.set x with
  | true =>
      obtain ⟨l₁, e, l₂, rfl, hx, h₁, h₂⟩ :=
        split_of_has hc hrep.distinct (hset ▸ hhas)
      obtain ⟨t', bs', ht', hrep', htl⟩ := deltaUpdate_present hc hrep hx
        (tailLive_of_linkOk hx h₁ h₂ hset htail hok)
      have hle : total (diffs (l₁ ++ passE e.delta l₂))
          ≤ c.interval.toNat := by
        have := UInt32.le_iff_toNat_le.mp hrep.list.le
        rw [hrep.list.sum] at this
        refine Nat.le_trans ?_ this
        cases l₂ with
        | nil => simp [passE]
        | cons f l => simp [passE]; omega
      refine ⟨t', by simp [step, ht', reply, hhas], _, bs', hrep',
        headPos_append hc (headPos_erase hpos) e.addr e.data, ?_,
        fun _ => tailLive_concat htl⟩
      rw [timed_lastEntry hle, ← erase_split hx h₁ h₂, hset]
      have hst : stored c.equals (timed (l₁ ++ e :: l₂)) x = some e.data :=
        stored_split hx h₁
      rw [hset] at hst
      simp [next, apply, refresh, hst]
  | false =>
      have hx := absent_of_has (hset ▸ hhas)
      obtain ⟨t', bs', b, ht', hrep', htl⟩ := deltaUpdate_absent hrep hx
        (tailLive_of_linkOk_absent hx hset htail hok)
      have hle : total (diffs es) ≤ c.interval.toNat := by
        rw [← hrep.list.sum]
        exact UInt32.le_iff_toNat_le.mp hrep.list.le
      refine ⟨t', by simp [step, ht', reply, hhas], _, bs', hrep',
        headPos_append hc hpos b x, ?_, fun _ => tailLive_concat htl⟩
      have herase := erase_absent c.equals hhas
      have hst := stored_absent c.equals hhas
      rw [timed_lastEntry hle, hset]
      simp [next, apply, refresh, hst, herase]

/-- `delta_delete` does what a removal does to the set; only the tail may be
stale then. -/
theorem sim_remove (hc : Lawful c) {t : Table α} {a : Abs α} {x : α}
    (h : Sim c t a) :
    ∃ t', step c t (.remove x) = some (t', reply c a.set (.remove x))
      ∧ Sim c t' (next c a (.remove x)) := by
  obtain ⟨es, bs, hrep, hpos, hset, htail⟩ := h
  cases hhas : has c.equals a.set x with
  | true =>
      obtain ⟨l₁, e, l₂, rfl, hx, h₁, h₂⟩ :=
        split_of_has hc hrep.distinct (hset ▸ hhas)
      obtain ⟨t', bs', ht', hrep', htl, -⟩ := deltaDelete_found hc hrep hx
      have hst : stored c.equals (timed (l₁ ++ e :: l₂)) x = some e.data :=
        stored_split hx h₁
      rw [hset] at hst
      refine ⟨t', by simp [step, deltaRemove, ht', reply, hst], _, bs',
        hrep', headPos_erase hpos, ?_, ?_⟩
      · rw [← erase_split hx h₁ h₂, hset]
        rfl
      · intro hstale
        simp only [next, Bool.or_eq_false_iff] at hstale
        rw [← hset, isTail_split hx h₂] at hstale
        intro hne
        rw [htl]
        exact tailLive_erase (htail hstale.1) hstale.2 hne
  | false =>
      have hx := absent_of_has (hset ▸ hhas)
      have herase := erase_absent c.equals hhas
      have hst := stored_absent c.equals hhas
      refine ⟨t, by simp [step, deltaRemove, deltaDelete_absent hrep hx,
        reply, hst], es, bs, hrep, hpos, ?_, ?_⟩
      · simp [next, apply, herase, hset]
      · intro hstale
        simp only [next, Bool.or_eq_false_iff] at hstale
        exact htail hstale.1

/-- `delta_tick` does what a tick does to the set, and frees what runs out.
-/
theorem sim_tick (hc : Lawful c) {t : Table α} {a : Abs α}
    (h : Sim c t a) :
    ∃ t', step c t .tick = some (t', reply c a.set .tick)
      ∧ Sim c t' (next c a .tick) := by
  obtain ⟨es, bs, hrep, hpos, hset, htail⟩ := h
  obtain ⟨t', bs', ht', hrep', htl⟩ := deltaTick_spec (hc.compares _) hrep hpos
  obtain ⟨hset', hexp⟩ := timed_tick hpos
  rw [hset] at hset' hexp
  exact ⟨t', by simp [step, ht', reply, hexp], _, bs', hrep',
    headPos_tickEntries es, hset', fun hs => tailLive_tick (htail hs) htl⟩

/-- `delta_clear` leaves the empty set. -/
theorem sim_clear {t : Table α} {a : Abs α} (h : Sim c t a) :
    ∃ t', step c t .clear = some (t', reply c a.set .clear)
      ∧ Sim c t' (next c a .clear) := by
  obtain ⟨es, bs, hrep, -, -, -⟩ := h
  obtain ⟨t', ht', hrep', -⟩ := deltaClear_spec hrep
  exact ⟨t', by simp [step, ht', reply], [], _, hrep',
    fun e he => (by cases he), rfl, fun _ hne => absurd rfl hne⟩

/-- Every operation that links behind a live tail is simulated. -/
theorem sim_step (hc : Lawful c) {t : Table α} {a : Abs α} {o : Op α}
    (h : Sim c t a) (hok : tailOk c a o = true) :
    ∃ t', step c t o = some (t', reply c a.set o) ∧ Sim c t' (next c a o) := by
  cases o with
  | insert x => exact sim_insert hc h hok
  | update x => exact sim_update hc h hok
  | remove x => exact sim_remove hc h
  | tick => exact sim_tick hc h
  | clear => exact sim_clear h

/-- The empty table stands for the empty set. -/
theorem sim_init (c : Conf α) : Sim c Table.empty Abs.init :=
  ⟨[], fun _ => [],
    ⟨⟨trivial, rfl, List.nodup_nil, by simp, rfl, UInt32.zero_le⟩,
      ⟨fun _ => trivial, fun _ => rfl, fun _ => List.nodup_nil, by simp⟩,
      by simp, List.Pairwise.nil, rfl, fun _ _ => rfl, rfl⟩,
    fun e he => (by cases he), rfl, fun _ hne => absurd rfl hne⟩

-- ==================================================== the refinement of runs

/-- The interface shows exactly the timed set `l`. -/
structure Shows (c : Conf α) (t : Table α) (l : Timed α) : Prop where
  ok : Ok c.equals c.interval.toNat l
  contains : ∀ x,
    deltaContains c t x = some (if has c.equals l x then 1 else 0)
  get : ∀ x, deltaGet c t x = some (stored c.equals l x)
  size : (deltaSize t).toNat = l.length
  foreach : ∀ {σ : Type} (f : α → σ → σ × Int) (arg : σ),
    deltaForeach t f arg = some (visit f (l.map Prod.fst) arg)

/-- The history `ops` leaves the table behaving as a timed set: every
call returns what the set says and makes the callbacks it says, the
interface shows the set, and `delta_contains` succeeds exactly on the
elements refreshed fewer than `interval` ticks ago and not removed
since. -/
def RefinesTimedSet (c : Conf α) (ops : List (Op α)) : Prop :=
  ∃ t, Machine.run (step c) Table.empty ops
      = some (t, Machine.outputs (apply c.equals c.interval.toNat)
          (reply c) [] ops)
    ∧ Shows c t (TimedSet.run c.equals c.interval.toNat ops)
    ∧ ∀ x, deltaContains c t x = some 1
        ↔ ∃ pre o post, ops = pre ++ o :: post
            ∧ Refreshes c.equals c.interval.toNat pre o x
            ∧ (∀ p ∈ post, ¬ Removes c.equals p x)
            ∧ ticks post < c.interval.toNat

/-- `size` counts the elements after the operation. -/
def sizeOk (c : Conf α) (a : Abs α) (o : Op α) : Bool :=
  decide ((next c a o).set.length < 2 ^ 32)

/-- Every operation of the history links behind a live tail and leaves
fewer than `2^32` elements. -/
def runOk (c : Conf α) (ops : List (Op α)) : Bool :=
  Machine.allOk (next c) (fun a o => tailOk c a o && sizeOk c a o)
    Abs.init ops

/-- As many elements as entries. -/
theorem length_timed (es : List (Entry α)) :
    (timed es).length = es.length := by
  rw [← List.length_map Prod.fst, map_fst_timed, elems, List.length_map]

/-- A simulated table with fewer than `2^32` elements shows its set. -/
private theorem shows_of_sim (hc : Lawful c) {t : Table α} {a : Abs α}
    (h : Sim c t a) (hok : Ok c.equals c.interval.toNat a.set)
    (hlen : a.set.length < 2 ^ 32) : Shows c t a.set := by
  obtain ⟨es, bs, hrep, -, hset, -⟩ := h
  rw [← hset] at hok hlen ⊢
  have hobs : ∀ x, deltaContains c t x
        = some (if has c.equals (timed es) x then 1 else 0)
      ∧ deltaGet c t x = some (stored c.equals (timed es) x) := by
    intro x
    cases hhas : has c.equals (timed es) x with
    | true =>
        obtain ⟨l₁, e, l₂, rfl, hx, h₁, -⟩ :=
          split_of_has hc hrep.distinct hhas
        rw [stored_split hx h₁]
        exact deltaContains_present hc hrep hx
    | false =>
        have hx := absent_of_has hhas
        rw [stored_absent c.equals hhas]
        exact deltaContains_absent hrep hx
  refine ⟨hok, fun x => (hobs x).1, fun x => (hobs x).2, ?_, fun f arg => ?_⟩
  · rw [length_timed] at hlen ⊢
    rw [deltaSize, hrep.size, UInt32.toNat_ofNat_of_lt' hlen]
  · rw [map_fst_timed]
    exact deltaForeach_spec hrep f arg

/-- The last set of a history within bounds is within bounds. -/
theorem length_foldl_lt {ok : Abs α → Op α → Bool} (ops : List (Op α)) :
    ∀ a : Abs α, a.set.length < 2 ^ 32 →
      Machine.allOk (next c) (fun a o => ok a o && sizeOk c a o) a ops
        = true →
      (ops.foldl (next c) a).set.length < 2 ^ 32 := by
  induction ops with
  | nil => exact fun a h _ => h
  | cons o ops ih =>
      intro a _ hok
      simp only [Machine.allOk, Bool.and_eq_true] at hok
      exact ih _ (by simpa [sizeOk] using hok.1.2) hok.2

/-- The set after a run does not depend on the tail. -/
theorem set_foldl_next (c : Conf α) (ops : List (Op α)) (a : Abs α) :
    (ops.foldl (next c) a).set
      = ops.foldl (apply c.equals c.interval.toNat) a.set :=
  Machine.foldl_proj (fun _ _ => rfl) ops a

/-- Neither do the replies. -/
private theorem outputs_set (c : Conf α) (ops : List (Op α)) (a : Abs α) :
    Machine.outputs (next c) (fun a o => reply c a.set o) a ops
      = Machine.outputs (apply c.equals c.interval.toNat) (reply c)
          a.set ops :=
  Machine.outputs_proj (fun _ _ => rfl) ops a

/-- A history that meets `runOk` refines the timed set. -/
theorem refines_of_runOk (hc : Lawful c) {ops : List (Op α)}
    (h : runOk c ops = true) : RefinesTimedSet c ops := by
  have hstep : ∀ t a o, Sim c t a → (tailOk c a o && sizeOk c a o) = true →
      ∃ t', step c t o = some (t', reply c a.set o)
        ∧ Sim c t' (next c a o) := by
    intro t a o hs hok
    rw [Bool.and_eq_true] at hok
    exact sim_step hc hs hok.1
  obtain ⟨t, ht, hsim⟩ :=
    Machine.run_simulates hstep ops Table.empty Abs.init (sim_init c) h
  rw [outputs_set] at ht
  have hset := set_foldl_next c ops Abs.init
  have hlen := length_foldl_lt ops Abs.init (by simp [Abs.init]) h
  have hok := ok_run hc.equiv hc.interval ops
  have hshows := shows_of_sim hc hsim (by rw [hset]; exact hok) hlen
  rw [hset] at hshows
  refine ⟨t, ht, hshows, fun x => ?_⟩
  rw [← present_iff hc.equiv hc.interval, hshows.contains x]
  change some (if has _ (TimedSet.run _ _ _) x = true then 1 else 0)
    = some 1 ↔ _
  cases has c.equals (TimedSet.run c.equals c.interval.toNat ops) x <;> simp

/-- As long as no node is linked behind a dead tail and the counter does
not overflow, the table is a timed set after every prefix of the run. -/
theorem delta_list_refines_timed_set (hc : Lawful c) {ops : List (Op α)}
    (h : runOk c ops = true) :
    ∀ pre, pre <+: ops → RefinesTimedSet c pre := by
  intro pre h
  obtain ⟨post, rfl⟩ := h
  apply refines_of_runOk hc
  rw [runOk, Machine.allOk_append, Bool.and_eq_true] at h
  exact h.1

/-- Numbers under equality, in the buckets of their last digit. -/
def numbers : Conf Nat where
  interval := 10
  hash n := UInt64.ofNat n
  equals m n := decide (m = n)

/-- Numbers are compared and hashed lawfully. -/
theorem numbers_lawful : Lawful numbers where
  equiv := by
    constructor
    · intro a
      simp [numbers]
    · intro a b h
      simpa [numbers, eq_comm] using h
    · intro a b d h h'
      simp only [numbers, decide_eq_true_eq] at *
      exact h.trans h'
  hash a b h := by
    simp only [numbers, decide_eq_true_eq] at *
    rw [h]
  interval := by decide

/-- Refreshing an older element, inserting a present one, letting a head
of two expire together and removing a middle element stay clear of the
dead tail. -/
theorem delta_list_refines_timed_set_mixed :
    RefinesTimedSet numbers
      [.update 1, .insert 11, .tick, .update 1, .insert 1, .update 21,
        .remove 1, .tick, .clear, .insert 3] :=
  delta_list_refines_timed_set numbers_lawful (by decide) _
    (List.prefix_refl _)

/-- Refreshing the newest of two elements takes it off the list: it stays
in its bucket, where `delta_contains` finds it, but no tick and no
`delta_foreach` ever meets it again. -/
theorem update_last_unlinks :
    Lawful numbers
      ∧ ¬ RefinesTimedSet numbers [.update 1, .update 2, .update 2] := by
  refine ⟨numbers_lawful, ?_⟩
  intro h
  obtain ⟨t, ht, hshows, -⟩ := h
  have hrun : (Machine.run (step numbers) Table.empty
      [.update 1, .update 2, .update 2]).bind
        (fun p => deltaForeach p.1 (fun x xs => (xs ++ [x], 0)) [])
      = some [1] := by decide
  rw [ht, Option.bind_some, hshows.foreach] at hrun
  exact absurd hrun (by decide)

end Psnet.DeltaList
