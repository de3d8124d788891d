/-
Tables whose elements are compared by a key, as long as they are of one
kind.

The functions of a table need not be lawful on everything its elements
could be: `Keyed` asks that `equals` and `hash` see nothing but the key
of the elements of some kind. A table that only ever holds such elements
then behaves as the timed set of their keys (`simKeys_step`). The kind
matters to `delta_tick` only, which looks up what the table holds; the
other operations look up their argument.

# By key

`byKey` compares by key throughout and is lawful. An operation on elements
of the kind is the same for both (`getNode_byKey` and what follows from
it), so what the modules before this one prove of lawful tables holds of
these.
-/
import Psnet.DeltaList.Invariant

namespace Psnet.DeltaList

open Linked TimedSet

variable {α β : Type} [DecidableEq β] {c : Conf α} {key : α → β}
  {kind : α → Prop}

/-- Elements of the kind are compared by their keys. -/
structure Keyed (c : Conf α) (key : α → β) (kind : α → Prop) : Prop where
  equals : ∀ x y, kind y → c.equals x y = keyEq key x y
  hash : ∀ x y, key x = key y → c.hash x = c.hash y
  interval : 0 < c.interval.toNat

/-- The table with its elements compared by their keys throughout. -/
def byKey (c : Conf α) (key : α → β) : Conf α :=
  { c with equals := keyEq key }

/-- A table of the keys. -/
def ofKeys (c : Conf α) : Conf β := ⟨c.interval, fun _ => 0, keyEq id⟩

/-- Comparing by key is lawful. -/
theorem Keyed.lawful (h : Keyed c key kind) : Lawful (byKey c key) where
  equiv := keyEq_equivalence key
  hash x y hxy := h.hash x y (by simpa [byKey, keyEq] using hxy)
  interval := h.interval

-- ================================================================ the operations

variable {t : Table α} {x : α}

/-- For an element of the kind, the search by comparison is the search by
key. -/
theorem getNode_byKey (h : Keyed c key kind) (hx : kind x) :
    getNode c t x = getNode (byKey c key) t x := by
  have hloop : ∀ (k : Nat) (a last : Option Addr),
      getNodeLoop c t.heap x k a last
        = getNodeLoop (byKey c key) t.heap x k a last := by
    intro k
    induction k with
    | zero => exact fun _ _ => rfl
    | succ k ih =>
        intro a last
        cases a with
        | none => rfl
        | some a =>
            simp only [getNodeLoop, byKey, h.equals _ x hx]
            cases t.heap a with
            | none => rfl
            | some n => simp only [ih]; rfl
  exact hloop ..

/-- `delta_insert` of such an element is the same by key. -/
private theorem deltaInsert_byKey (h : Keyed c key kind) (hx : kind x) :
    deltaInsert c t x = deltaInsert (byKey c key) t x := by
  rw [deltaInsert, getNode_byKey h hx]
  rfl

/-- `delta_update` of such an element is the same by key. -/
private theorem deltaUpdate_byKey (h : Keyed c key kind) (hx : kind x) :
    deltaUpdate c t x = deltaUpdate (byKey c key) t x := by
  rw [deltaUpdate, getNode_byKey h hx]
  rfl

/-- `delta_delete` of such an element is the same by key. -/
private theorem deltaDelete_byKey (h : Keyed c key kind) (hx : kind x) :
    deltaDelete c t x = deltaDelete (byKey c key) t x := by
  rw [deltaDelete, getNode_byKey h hx]
  rfl

/-- The expiry looks up the elements of the table. -/
private theorem expireLoop_byKey (h : Keyed c key kind) (es : List (Entry α)) :
    ∀ (t : Table α) (bs : Fin HT_SIZE → List Addr) (k : Nat),
      Rep (byKey c key) t es bs → (∀ e ∈ es, kind e.data) → es.length < k →
      expireLoop c k t = expireLoop (byKey c key) k t := by
  induction es with
  | nil =>
      intro t bs k hrep _ hk
      obtain ⟨k, rfl⟩ : ∃ j, k = j + 1 := ⟨k - 1, by simp at hk; omega⟩
      have hhead : t.deltaHead = none := hrep.list.head
      simp [expireLoop, hhead]
  | cons e es ih =>
      intro t bs k hrep hkind hk
      obtain ⟨k, rfl⟩ : ∃ j, k = j + 1 := ⟨k - 1, by simp at hk; omega⟩
      have hhead : t.deltaHead = some e.addr := hrep.list.head
      obtain ⟨n, hn, hdata⟩ := live_of_map
        (hrep.data e (List.mem_cons_self ..))
      have hδ := hrep.list.delta e (List.mem_cons_self ..)
      rw [hn, Option.map_some, Option.some.injEq] at hδ
      by_cases hz : n.delta = 0
      · -- the head has expired, and is of the kind
        have he : e.delta = 0 := by
          rw [← hδ, hz]
          rfl
        obtain ⟨t₁, bs₁, ht₁, h₁, -, -⟩ := deltaDelete_found h.lawful
          (show Rep (byKey c key) t ([] ++ e :: es) bs from hrep)
          (h.lawful.equiv.refl e.data)
        rw [he, passE_zero, List.nil_append] at h₁
        have hrest := ih t₁ bs₁ k h₁
          (fun f hf => hkind f (List.mem_cons_of_mem _ hf))
          (by simp at hk; omega)
        simp only [expireLoop, hhead, hn, hz, hdata, bind, Option.bind_some,
          deltaDelete_byKey h (hkind e (List.mem_cons_self ..)), ht₁, hrest]
      · simp only [expireLoop, hhead, hn, bind, Option.bind_some, ne_eq, hz,
          not_false_eq_true, ↓reduceIte]

/-- A tick frees the same nodes by key. -/
private theorem deltaTick_byKey (h : Keyed c key kind) {es : List (Entry α)}
    {bs : Fin HT_SIZE → List Addr} (hrep : Rep (byKey c key) t es bs)
    (hpos : HeadPos es) (hkind : ∀ e ∈ es, kind e.data) :
    deltaTick c t = deltaTick (byKey c key) t := by
  cases es with
  | nil =>
      have hhead : t.deltaHead = none := hrep.list.head
      simp only [deltaTick, hhead]
  | cons e es =>
      have hhead : t.deltaHead = some e.addr := hrep.list.head
      obtain ⟨n, hn, -⟩ := live_of_map (hrep.data e (List.mem_cons_self ..))
      have hd : e.delta = (e.delta - 1) + 1 := by
        have := hpos e rfl
        omega
      have hlow := rep_lower hrep hd hn
      have hloop := expireLoop_byKey h _ _ _ (t.brk + 1) hlow
        (List.forall_mem_cons.mpr (List.forall_mem_cons.mp hkind))
        (Nat.lt_succ_of_le hlow.length_le)
      simp only [deltaTick, hhead, Table.noteSub, Table.write, hn,
        Option.bind_eq_bind, Option.bind_some]
      rw [hhead] at hloop
      exact hloop

-- ================================================================= the abstract side

/-- The keys of the set. -/
def Abs.keys (key : α → β) (a : Abs α) : Abs β :=
  ⟨TimedSet.keys key a.set, a.stale⟩

variable (c key) (a : Abs α)

/-- Being the last of several is a matter of keys. -/
private theorem isTail_keys (x : α) :
    isTail (ofKeys c) (TimedSet.keys key a.set) (key x)
      = isTail (byKey c key) a.set x := by
  simp only [isTail, TimedSet.keys, List.length_map, List.getLast?_map,
    Option.any_map]
  rfl

/-- Whether a link goes behind the last node is a matter of keys. -/
private theorem linkOk_keys (x : α) :
    linkOk (ofKeys c) (a.keys key) (key x) = linkOk (byKey c key) a x := by
  have herase := erase_keys key a.set x
  have htail := isTail_keys c key a x
  simp only [linkOk, Abs.keys, htail]
  rw [show (ofKeys c).equals = keyEq (id : β → β) from rfl, herase]
  simp only [TimedSet.keys, List.isEmpty_map]
  rfl

/-- So is whether an operation links behind a stale tail. -/
private theorem tailOk_keys (o : Op α) :
    tailOk (ofKeys c) (a.keys key) (o.onKeys key)
      = tailOk (byKey c key) a o := by
  cases o with
  | insert x =>
      simp only [tailOk, Op.onKeys, linkOk_keys]
      congr 1
      exact has_keys key a.set x
  | update x => exact linkOk_keys c key a x
  | remove x => rfl
  | tick => rfl
  | clear => rfl

/-- The keys after an operation are those it leaves by key. -/
private theorem next_keys (o : Op α) :
    next (ofKeys c) (a.keys key) (o.onKeys key)
      = (next (byKey c key) a o).keys key := by
  have hset := apply_keys key a.set c.interval.toNat o
  cases o with
  | insert x =>
      simp only [next, Abs.keys, Abs.mk.injEq]
      exact ⟨hset, congrArg (a.stale && ·) (has_keys key a.set x)⟩
  | update x =>
      simp only [next, Abs.keys, Abs.mk.injEq]
      exact ⟨hset, rfl⟩
  | remove x =>
      simp only [next, Abs.keys, Abs.mk.injEq]
      exact ⟨hset, congrArg (a.stale || ·) (isTail_keys c key a x)⟩
  | tick =>
      simp only [next, Abs.keys, Abs.mk.injEq]
      exact ⟨hset, rfl⟩
  | clear =>
      simp only [next, Abs.keys, Abs.mk.injEq]
      exact ⟨hset, rfl⟩

-- =================================================================== the relation

/-- The element an operation is given. -/
def Given (kind : α → Prop) : Op α → Prop
  | .insert x | .update x | .remove x => kind x
  | .tick | .clear => True

variable {c key a}

/-- A set of elements of the kind remains one. -/
private theorem kind_next {kind : α → Prop} {o : Op α}
    (h : ∀ e ∈ a.set, kind e.1) (ho : Given kind o) :
    ∀ e ∈ (next (byKey c key) a o).set, kind e.1 := by
  have herase : ∀ x, ∀ e ∈ erase (byKey c key).equals a.set x, kind e.1 :=
    fun x e he => h e (List.mem_of_mem_filter he)
  cases o with
  | insert x =>
      simp only [next, apply]
      split
      · exact h
      · intro e he
        rcases List.mem_append.mp he with he | he
        · exact h e he
        · rw [List.mem_singleton.mp he]
          exact ho
  | update x =>
      simp only [next, apply, refresh]
      intro e he
      rcases List.mem_append.mp he with he | he
      · exact herase x e he
      · rw [List.mem_singleton.mp he]
        cases hst : stored (byKey c key).equals a.set x with
        | none => exact ho
        | some y =>
            obtain ⟨f, hf, rfl⟩ := Option.map_eq_some_iff.mp hst
            exact h f (List.mem_of_find?_eq_some hf)
  | remove x => exact herase x
  | tick =>
      simp only [next, apply, TimedSet.tick, lower]
      intro e he
      obtain ⟨f, hf, rfl⟩ := List.mem_map.mp (List.mem_of_mem_filter he)
      exact h f hf
  | clear =>
      intro e he
      cases he

/-- The table holds elements of the kind, and their keys are the set
`b`. -/
def SimKeys (c : Conf α) (key : α → β) (kind : α → Prop) (t : Table α)
    (b : Abs β) : Prop :=
  ∃ a, Sim (byKey c key) t a ∧ (∀ e ∈ a.set, kind e.1) ∧ a.keys key = b

/-- The empty table stands for no keys. -/
theorem simKeys_init (c : Conf α) (key : α → β) (kind : α → Prop) :
    SimKeys c key kind Table.empty Abs.init :=
  ⟨Abs.init, sim_init _, fun _ he => (nomatch he), rfl⟩

/-- The elements of a table, oldest first. -/
theorem SimKeys.members {b : Abs β} (h : SimKeys c key kind t b) :
    ∃ xs, members t = some xs ∧ (∀ x ∈ xs, kind x)
      ∧ xs.map key = b.set.map Prod.fst := by
  obtain ⟨a, ⟨es, bs, hrep, -, hset, -⟩, hkind, rfl⟩ := h
  refine ⟨elems es, ?_, ?_, ?_⟩
  · have hlist := walk_of_chain (k := t.brk + 1) hrep.list.linked.chain
      (by simpa [addrs] using Nat.lt_succ_of_le hrep.length_le)
    unfold DeltaList.members
    rw [hrep.list.head, hlist, Option.map_some,
      (nodes_of_entries hrep.data hrep.list.delta).1]
  · rw [← map_fst_timed, hset]
    intro x hx
    obtain ⟨e, he, rfl⟩ := List.mem_map.mp hx
    exact hkind e he
  · rw [← map_fst_timed, hset]
    simp [Abs.keys, TimedSet.keys]

/-- One operation on elements of the kind. -/
theorem simKeys_step (h : Keyed c key kind) {b : Abs β} {o : Op α}
    (hs : SimKeys c key kind t b) (ho : Given kind o)
    (hok : tailOk (ofKeys c) b (o.onKeys key) = true) :
    ∃ t' r, step c t o = some (t', r)
      ∧ SimKeys c key kind t' (next (ofKeys c) b (o.onKeys key)) := by
  obtain ⟨a, hsim, hkind, rfl⟩ := hs
  rw [tailOk_keys] at hok
  obtain ⟨t', ht', hsim'⟩ := sim_step h.lawful hsim hok
  have hstep : step c t o = step (byKey c key) t o := by
    cases o with
    | insert x => simp only [step, deltaInsert_byKey h ho]
    | update x => simp only [step, deltaUpdate_byKey h ho]
    | remove x => simp only [step, deltaRemove, deltaDelete_byKey h ho]
    | tick =>
        obtain ⟨es, bs, hrep, hpos, hset, -⟩ := hsim
        have helems : ∀ e ∈ es, kind e.data := by
          intro e he
          have hmem : e.data ∈ (timed es).map Prod.fst :=
            map_fst_timed es ▸ List.mem_map_of_mem he
          rw [hset] at hmem
          obtain ⟨f, hf, heq⟩ := List.mem_map.mp hmem
          exact heq ▸ hkind f hf
        simp only [step, deltaTick_byKey h hrep hpos helems]
    | clear => rfl
  exact ⟨t', _, hstep.trans ht', _, hsim', kind_next hkind ho,
    (next_keys c key a o).symm⟩

end Psnet.DeltaList
