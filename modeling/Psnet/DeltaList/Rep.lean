/-
The representation relation of the delta list and what each of the
inner functions does to it.

`Rep c t es bs` says that the table `t` holds the entries `es`, in list
order, and the bucket chains `bs`: the list half (`ListRep`) is about
`dl_next`, `dl_prev` and the differences, the hash half (`HashRep`)
about `ht_next` and the buckets. The two halves read different fields of
the nodes, so `dl_insert_node` and `dl_remove_node` owe nothing about
the chains beyond `KeepsHash`, and `hash_insert` nothing about the list.

`Rep` does not mention `delta_tail`. `dl_remove_node` never writes it,
so which operations may rely on it is a question about runs and not
about the representation; `TailLive` is the extra fact an insertion into
a non-empty list needs.

# Two kinds of lemmas

A frame lemma says which fields a function leaves alone (`KeepsHash` for
the inner functions of the list, `KeepsList` for those of the buckets); a
specification says what it makes of the half it is about. The walk of
`get_node` along a bucket is given fuel for every node ever allocated: a
bucket has no node twice (`Rep.bucket_length_le`), so it ends.
-/
import Psnet.DeltaList.Model
import Mathlib.Data.List.Perm.Subperm
import Mathlib.Data.List.Range

namespace Psnet.DeltaList

open Linked

variable {α : Type} {c : Conf α}

/-- One element of a represented table. -/
structure Entry (α : Type) where
  addr : Addr
  data : α
  delta : Nat

/-- The addresses of the entries, in list order. -/
def addrs (es : List (Entry α)) : List Addr := es.map Entry.addr

/-- The elements with their differences, in list order. -/
def diffs (es : List (Entry α)) : List (α × Nat) :=
  es.map fun e => (e.data, e.delta)

/-- The elements, in list order. -/
def elems (es : List (Entry α)) : List α := es.map Entry.data

/-- The timed set a list of entries stands for. -/
def timed (es : List (Entry α)) : TimedSet.Timed α :=
  TimedSet.sums 0 (diffs es)

@[simp] theorem addrs_nil : addrs ([] : List (Entry α)) = [] := rfl

@[simp] theorem addrs_cons (e : Entry α) (es : List (Entry α)) :
    addrs (e :: es) = e.addr :: addrs es := rfl

@[simp] theorem addrs_append (es fs : List (Entry α)) :
    addrs (es ++ fs) = addrs es ++ addrs fs := List.map_append ..

@[simp] theorem diffs_nil : diffs ([] : List (Entry α)) = [] := rfl

@[simp] theorem diffs_cons (e : Entry α) (es : List (Entry α)) :
    diffs (e :: es) = (e.data, e.delta) :: diffs es := rfl

@[simp] theorem diffs_append (es fs : List (Entry α)) :
    diffs (es ++ fs) = diffs es ++ diffs fs := List.map_append ..

@[simp] theorem elems_nil : elems ([] : List (Entry α)) = [] := rfl

@[simp] theorem elems_cons (e : Entry α) (es : List (Entry α)) :
    elems (e :: es) = e.data :: elems es := rfl

@[simp] theorem elems_append (es fs : List (Entry α)) :
    elems (es ++ fs) = elems es ++ elems fs := List.map_append ..

/-- An entry's difference goes to its successor. -/
def passE (d : Nat) : List (Entry α) → List (Entry α)
  | [] => []
  | e :: es => { e with delta := e.delta + d } :: es

/-- Passing a difference on moves no node. -/
@[simp] theorem addrs_passE (d : Nat) (es : List (Entry α)) :
    addrs (passE d es) = addrs es := by cases es <;> rfl

/-- Passing a difference on changes no element. -/
@[simp] theorem elems_passE (d : Nat) (es : List (Entry α)) :
    elems (passE d es) = elems es := by cases es <;> rfl

/-- Giving a difference to the entries is giving it to their differences. -/
theorem diffs_passE (d : Nat) (es : List (Entry α)) :
    diffs (passE d es) = TimedSet.pass d (diffs es) := by cases es <;> rfl

/-- A node without a difference leaves none. -/
theorem passE_zero (es : List (Entry α)) : passE 0 es = es := by
  cases es <;> rfl

/-- Passing a difference on moves no element. -/
theorem mem_passE {d : Nat} {es : List (Entry α)} {e : Entry α}
    (he : e ∈ passE d es) :
    ∃ f ∈ es, f.addr = e.addr ∧ f.data = e.data := by
  cases es with
  | nil => cases he
  | cons f es =>
      rcases List.mem_cons.mp he with rfl | he
      · exact ⟨f, List.mem_cons_self .., rfl, rfl⟩
      · exact ⟨e, List.mem_cons_of_mem _ he, rfl, rfl⟩

-- ============================================================ the relation

/-- The list half: links, head, differences and their sum. -/
structure ListRep (c : Conf α) (t : Table α) (es : List (Entry α)) :
    Prop where
  linked : Seg DeltaNode.dlNext DeltaNode.dlPrev t.heap none (addrs es) none
  head : t.deltaHead = (addrs es).head?
  nodup : (addrs es).Nodup
  delta : ∀ e ∈ es, (t.heap e.addr).map (·.delta.toNat) = some e.delta
  sum : t.delta.toNat = TimedSet.total (diffs es)
  le : t.delta ≤ c.interval

/-- The hash half: every bucket is a chain of the entries that hash to
it. -/
structure HashRep (c : Conf α) (t : Table α) (es : List (Entry α))
    (bs : Fin HT_SIZE → List Addr) : Prop where
  chains : ∀ i, Chain DeltaNode.htNext t.heap (bs i) none
  heads : ∀ i, t.table i = (bs i).head?
  nodup : ∀ i, (bs i).Nodup
  buckets : ∀ i a, a ∈ bs i ↔ ∃ e ∈ es, e.addr = a ∧ bucket c e.data = i

/-- The table holds the entries `es` in the buckets `bs`. -/
structure Rep (c : Conf α) (t : Table α) (es : List (Entry α))
    (bs : Fin HT_SIZE → List Addr) : Prop where
  list : ListRep c t es
  hash : HashRep c t es bs
  data : ∀ e ∈ es, (t.heap e.addr).map (·.data) = some e.data
  distinct : (elems es).Pairwise fun x y => c.equals x y = false
  size : t.size = UInt32.ofNat es.length
  fresh : ∀ a, t.brk ≤ a → t.heap a = none
  noWrap : t.wrapped = false

/-- `delta_tail` points at the last node, if there is one. -/
def TailLive (t : Table α) (es : List (Entry α)) : Prop :=
  es ≠ [] → t.deltaTail = (addrs es).getLast?

-- ================================================================== frames

/-- Rewriting one node's links changes no projection the rewrite
keeps. -/
theorem map_update {β : Type} {h : Heap Addr (DeltaNode α)} {a : Addr}
    {n : DeltaNode α} (g : DeltaNode α → β) (hn : h a = some n)
    (n' : DeltaNode α) (hg : g n' = g n) (b : Addr) :
    (Function.update h a (some n') b).map g = (h b).map g := by
  by_cases hb : b = a
  · subst hb
    rw [Function.update_self, hn, Option.map_some, Option.map_some, hg]
  · rw [Function.update_of_ne hb]

/-- `t'` differs from `t` at most in the list fields. -/
structure KeepsHash (t t' : Table α) : Prop where
  table : t'.table = t.table
  size : t'.size = t.size
  brk : t'.brk = t.brk
  data : ∀ a, (t'.heap a).map (·.data) = (t.heap a).map (·.data)
  htNext : ∀ a, (t'.heap a).map (·.htNext) = (t.heap a).map (·.htNext)

/-- Two changes that leave the hash half alone. -/
theorem KeepsHash.trans {t t' t'' : Table α} (h : KeepsHash t t')
    (h' : KeepsHash t' t'') : KeepsHash t t'' where
  table := h'.table.trans h.table
  size := h'.size.trans h.size
  brk := h'.brk.trans h.brk
  data a := (h'.data a).trans (h.data a)
  htNext a := (h'.htNext a).trans (h.htNext a)

/-- A change that leaves the hash half alone gives out no address. -/
theorem KeepsHash.fresh {t t' : Table α} (h : KeepsHash t t')
    (hfresh : ∀ a, t.brk ≤ a → t.heap a = none) :
    ∀ a, t'.brk ≤ a → t'.heap a = none := by
  intro a ha
  have hnone := h.data a
  rw [hfresh a (by rw [← h.brk]; exact ha), Option.map_none,
    Option.map_eq_none_iff] at hnone
  exact hnone

/-- The hash half of a representation needs no more than that. -/
theorem HashRep.keeps {t t' : Table α} {es : List (Entry α)}
    {bs : Fin HT_SIZE → List Addr} (h : HashRep c t es bs)
    (hk : KeepsHash t t') : HashRep c t' es bs where
  chains i := (h.chains i).congr fun a _ => hk.htNext a
  heads i := by rw [hk.table, h.heads]
  nodup := h.nodup
  buckets := h.buckets

/-- Only which addresses hold which elements matters to the hash half. -/
theorem HashRep.entries {t : Table α} {es fs : List (Entry α)}
    {bs : Fin HT_SIZE → List Addr} (h : HashRep c t es bs)
    (hiff : ∀ a i, (∃ e ∈ fs, e.addr = a ∧ bucket c e.data = i)
      ↔ ∃ e ∈ es, e.addr = a ∧ bucket c e.data = i) :
    HashRep c t fs bs :=
  { h with buckets := fun i a => by rw [h.buckets i a, hiff a i] }

/-- A field can only be read off a live node. -/
theorem live_of_map {β : Type} {o : Option (DeltaNode α)}
    {g : DeltaNode α → β} {b : β} (h : o.map g = some b) :
    ∃ n, o = some n ∧ g n = b :=
  Option.map_eq_some_iff.mp h

/-- Every entry's address was handed out by `malloc`, so a walk along
the entries fits the fuel. -/
theorem Rep.length_le {t : Table α} {es : List (Entry α)}
    {bs : Fin HT_SIZE → List Addr} (h : Rep c t es bs) :
    es.length ≤ t.brk := by
  have hsub : addrs es ⊆ List.range t.brk := by
    intro a ha
    obtain ⟨e, he, rfl⟩ := List.mem_map.mp ha
    by_contra hlt
    have := h.data e he
    rw [h.fresh e.addr (by simpa using hlt)] at this
    cases this
  have := (List.subperm_of_subset h.list.nodup hsub).length_le
  simpa [addrs] using this

/-- A bucket has no more nodes than were ever allocated, so the walk along
it has fuel enough. -/
theorem Rep.bucket_length_le {t : Table α} {es : List (Entry α)}
    {bs : Fin HT_SIZE → List Addr} (h : Rep c t es bs) (i : Fin HT_SIZE) :
    (bs i).length ≤ t.brk := by
  have hsub : bs i ⊆ List.range t.brk := by
    intro a ha
    obtain ⟨e, he, rfl, -⟩ := (h.hash.buckets i a).mp ha
    by_contra hlt
    have := h.data e he
    rw [h.fresh e.addr (by simpa using hlt)] at this
    cases this
  simpa using (List.subperm_of_subset (h.hash.nodup i) hsub).length_le

-- ================================================================ get_node

/-- The bucket walk past nodes that differ from `x`, up to a node that
equals it. -/
private theorem getNodeLoop_found {h : Heap Addr (DeltaNode α)} {x : α}
    {l₁ l₂ : List Addr} {a : Addr}
    (hc : Chain DeltaNode.htNext h (l₁ ++ a :: l₂) none)
    (hne : ∀ b ∈ l₁, ∀ n, h b = some n → c.equals n.data x = false)
    (ha : ∀ n, h a = some n → c.equals n.data x = true) :
    ∀ (k : Nat) (last : Option Addr), l₁.length < k →
      getNodeLoop c h x k (l₁ ++ a :: l₂).head? last
        = some (some a, l₁.getLast?.or last) := by
  induction l₁ with
  | nil =>
      intro k last hk
      obtain ⟨k, rfl⟩ : ∃ j, k = j + 1 := ⟨k - 1, by simp at hk; omega⟩
      obtain ⟨n, hn, -⟩ := live_of_map hc.1
      simp [getNodeLoop, hn, ha n hn]
  | cons b l ih =>
      intro k last hk
      obtain ⟨k, rfl⟩ : ∃ j, k = j + 1 := ⟨k - 1, by simp at hk; omega⟩
      obtain ⟨n, hn, hnext⟩ := live_of_map hc.1
      have hb := hne b (List.mem_cons_self ..) n hn
      have := ih hc.2 (fun d hd => hne d (List.mem_cons_of_mem _ hd))
        k (some b) (by simp at hk; omega)
      rw [Option.or_none, List.append_eq] at hnext
      rw [← hnext] at this
      simp only [List.cons_append, List.head?_cons, getNodeLoop, hn, hb,
        Bool.false_eq_true, ↓reduceIte, this, getLast?_cons_or]

/-- The bucket walk when no node of the chain equals `x`. -/
private theorem getNodeLoop_absent {h : Heap Addr (DeltaNode α)} {x : α}
    {l : List Addr} (hc : Chain DeltaNode.htNext h l none)
    (hne : ∀ b ∈ l, ∀ n, h b = some n → c.equals n.data x = false) :
    ∀ (k : Nat) (last : Option Addr), l.length < k →
      getNodeLoop c h x k l.head? last = some (none, l.getLast?.or last) := by
  induction l with
  | nil =>
      intro k last hk
      obtain ⟨k, rfl⟩ : ∃ j, k = j + 1 := ⟨k - 1, by simp at hk; omega⟩
      simp [getNodeLoop]
  | cons b l ih =>
      intro k last hk
      obtain ⟨k, rfl⟩ : ∃ j, k = j + 1 := ⟨k - 1, by simp at hk; omega⟩
      obtain ⟨n, hn, hnext⟩ := live_of_map hc.1
      have hb := hne b (List.mem_cons_self ..) n hn
      have := ih hc.2 (fun d hd => hne d (List.mem_cons_of_mem _ hd))
        k (some b) (by simp at hk; omega)
      rw [Option.or_none] at hnext
      rw [← hnext] at this
      simp only [List.head?_cons, getNodeLoop, hn, hb, Bool.false_eq_true,
        ↓reduceIte, this, getLast?_cons_or]

/-- What the table is promised of its functions on elements, and of its
interval. -/
structure Lawful (c : Conf α) : Prop where
  equiv : Equivalence fun a b => c.equals a b = true
  hash : ∀ a b, c.equals a b = true → c.hash a = c.hash b
  interval : 0 < c.interval.toNat

/-- Equal elements are looked for in the same bucket. -/
theorem Lawful.bucket_eq (hc : Lawful c) {x y : α}
    (h : c.equals x y = true) : bucket c x = bucket c y := by
  unfold bucket
  rw [Fin.mk.injEq, hc.hash x y h]

/-- A live node of a bucket holds the element of its entry. -/
theorem Rep.bucket_data {t : Table α} {es : List (Entry α)}
    {bs : Fin HT_SIZE → List Addr} (h : Rep c t es bs) {i : Fin HT_SIZE}
    {b : Addr} (hb : b ∈ bs i) {n : DeltaNode α} (hn : t.heap b = some n) :
    ∃ e ∈ es, e.addr = b ∧ e.data = n.data := by
  obtain ⟨e, he, rfl, -⟩ := (h.hash.buckets i b).mp hb
  have := h.data e he
  rw [hn, Option.map_some, Option.some.injEq] at this
  exact ⟨e, he, rfl, this.symm⟩

/-- `get_node` on an element that is not in the table. -/
theorem getNode_absent {t : Table α} {es : List (Entry α)}
    {bs : Fin HT_SIZE → List Addr} (h : Rep c t es bs) {x : α}
    (hx : ∀ e ∈ es, c.equals e.data x = false) :
    ∃ prev, getNode c t x = some (none, prev) := by
  refine ⟨(bs (bucket c x)).getLast?.or none, ?_⟩
  unfold getNode
  rw [h.hash.heads]
  refine getNodeLoop_absent (h.hash.chains _) (fun b hb n hn => ?_) _ _
    (Nat.lt_succ_of_le (h.bucket_length_le _))
  obtain ⟨e, he, -, hd⟩ := h.bucket_data hb hn
  rw [← hd]
  exact hx e he

/-- Looking up `x` can only end at the entry `e`: it is in the bucket of
`x` and equal to it, and the entries around it are not. -/
structure FoundAt (c : Conf α) (l₁ : List (Entry α)) (e : Entry α)
    (l₂ : List (Entry α)) (x : α) : Prop where
  here : c.equals e.data x = true
  home : bucket c e.data = bucket c x
  others : ∀ f ∈ l₁ ++ l₂, c.equals f.data x = false

/-- Among pairwise unequal elements an element is found at its equal. -/
theorem Lawful.foundAt (hc : Lawful c) {t : Table α}
    {l₁ l₂ : List (Entry α)} {e : Entry α} {bs : Fin HT_SIZE → List Addr}
    (h : Rep c t (l₁ ++ e :: l₂) bs) {x : α}
    (hx : c.equals e.data x = true) : FoundAt c l₁ e l₂ x := by
  refine ⟨hx, hc.bucket_eq hx, fun f hf => ?_⟩
  have hdist := h.distinct
  rw [elems_append, List.pairwise_append, elems_cons] at hdist
  by_contra hfx
  rw [Bool.not_eq_false] at hfx
  have hfe : c.equals f.data e.data = true :=
    hc.equiv.trans hfx (hc.equiv.symm hx)
  rcases List.mem_append.mp hf with hf | hf
  · have := hdist.2.2 f.data (List.mem_map_of_mem hf) e.data
      (List.mem_cons_self ..)
    rw [hfe] at this
    cases this
  · have := (List.pairwise_cons.mp hdist.2.1).1 f.data
      (List.mem_map_of_mem hf)
    rw [TimedSet.eq_comm' hc.equiv, hfe] at this
    cases this

/-- `get_node` on an element of the table: its node, and the node before
it in its bucket. -/
theorem getNode_at {t : Table α} {l₁ l₂ : List (Entry α)} {e : Entry α}
    {bs : Fin HT_SIZE → List Addr} (h : Rep c t (l₁ ++ e :: l₂) bs) {x : α}
    (hx : FoundAt c l₁ e l₂ x) :
    ∃ b₁ b₂, bs (bucket c x) = b₁ ++ e.addr :: b₂
      ∧ getNode c t x = some (some e.addr, b₁.getLast?) := by
  have hmem : e.addr ∈ bs (bucket c x) :=
    (h.hash.buckets _ _).mpr ⟨e, by simp, rfl, hx.home⟩
  obtain ⟨b₁, b₂, hb⟩ := List.append_of_mem hmem
  have hnd := h.hash.nodup (bucket c x)
  have hlen := h.bucket_length_le (bucket c x)
  have hchain := h.hash.chains (bucket c x)
  refine ⟨b₁, b₂, hb, ?_⟩
  unfold getNode
  rw [h.hash.heads]
  rw [hb] at hnd hlen hchain ⊢
  rw [getNodeLoop_found hchain ?before ?here _ _
    (by simp at hlen; omega), Option.or_none]
  case before =>
    intro b hb₁ n hn
    obtain ⟨f, hf, rfl, hfd⟩ := h.bucket_data
      (i := bucket c x) (by rw [hb]; exact List.mem_append_left _ hb₁) hn
    have hne : f ≠ e := by
      intro heq
      subst heq
      exact (List.nodup_append.mp hnd).2.2 _ hb₁ _
        (List.mem_cons_self ..) rfl
    rw [← hfd]
    apply hx.others f
    rcases List.mem_append.mp hf with hf | hf
    · exact List.mem_append_left _ hf
    · rcases List.mem_cons.mp hf with rfl | hf
      · exact absurd rfl hne
      · exact List.mem_append_right _ hf
  case here =>
    intro n hn
    have := h.data e (by simp)
    rw [hn, Option.map_some, Option.some.injEq] at this
    rw [this]
    exact hx.here

/-- `get_node` finds the entry equal to its argument, with the node before
it in its bucket. -/
theorem getNode_found (hc : Lawful c) {t : Table α}
    {l₁ l₂ : List (Entry α)} {e : Entry α} {bs : Fin HT_SIZE → List Addr}
    (h : Rep c t (l₁ ++ e :: l₂) bs) {x : α}
    (hx : c.equals e.data x = true) :
    ∃ b₁ b₂, bs (bucket c x) = b₁ ++ e.addr :: b₂
      ∧ getNode c t x = some (some e.addr, b₁.getLast?) :=
  getNode_at h (hc.foundAt h hx)

-- ========================================================== dl_remove_node

/-- The entry at `e` in a list half, with its links. -/
theorem ListRep.at {t : Table α} {l₁ l₂ : List (Entry α)} {e : Entry α}
    (h : ListRep c t (l₁ ++ e :: l₂)) :
    ∃ n, t.heap e.addr = some n ∧ n.dlNext = (addrs l₂).head?
      ∧ n.dlPrev = (addrs l₁).getLast? ∧ n.delta.toNat = e.delta := by
  have hseg := h.linked
  rw [addrs_append, addrs_cons, seg_append, seg_cons] at hseg
  obtain ⟨n, hn, hnext⟩ := live_of_map hseg.2.1
  have hprev := hseg.2.2.1
  have hd := h.delta e (by simp)
  rw [hn, Option.map_some, Option.some.injEq] at hprev hd
  rw [Option.or_none] at hnext hprev
  exact ⟨n, hn, hnext, hprev, hd⟩

/-- The node of an entry is none of the others'. -/
theorem ListRep.off {t : Table α} {l₁ l₂ : List (Entry α)} {e : Entry α}
    (h : ListRep c t (l₁ ++ e :: l₂)) : e.addr ∉ addrs (l₁ ++ l₂) := by
  have hnd := h.nodup
  rw [addrs_append, addrs_cons, List.nodup_middle, ← addrs_append] at hnd
  exact (List.nodup_cons.mp hnd).1

/-- Nor is it when the difference of the entry is passed on. -/
theorem ListRep.off_passE {t : Table α} {l₁ l₂ : List (Entry α)}
    {e : Entry α} (h : ListRep c t (l₁ ++ e :: l₂)) (d : Nat) :
    e.addr ∉ addrs (l₁ ++ passE d l₂) := by
  rw [addrs_append, addrs_passE, ← addrs_append]
  exact h.off

/-- Without an entry, and its difference passed on, the others are where
they were. -/
theorem Rep.data_passE {t : Table α} {l₁ l₂ : List (Entry α)}
    {e : Entry α} {bs : Fin HT_SIZE → List Addr}
    (h : Rep c t (l₁ ++ e :: l₂) bs) {d : Nat} {f : Entry α}
    (hf : f ∈ l₁ ++ passE d l₂) :
    (t.heap f.addr).map (·.data) = some f.data := by
  rcases List.mem_append.mp hf with hf | hf
  · exact h.data f (by simp [hf])
  · obtain ⟨g, hg, hga, hgd⟩ := mem_passE hf
    rw [← hga, ← hgd]
    exact h.data g (by simp [hg])

/-- A store through a pointer to a live node. -/
theorem Table.write_eq {t : Table α} {a : Addr} {n : DeltaNode α}
    (f : DeltaNode α → DeltaNode α) (hn : t.heap a = some n) :
    t.write a f
      = some { t with heap := Function.update t.heap a (some (f n)) } := by
  unfold Table.write
  rw [hn]

/-- A store that keeps the element and the chain link keeps the hash
half. -/
private theorem keepsHash_update {t t' : Table α} {a : Addr}
    {n n' : DeltaNode α} (hn : t.heap a = some n)
    (hheap : t'.heap = Function.update t.heap a (some n'))
    (hd : n'.data = n.data) (hl : n'.htNext = n.htNext)
    (htable : t'.table = t.table) (hsize : t'.size = t.size)
    (hbrk : t'.brk = t.brk) : KeepsHash t t' where
  table := htable
  size := hsize
  brk := hbrk
  data b := by rw [hheap]; exact map_update _ hn _ hd b
  htNext b := by rw [hheap]; exact map_update _ hn _ hl b

/-- What `dl_remove_node` has established between its two `if`s: the
part after the node is linked back past it, the part before still leads
to it, and the differences are those of the list without it. -/
structure Unlinked (c : Conf α) (t : Table α) (l₁ : List (Entry α))
    (e : Entry α) (l₂ : List (Entry α)) : Prop where
  before : Seg DeltaNode.dlNext DeltaNode.dlPrev t.heap none (addrs l₁)
    (some e.addr)
  after : Seg DeltaNode.dlNext DeltaNode.dlPrev t.heap
    (addrs l₁).getLast? (addrs l₂) none
  delta : ∀ f ∈ l₁ ++ passE e.delta l₂,
    (t.heap f.addr).map (·.delta.toNat) = some f.delta
  sum : t.delta.toNat = TimedSet.total (diffs (l₁ ++ passE e.delta l₂))
  le : t.delta ≤ c.interval

/-- The first half of `dl_remove_node`: the node after is linked past the
removed one and takes over its difference, or the table's sum gives it up.
-/
theorem unlinkNext_spec {t : Table α} {l₁ l₂ : List (Entry α)}
    {e : Entry α} {n : DeltaNode α} (h : ListRep c t (l₁ ++ e :: l₂))
    (hn : t.heap e.addr = some n) :
    ∃ t', unlinkNext t n = some t' ∧ Unlinked c t' l₁ e l₂
      ∧ t'.heap e.addr = some n ∧ KeepsHash t t'
      ∧ t'.deltaHead = t.deltaHead ∧ t'.deltaTail = t.deltaTail
      ∧ t'.wrapped = t.wrapped := by
  obtain ⟨n₀, hn₀, hnext, hprev, hdelta⟩ := h.at
  rw [hn, Option.some.injEq] at hn₀
  subst hn₀
  have hseg := h.linked
  rw [addrs_append, addrs_cons, seg_append, seg_cons] at hseg
  obtain ⟨hbefore, -, -, hafter⟩ := hseg
  have hnd := h.nodup
  rw [addrs_append, addrs_cons, List.nodup_append, List.nodup_cons] at hnd
  obtain ⟨hnd₁, ⟨hen₂, hnd₂⟩, hdisj⟩ := hnd
  have hsum := h.sum
  rw [diffs_append, diffs_cons, TimedSet.total_append,
    TimedSet.total_cons] at hsum
  cases l₂ with
  | nil =>
      -- no successor: the difference comes off the sum
      have hle : n.delta ≤ t.delta := by
        rw [UInt32.le_iff_toNat_le, hdelta]
        simp only [diffs_nil, TimedSet.total_nil] at hsum
        omega
      simp only [addrs_nil, List.head?_nil] at hnext
      refine ⟨{ t with
          delta := t.delta - n.delta
          wrapped := t.wrapped || decide (t.delta < n.delta) },
        by unfold unlinkNext; rw [hnext]; rfl,
        ⟨hbefore, trivial, ?_, ?_, ?_⟩, hn,
        ⟨rfl, rfl, rfl, fun _ => rfl, fun _ => rfl⟩, rfl, rfl, ?_⟩
      · intro f hf
        exact h.delta f (by simp [passE] at hf; simp [hf])
      · show (t.delta - n.delta).toNat = _
        rw [UInt32.toNat_sub_of_le _ _ hle, hdelta]
        simp only [diffs_nil, TimedSet.total_nil, passE, diffs_append,
          TimedSet.total_append] at hsum ⊢
        omega
      · show t.delta - n.delta ≤ c.interval
        rw [UInt32.le_iff_toNat_le, UInt32.toNat_sub_of_le _ _ hle]
        have := h.le
        rw [UInt32.le_iff_toNat_le] at this
        omega
      · show (t.wrapped || decide (t.delta < n.delta)) = t.wrapped
        rw [decide_eq_false (by
          rw [UInt32.lt_iff_toNat_lt]
          rw [UInt32.le_iff_toNat_le] at hle
          omega), Bool.or_false]
  | cons f l =>
      simp only [addrs_cons, List.head?_cons] at hnext
      -- the successor takes the difference over
      obtain ⟨m, hm, hmd⟩ := live_of_map (h.delta f (by simp))
      have hfe : e.addr ≠ f.addr := by
        intro heq
        exact hen₂ (by rw [heq]; exact List.mem_cons_self ..)
      have hf₁ : f.addr ∉ addrs l₁ := fun hb =>
        hdisj _ hb f.addr (by simp) rfl
      have hfl : f.addr ∉ addrs l := (List.nodup_cons.mp hnd₂).1
      -- the successor's new difference does not wrap
      have hadd : (m.delta + n.delta).toNat = f.delta + e.delta := by
        have hlt := t.delta.toNat_lt
        simp only [diffs_cons, TimedSet.total_cons] at hsum
        rw [UInt32.toNat_add, hmd, hdelta, Nat.mod_eq_of_lt (by omega)]
      refine ⟨{ t with
          heap := Function.update t.heap f.addr (some
            { m with delta := m.delta + n.delta, dlPrev := n.dlPrev }) },
        ?_, ⟨?_, ?_, ?_, ?_, h.le⟩, ?_, ?_, rfl, rfl, rfl⟩
      · unfold unlinkNext
        rw [hnext]
        exact t.write_eq _ hm
      · exact hbefore.update hf₁
      · rw [← hprev]
        exact Seg.setFirst hafter hfl hm rfl rfl
      · intro g hg
        rcases List.mem_append.mp hg with hg | hg
        · show (Function.update t.heap f.addr _ g.addr).map _ = _
          rw [Function.update_of_ne (ne_of_mem_of_not_mem
            (List.mem_map_of_mem hg) hf₁)]
          exact h.delta g (by simp [hg])
        · rcases List.mem_cons.mp hg with rfl | hg
          · show (Function.update t.heap f.addr _ f.addr).map _ = _
            rw [Function.update_self, Option.map_some, hadd]
          · show (Function.update t.heap f.addr _ g.addr).map _ = _
            rw [Function.update_of_ne (ne_of_mem_of_not_mem
              (List.mem_map_of_mem hg) hfl)]
            exact h.delta g (by simp [hg])
      · show t.delta.toNat = _
        simp only [diffs_cons, diffs_append, TimedSet.total_cons,
          TimedSet.total_append, passE] at hsum ⊢
        omega
      · show Function.update t.heap f.addr _ e.addr = _
        rw [Function.update_of_ne hfe, hn]
      · exact keepsHash_update hm rfl rfl rfl rfl rfl rfl

/-- The second half: the node before, or the table, is linked past it too.
-/
theorem unlinkPrev_spec {t : Table α} {l₁ l₂ : List (Entry α)}
    {e : Entry α} {n : DeltaNode α} (hu : Unlinked c t l₁ e l₂)
    (hnd : (addrs (l₁ ++ e :: l₂)).Nodup)
    (hhead : t.deltaHead = (addrs (l₁ ++ e :: l₂)).head?)
    (hnext : n.dlNext = (addrs l₂).head?)
    (hprev : n.dlPrev = (addrs l₁).getLast?) :
    ∃ t', unlinkPrev t n = some t'
      ∧ ListRep c t' (l₁ ++ passE e.delta l₂) ∧ KeepsHash t t'
      ∧ t'.deltaTail = t.deltaTail ∧ t'.wrapped = t.wrapped := by
  rw [addrs_append, addrs_cons, List.nodup_append, List.nodup_cons] at hnd
  obtain ⟨hnd₁, ⟨hen₂, hnd₂⟩, hdisj⟩ := hnd
  have hnd' : (addrs (l₁ ++ passE e.delta l₂)).Nodup := by
    rw [addrs_append, addrs_passE, List.nodup_append]
    exact ⟨hnd₁, hnd₂, fun a ha b hb =>
      hdisj a ha b (List.mem_cons_of_mem _ hb)⟩
  rcases List.eq_nil_or_concat (addrs l₁) with hl₁ | ⟨A, p, hl₁⟩
  · -- the node was the head
    have hl₁' : l₁ = [] := List.map_eq_nil_iff.mp hl₁
    subst hl₁'
    refine ⟨{ t with deltaHead := n.dlNext },
      by unfold unlinkPrev; rw [hprev]; rfl, ?_,
      ⟨rfl, rfl, rfl, fun _ => rfl, fun _ => rfl⟩, rfl, rfl⟩
    refine ⟨?_, ?_, hnd', hu.delta, hu.sum, hu.le⟩
    · have := hu.after
      simpa using this
    · show n.dlNext = _
      simpa using hnext
  · have hpne : p ∉ A := by
      rw [hl₁, List.concat_eq_append] at hnd₁
      intro hp
      exact (List.nodup_append.mp hnd₁).2.2 p hp p (by simp) rfl
    have hp₂ : p ∉ addrs l₂ := fun hb =>
      hdisj p (by simp [hl₁]) p (List.mem_cons_of_mem _ hb) rfl
    have hbefore := hu.before
    rw [hl₁, List.concat_eq_append] at hbefore
    obtain ⟨m, hm, -⟩ := live_of_map ((seg_append.mp hbefore).2.1)
    have hnp : n.dlPrev = some p := by
      rw [hprev, hl₁, List.concat_eq_append, List.getLast?_concat]
    refine ⟨{ t with
        heap := Function.update t.heap p (some { m with dlNext := n.dlNext }) },
      ?_, ⟨?_, ?_, hnd', ?_, hu.sum, hu.le⟩, ?_, rfl, rfl⟩
    · unfold unlinkPrev
      rw [hnp]
      exact t.write_eq _ hm
    · rw [addrs_append, addrs_passE, seg_append, hl₁, List.concat_eq_append]
      refine ⟨?_, ?_⟩
      · exact Seg.setLast hbefore hpne hm (by rw [hnext, Option.or_none]) rfl
      · have := hu.after
        rw [hl₁, List.concat_eq_append] at this
        rw [Option.or_none]
        exact this.update hp₂
    · show t.deltaHead = _
      rw [hhead, addrs_append, addrs_append, hl₁]
      cases A <;> simp
    · intro f hf
      have := map_update (fun k : DeltaNode α => k.delta.toNat) hm
        { m with dlNext := n.dlNext } rfl f.addr
      show (Function.update t.heap p _ f.addr).map _ = _
      rw [this]
      exact hu.delta f hf
    · exact keepsHash_update hm rfl rfl rfl rfl rfl rfl

/-- `dl_remove_node` takes an entry off the list and hands its
difference to its successor. -/
theorem dlRemoveNode_spec {t : Table α} {l₁ l₂ : List (Entry α)}
    {e : Entry α} (h : ListRep c t (l₁ ++ e :: l₂)) :
    ∃ t', dlRemoveNode t e.addr = some t'
      ∧ ListRep c t' (l₁ ++ passE e.delta l₂) ∧ KeepsHash t t'
      ∧ t'.deltaTail = t.deltaTail ∧ t'.wrapped = t.wrapped := by
  obtain ⟨n, hn, hnext, hprev, -⟩ := h.at
  obtain ⟨t₁, ht₁, hu, hn₁, hk₁, hhead₁, htail₁, hw₁⟩ := unlinkNext_spec h hn
  obtain ⟨t₂, ht₂, hl, hk₂, htail₂, hw₂⟩ := unlinkPrev_spec hu h.nodup
    (hhead₁.trans h.head) hnext hprev
  refine ⟨t₂, ?_, hl, hk₁.trans hk₂, htail₂.trans htail₁, hw₂.trans hw₁⟩
  simp only [dlRemoveNode, hn, ht₁, hn₁, ht₂, Option.bind_eq_bind,
    Option.bind_some]

-- ========================================================== dl_insert_node

/-- `dl_insert_node` on an empty list. -/
private theorem dlInsertNode_empty {t : Table α} {a : Addr} {n : DeltaNode α}
    (hn : t.heap a = some n) (hhead : t.deltaHead = none) :
    dlInsertNode c t a = some { t with
      delta := c.interval
      deltaHead := some a
      deltaTail := some a
      heap := Function.update t.heap a (some
        { n with delta := c.interval, dlPrev := none, dlNext := none }) } := by
  simp [dlInsertNode, Table.write, hn, hhead]

/-- `dl_insert_node` behind a live tail. -/
private theorem dlInsertNode_cons {t : Table α} {a f h : Addr}
    {n m : DeltaNode α} (hn : t.heap a = some n)
    (hhead : t.deltaHead = some h) (htail : t.deltaTail = some f)
    (hm : t.heap f = some m) (hfa : f ≠ a) :
    dlInsertNode c t a = some { t with
      delta := c.interval
      deltaTail := some a
      wrapped := t.wrapped || decide (c.interval < t.delta)
      heap := Function.update
        (Function.update t.heap f (some { m with dlNext := some a }))
        a (some { n with delta := c.interval - t.delta, dlPrev := some f,
                         dlNext := none }) } := by
  have haf := hfa.symm
  simp only [dlInsertNode, Table.write, Table.noteSub, hn, hhead, htail, hm,
    hfa, haf, Option.bind_eq_bind, Option.bind_some, Function.update_self,
    Function.update_of_ne, Function.update_idem, ne_eq, not_false_eq_true,
    Option.pure_def, Option.some.injEq, Table.mk.injEq, true_and, and_true]
  rw [Function.update_comm haf, Function.update_idem]

/-- The entry `dl_insert_node` adds: it has `interval` ticks left. -/
def lastEntry (c : Conf α) (es : List (Entry α)) (a : Addr) (x : α) :
    Entry α :=
  ⟨a, x, c.interval.toNat - TimedSet.total (diffs es)⟩

/-- `dl_insert_node` puts a node last, with all its ticks, provided the
tail it links behind is the last node. -/
theorem dlInsertNode_spec {t : Table α} {es : List (Entry α)} {a : Addr}
    {n : DeltaNode α} (h : ListRep c t es) (hn : t.heap a = some n)
    (ha : a ∉ addrs es) (htail : TailLive t es) :
    ∃ t', dlInsertNode c t a = some t'
      ∧ ListRep c t' (es ++ [lastEntry c es a n.data]) ∧ KeepsHash t t'
      ∧ t'.deltaTail = some a ∧ t'.wrapped = t.wrapped := by
  have hle := h.le
  rw [UInt32.le_iff_toNat_le, h.sum] at hle
  have hsum : c.interval.toNat = TimedSet.total
      (diffs (es ++ [lastEntry c es a n.data])) := by
    simp only [diffs_append, diffs_cons, diffs_nil, TimedSet.total_append,
      TimedSet.total_cons, TimedSet.total_nil, lastEntry]
    omega
  have hnd : (addrs (es ++ [lastEntry c es a n.data])).Nodup := by
    rw [addrs_append, List.nodup_append]
    refine ⟨h.nodup, by simp, fun b hb d hd => ?_⟩
    rw [List.mem_singleton.mp hd]
    exact ne_of_mem_of_not_mem hb ha
  rcases List.eq_nil_or_concat es with rfl | ⟨es', f, rfl⟩
  · refine ⟨_, dlInsertNode_empty hn h.head, ⟨?_, rfl, hnd, ?_, hsum,
      UInt32.le_refl _⟩, keepsHash_update hn rfl rfl rfl rfl rfl rfl, rfl, rfl⟩
    · refine ⟨?_, ?_, trivial⟩
      · simp [lastEntry]
      · simp [lastEntry]
    · intro e he
      rw [List.mem_singleton.mp he]
      simp [lastEntry]
  · rw [List.concat_eq_append] at *
    -- the new node goes behind the tail, which is the last node
    have hlast : t.deltaTail = some f.addr := by
      rw [htail (by simp)]
      simp
    obtain ⟨m, hm, hmnext, hmprev, hmd⟩ :=
      (show ListRep c t (es' ++ f :: []) from h).at
    have hfa : f.addr ≠ a := by
      intro heq
      subst heq
      exact ha (by simp)
    have hhead : ∃ b, t.deltaHead = some b := by
      rw [h.head]
      cases es' <;> simp
    obtain ⟨b, hb⟩ := hhead
    have hnd' := h.nodup
    rw [addrs_append, List.nodup_append] at hnd'
    have hf' : f.addr ∉ addrs es' := fun hf =>
      hnd'.2.2 _ hf _ (List.mem_cons_self ..) rfl
    have ha' : a ∉ addrs es' := fun hin => ha (by simp [hin])
    -- its difference is what the others leave of the interval
    have hsub : c.interval.toNat - TimedSet.total (diffs (es' ++ [f]))
        = (c.interval - t.delta).toNat := by
      rw [UInt32.toNat_sub_of_le _ _ h.le, h.sum]
    have han : Function.update t.heap f.addr
        (some { m with dlNext := some a }) a = some n := by
      rw [Function.update_of_ne hfa.symm, hn]
    refine ⟨_, dlInsertNode_cons hn hb hlast hm hfa, ⟨?_, ?_, hnd, ?_, hsum,
      UInt32.le_refl _⟩, ?_, rfl, ?_⟩
    · -- the old list now ends at the new node
      rw [addrs_append, seg_append]
      refine ⟨?_, ?_, ?_, trivial⟩
      · have := h.linked
        rw [addrs_append] at this
        apply Seg.update ha
        simp only [lastEntry, addrs_append, addrs_cons, addrs_nil]
        exact Seg.setLast this hf' hm rfl rfl
      · simp [lastEntry]
      · simp [lastEntry]
    · show t.deltaHead = _
      rw [h.head]
      cases es' <;> simp
    · intro e he
      rcases List.mem_append.mp he with he | he
      · have hea : e.addr ≠ a :=
          ne_of_mem_of_not_mem (List.mem_map_of_mem he) ha
        dsimp only
        rw [Function.update_of_ne hea,
          map_update (fun k : DeltaNode α => k.delta.toNat) hm
            { m with dlNext := some a } rfl]
        exact h.delta e he
      · rw [List.mem_singleton.mp he]
        simp only [lastEntry, Function.update_self, Option.map_some, hsub]
    · have h1 : KeepsHash t
          { t with
            heap := Function.update t.heap f.addr
              (some { m with dlNext := some a }) } :=
        keepsHash_update hm rfl rfl rfl rfl rfl rfl
      exact h1.trans (keepsHash_update han rfl rfl rfl rfl rfl rfl)
    · show (t.wrapped || decide (c.interval < t.delta)) = t.wrapped
      rw [decide_eq_false (UInt32.not_lt.mpr h.le), Bool.or_false]

end Psnet.DeltaList
