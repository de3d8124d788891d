/-
What each interface function of the delta list does to a represented
table, and why it returns at all.

Every lemma has the same shape: from `Rep c t es bs` the function
returns some table, which again represents a list of entries, and the
new list is spelled out. The two functions that link a node behind the
tail (`delta_insert`, `delta_update`) need `TailLive` for the list they
link behind, unless that list is empty; the others do not care where
`delta_tail` points.

# The lists that come out

- `delta_delete` leaves its entry out and passes the entry's difference
  on to the one after it (`deltaDelete_at`);
- `delta_tick` takes one from the first difference and frees the entries
  that have nothing left then, the run of zeros at the front
  (`deltaTick_spec`);
- `delta_insert` and `delta_update` put an entry behind all others, whose
  difference is what the interval exceeds the sum of theirs by
  (`lastEntry`).

A removal has two sides: the node leaves its bucket (`hashUnlink_spec`)
and then the list (`dlRemoveNode_spec` of the module before this one).
Between the two the table represents no list of entries, which is why the
halves of `Rep` are relations of their own.
-/
import Psnet.DeltaList.Rep

namespace Psnet.DeltaList

open Linked

variable {α : Type} {c : Conf α}

-- ================================================== hash side of a removal

/-- `t'` differs from `t` at most in the chain fields. -/
structure KeepsList (t t' : Table α) : Prop where
  delta : t'.delta = t.delta
  head : t'.deltaHead = t.deltaHead
  tail : t'.deltaTail = t.deltaTail
  size : t'.size = t.size
  brk : t'.brk = t.brk
  wrapped : t'.wrapped = t.wrapped
  node : ∀ a, (t'.heap a).map (fun n => { n with htNext := none })
    = (t.heap a).map fun n => { n with htNext := none }

/-- A projection that does not read the chain link is kept. -/
theorem KeepsList.map {β : Type} {t t' : Table α} (h : KeepsList t t')
    (g : DeltaNode α → β) (hg : ∀ n, g { n with htNext := none } = g n)
    (a : Addr) : (t'.heap a).map g = (t.heap a).map g := by
  have hcomp : g ∘ (fun n : DeltaNode α => { n with htNext := none }) = g :=
    funext hg
  have := congrArg (Option.map g) (h.node a)
  rwa [Option.map_map, Option.map_map, hcomp] at this

/-- The list half of a representation needs no more than that. -/
theorem ListRep.keeps {t t' : Table α} {es : List (Entry α)}
    (h : ListRep c t es) (hk : KeepsList t t') : ListRep c t' es where
  linked := h.linked.congr
    (fun a _ => hk.map DeltaNode.dlNext (fun _ => rfl) a)
    (fun a _ => hk.map DeltaNode.dlPrev (fun _ => rfl) a)
  head := by rw [hk.head, h.head]
  nodup := h.nodup
  delta e he := by
    rw [hk.map (fun n => n.delta.toNat) (fun _ => rfl)]
    exact h.delta e he
  sum := by rw [hk.delta, h.sum]
  le := by rw [hk.delta]; exact h.le

/-- Where each element is, whatever the order and the differences. -/
def places (es : List (Entry α)) : List (Addr × α) :=
  es.map fun e => (e.addr, e.data)

/-- The hash half only depends on where each element is. -/
theorem HashRep.ofPerm {t : Table α} {es fs : List (Entry α)}
    {bs : Fin HT_SIZE → List Addr} (h : HashRep c t es bs)
    (hp : (places fs).Perm (places es)) : HashRep c t fs bs := by
  have hmem : ∀ (gs : List (Entry α)) a i,
      (∃ e ∈ gs, e.addr = a ∧ bucket c e.data = i)
        ↔ ∃ p ∈ places gs, p.1 = a ∧ bucket c p.2 = i := by
    intro gs a i
    simp only [places, List.mem_map]
    constructor
    · intro h
      obtain ⟨e, he, ha, hi⟩ := h
      exact ⟨_, ⟨e, he, rfl⟩, ha, hi⟩
    · intro h
      obtain ⟨p, ⟨e, he, rfl⟩, ha, hi⟩ := h
      exact ⟨e, he, ha, hi⟩
  apply h.entries
  intro a i
  rw [hmem fs, hmem es]
  simp only [hp.mem_iff]

/-- Passing a difference on leaves every element in its place. -/
private theorem places_passE (d : Nat) (es : List (Entry α)) :
    places (passE d es) = places es := by cases es <;> rfl

/-- Moving an entry to the end moves no element. -/
private theorem places_move (l₁ l₂ : List (Entry α)) (e : Entry α)
    (d d' : Nat) :
    (places (l₁ ++ passE d l₂ ++ [⟨e.addr, e.data, d'⟩])).Perm
      (places (l₁ ++ e :: l₂)) := by
  simp only [places, List.map_append, List.map_cons, List.map_nil]
  rw [show (passE d l₂).map (fun e => (e.addr, e.data))
    = places l₂ from places_passE d l₂]
  exact (List.perm_append_singleton _ _).trans List.perm_middle.symm

/-- The elements in order, read off their places. -/
private theorem elems_eq_places (es : List (Entry α)) :
    elems es = (places es).map Prod.snd := by
  simp [elems, places]

section Unlink

variable {t : Table α} {es l₁ l₂ : List (Entry α)} {e : Entry α}
  {bs : Fin HT_SIZE → List Addr} {i k : Fin HT_SIZE} {b₁ b₂ : List Addr}
  {a p : Addr} {m n : DeltaNode α}

/-- A node is in one bucket only: that of its element. -/
theorem Rep.bucket_unique (h : Rep c t es bs) (hi : a ∈ bs i)
    (hk : a ∈ bs k) : i = k := by
  obtain ⟨f, hf, rfl, hfi⟩ := (h.hash.buckets i a).mp hi
  obtain ⟨g, hg, hgf, hgk⟩ := (h.hash.buckets k f.addr).mp hk
  have hdata := h.data f hf
  rw [← hgf, h.data g hg, Option.some.injEq] at hdata
  exact hfi.symm.trans ((congrArg (bucket c) hdata).symm.trans hgk)

/-- Without a node, the buckets hold no node twice. -/
private theorem nodup_unlinked (hnd : ∀ i, (bs i).Nodup)
    (hb : bs k = b₁ ++ a :: b₂) (i : Fin HT_SIZE) :
    (Function.update bs k (b₁ ++ b₂) i).Nodup := by
  by_cases hi : i = k
  · subst hi
    rw [Function.update_self]
    have hi := hnd i
    rw [hb] at hi
    exact hi.sublist ((List.sublist_cons_self a b₂).append_left b₁)
  · rw [Function.update_of_ne hi]
    exact hnd i

/-- Without a node, the buckets hold the other nodes. -/
theorem Rep.mem_unlinked_iff (h : Rep c t es bs)
    (hb : bs k = b₁ ++ a :: b₂) (b : Addr) :
    b ∈ Function.update bs k (b₁ ++ b₂) i ↔ b ∈ bs i ∧ b ≠ a := by
  by_cases hi : i = k
  · subst hi
    have hnd := h.hash.nodup i
    rw [hb, List.nodup_append, List.nodup_cons] at hnd
    rw [Function.update_self, hb, List.mem_append, List.mem_append,
      List.mem_cons]
    constructor
    · intro hmem
      refine ⟨hmem.imp_right Or.inr, fun hba => ?_⟩
      subst hba
      exact hmem.elim (fun hb₁ => hnd.2.2 _ hb₁ _ (List.mem_cons_self ..) rfl)
        hnd.2.1.1
    · intro hmem
      obtain ⟨hmem, hne⟩ := hmem
      exact hmem.imp_right fun hmem => hmem.resolve_left hne
  · rw [Function.update_of_ne hi]
    refine (and_iff_left_of_imp fun hmem hba => hi ?_).symm
    exact h.bucket_unique (hba ▸ hmem) (by rw [hb]; simp)

/-- What the buckets hold without the node of an entry. -/
theorem Rep.buckets_unlinked (h : Rep c t (l₁ ++ e :: l₂) bs)
    (hb : bs k = b₁ ++ e.addr :: b₂) (i : Fin HT_SIZE) (a : Addr) :
    a ∈ Function.update bs k (b₁ ++ b₂) i
      ↔ ∃ f ∈ l₁ ++ l₂, f.addr = a ∧ bucket c f.data = i := by
  have hoff := h.list.off
  rw [h.mem_unlinked_iff hb, h.hash.buckets]
  constructor
  · intro hmem
    obtain ⟨⟨f, hf, rfl, hfi⟩, hne⟩ := hmem
    refine ⟨f, ?_, rfl, hfi⟩
    rcases List.mem_append.mp hf with hf | hf
    · exact List.mem_append_left _ hf
    · refine List.mem_append_right _ ((List.mem_cons.mp hf).resolve_left ?_)
      exact fun hfe => hne (hfe ▸ rfl)
  · intro hmem
    obtain ⟨f, hf, rfl, hfi⟩ := hmem
    refine ⟨⟨f, ?_, rfl, hfi⟩, fun hfe => hoff ?_⟩
    · rcases List.mem_append.mp hf with hf | hf
      · exact List.mem_append_left _ hf
      · exact List.mem_append_right _ (List.mem_cons_of_mem _ hf)
    · exact hfe ▸ List.mem_map_of_mem hf

/-- The first node of a bucket is taken out through the table. -/
theorem HashRep.unlinkFirst (h : HashRep c t es bs) (hb : bs k = a :: b₂)
    (hn : t.heap a = some n) (i : Fin HT_SIZE) :
    Chain DeltaNode.htNext t.heap (Function.update bs k b₂ i) none
      ∧ Function.update t.table k n.htNext i
        = (Function.update bs k b₂ i).head? := by
  by_cases hi : i = k
  · subst hi
    have hchain := h.chains i
    rw [hb, chain_cons, hn, Option.map_some, Option.some.injEq,
      Option.or_none] at hchain
    simp only [Function.update_self]
    exact ⟨hchain.2, hchain.1⟩
  · simp only [Function.update_of_ne hi]
    exact ⟨h.chains i, h.heads i⟩

/-- A node behind another is taken out through the link of that one. -/
theorem HashRep.unlinkBehind (h : HashRep c t es bs)
    (hb : bs k = (b₁ ++ [p]) ++ a :: b₂) (hn : t.heap a = some n)
    (hother : ∀ i, i ≠ k → p ∉ bs i) (i : Fin HT_SIZE) :
    Chain DeltaNode.htNext
        (Function.update t.heap p (some { m with htNext := n.htNext }))
        (Function.update bs k (b₁ ++ [p] ++ b₂) i) none
      ∧ t.table i = (Function.update bs k (b₁ ++ [p] ++ b₂) i).head? := by
  by_cases hi : i = k
  · subst hi
    have hchain := h.chains i
    have hnd := h.nodup i
    rw [hb, chain_append] at hchain
    rw [hb, List.nodup_append] at hnd
    obtain ⟨hfront, hnext, hrest⟩ := hchain
    rw [hn, Option.map_some, Option.some.injEq, Option.or_none] at hnext
    have hpfront : p ∉ b₁ := fun hp =>
      (List.nodup_append.mp hnd.1).2.2 p hp p (by simp) rfl
    have hprest : p ∉ b₂ := fun hp =>
      hnd.2.2 p (by simp) p (List.mem_cons_of_mem _ hp) rfl
    rw [Function.update_self, chain_append, h.heads, hb]
    refine ⟨⟨Chain.setLast hfront hpfront (by rw [hnext, Option.or_none]),
      hrest.update hprest⟩, ?_⟩
    cases b₁ <;> simp
  · rw [Function.update_of_ne hi]
    exact ⟨(h.chains i).update (hother i hi), h.heads i⟩

/-- Taking a node out of its bucket. -/
theorem hashUnlink_spec {x : α} (h : Rep c t (l₁ ++ e :: l₂) bs)
    (hb : bs (bucket c x) = b₁ ++ e.addr :: b₂)
    (hn : t.heap e.addr = some n) :
    ∃ t', hashUnlink c t x b₁.getLast? n = some t'
      ∧ HashRep c t' (l₁ ++ l₂)
          (Function.update bs (bucket c x) (b₁ ++ b₂))
      ∧ KeepsList t t' := by
  have hnodup := nodup_unlinked h.hash.nodup hb
  have hbuckets := h.buckets_unlinked hb
  rcases List.eq_nil_or_concat b₁ with rfl | ⟨b₁, p, rfl⟩
  · have hrest := h.hash.unlinkFirst hb hn
    exact ⟨_, rfl, ⟨fun i => (hrest i).1, fun i => (hrest i).2, hnodup,
      hbuckets⟩, ⟨rfl, rfl, rfl, rfl, rfl, rfl, fun _ => rfl⟩⟩
  · rw [List.concat_eq_append] at *
    have hchain := h.hash.chains (bucket c x)
    rw [hb, chain_append] at hchain
    obtain ⟨m, hm, -⟩ := live_of_map (chain_append.mp hchain.1).2.1
    have hrest := h.hash.unlinkBehind (m := m) hb hn fun i hi hp =>
      hi (h.bucket_unique hp (by rw [hb]; simp))
    refine ⟨{ t with
        heap := Function.update t.heap p (some { m with htNext := n.htNext }) },
      ?_, ⟨fun i => (hrest i).1, fun i => (hrest i).2, hnodup, hbuckets⟩,
      ⟨rfl, rfl, rfl, rfl, rfl, rfl, fun a => ?_⟩⟩
    · rw [List.getLast?_concat]
      exact t.write_eq _ hm
    · exact map_update _ hm { m with htNext := n.htNext } rfl a

end Unlink

-- =========================================================== delta_delete

/-- Freeing a node that is on no link. -/
theorem ListRep.free {t : Table α} {es : List (Entry α)} {a : Addr}
    (h : ListRep c t es) (ha : a ∉ addrs es) :
    ListRep c (t.free a) es where
  linked := h.linked.update ha
  head := h.head
  nodup := h.nodup
  delta e he := by
    show Option.map _ (Function.update t.heap a none e.addr) = _
    rw [Function.update_of_ne
      (ne_of_mem_of_not_mem (List.mem_map_of_mem he) ha)]
    exact h.delta e he
  sum := h.sum
  le := h.le

/-- Freeing a node that is in no bucket. -/
theorem HashRep.free {t : Table α} {es : List (Entry α)}
    {bs : Fin HT_SIZE → List Addr} {a : Addr} (h : HashRep c t es bs)
    (ha : a ∉ addrs es) : HashRep c (t.free a) es bs where
  chains i := (h.chains i).update fun hai => by
    obtain ⟨e, he, rfl, -⟩ := (h.buckets i a).mp hai
    exact ha (List.mem_map_of_mem he)
  heads := h.heads
  nodup := h.nodup
  buckets := h.buckets

/-- `delta_delete` on an absent element changes nothing. -/
theorem deltaDelete_absent {t : Table α} {es : List (Entry α)}
    {bs : Fin HT_SIZE → List Addr} (h : Rep c t es bs) {x : α}
    (hx : ∀ e ∈ es, c.equals e.data x = false) :
    deltaDelete c t x = some (-1, t, []) := by
  obtain ⟨prev, hget⟩ := getNode_absent h hx
  simp only [deltaDelete, hget, Option.bind_eq_bind, Option.bind_some,
    Option.pure_def]

/-- `delta_delete` takes the entry equal to its argument out of both
structures, frees it, and leaves the tail pointer alone. -/
private theorem deltaDelete_at {t : Table α} {l₁ l₂ : List (Entry α)}
    {e : Entry α} {bs : Fin HT_SIZE → List Addr}
    (h : Rep c t (l₁ ++ e :: l₂) bs) {x : α} (hx : FoundAt c l₁ e l₂ x) :
    ∃ t' bs', deltaDelete c t x = some (0, t', [.free e.data])
      ∧ Rep c t' (l₁ ++ passE e.delta l₂) bs'
      ∧ t'.deltaTail = t.deltaTail ∧ t'.brk = t.brk := by
  obtain ⟨b₁, b₂, hb, hget⟩ := getNode_at h hx
  obtain ⟨n, hn, -⟩ := h.list.at
  obtain ⟨t₁, ht₁, hhash₁, hk₁⟩ := hashUnlink_spec h hb hn
  obtain ⟨t₂, ht₂, hlist₂, hk₂, htail₂, hw₂⟩ :=
    dlRemoveNode_spec (h.list.keeps hk₁)
  -- what `dl_remove_node` does leaves the buckets alone
  have hhash₂ : HashRep c t₂ (l₁ ++ passE e.delta l₂)
      (Function.update bs (bucket c x) (b₁ ++ b₂)) :=
    (hhash₁.keeps hk₂).ofPerm (by
      simp only [places, List.map_append]
      rw [show (passE e.delta l₂).map (fun e => (e.addr, e.data))
        = places l₂ from places_passE _ l₂]
      exact List.Perm.refl _)
  -- the element of the node is still there when it is freed
  have hdata : ∀ a, (t₂.heap a).map (·.data) = (t.heap a).map (·.data) :=
    fun a => (hk₂.data a).trans (hk₁.map _ (fun _ => rfl) a)
  obtain ⟨n₂, hn₂, hn₂d⟩ := live_of_map
    ((hdata e.addr).trans (h.data e (by simp)))
  -- the node is on no list when it is freed
  have hea := h.list.off_passE e.delta
  refine ⟨({ t₂ with size := t₂.size - 1 } : Table α).free e.addr,
    Function.update bs (bucket c x) (b₁ ++ b₂), ?_,
    ⟨?_, ?_, ?_, ?_, ?_, ?_, ?_⟩, ?_, ?_⟩
  · simp only [deltaDelete, hget, hn, ht₁, ht₂, hn₂, hn₂d,
      Option.bind_eq_bind, Option.bind_some, Option.pure_def]
  · exact ListRep.free (t := { t₂ with size := t₂.size - 1 })
      ⟨hlist₂.linked, hlist₂.head, hlist₂.nodup, hlist₂.delta, hlist₂.sum,
        hlist₂.le⟩ hea
  · exact HashRep.free (t := { t₂ with size := t₂.size - 1 })
      ⟨hhash₂.chains, hhash₂.heads, hhash₂.nodup, hhash₂.buckets⟩ hea
  · intro f hf
    show Option.map _ (Function.update t₂.heap e.addr none f.addr) = _
    rw [Function.update_of_ne
      (ne_of_mem_of_not_mem (List.mem_map_of_mem hf) hea), hdata]
    exact h.data_passE hf
  · have := h.distinct
    rw [elems_append, elems_cons] at this
    rw [elems_append, elems_passE]
    exact this.sublist ((List.sublist_cons_self ..).append_left _)
  · show t₂.size - 1 = _
    rw [hk₂.size, hk₁.size, h.size]
    have hlen : (l₁ ++ e :: l₂).length
        = (l₁ ++ passE e.delta l₂).length + 1 := by
      have : (passE e.delta l₂).length = l₂.length := by cases l₂ <;> rfl
      simp [this]
      omega
    rw [hlen, UInt32.ofNat_add]
    simp
  · intro a ha
    show Function.update t₂.heap e.addr none a = none
    by_cases hae : a = e.addr
    · rw [hae, Function.update_self]
    · rw [Function.update_of_ne hae]
      have hnone := hdata a
      rw [h.fresh a (by rw [← hk₁.brk, ← hk₂.brk]; exact ha),
        Option.map_none, Option.map_eq_none_iff] at hnone
      exact hnone
  · show t₂.wrapped = false
    rw [hw₂, hk₁.wrapped, h.noWrap]
  · show t₂.deltaTail = _
    rw [htail₂, hk₁.tail]
  · show t₂.brk = _
    rw [hk₂.brk, hk₁.brk]

/-- `delta_delete` on the one entry equal to its argument. -/
theorem deltaDelete_found (hc : Lawful c) {t : Table α}
    {l₁ l₂ : List (Entry α)} {e : Entry α} {bs : Fin HT_SIZE → List Addr}
    (h : Rep c t (l₁ ++ e :: l₂) bs) {x : α}
    (hx : c.equals e.data x = true) :
    ∃ t' bs', deltaDelete c t x = some (0, t', [.free e.data])
      ∧ Rep c t' (l₁ ++ passE e.delta l₂) bs'
      ∧ t'.deltaTail = t.deltaTail ∧ t'.brk = t.brk :=
  deltaDelete_at h (hc.foundAt h hx)

-- ============================================================= delta_tick

/-- The callbacks of an expiry: each element is reported, then freed. -/
def expireCalls (xs : List α) : List (Call α) :=
  xs.flatMap fun x => [.act x, .free x]

/-- `equals` can tell the elements `xs` from one another: each equals
itself, and the order of its arguments does not matter. -/
structure Compares (c : Conf α) (xs : List α) : Prop where
  refl : ∀ x ∈ xs, c.equals x x = true
  symm : ∀ x ∈ xs, ∀ y ∈ xs, c.equals x y = c.equals y x

/-- A lawful comparison is one on any elements. -/
theorem Lawful.compares (hc : Lawful c) (xs : List α) : Compares c xs :=
  ⟨fun x _ => hc.equiv.refl x, fun x _ y _ => TimedSet.eq_comm' hc.equiv x y⟩

/-- A comparison on some elements is one on fewer. -/
theorem Compares.cons {x : α} {xs : List α} (h : Compares c (x :: xs)) :
    Compares c xs :=
  ⟨fun y hy => h.refl y (List.mem_cons_of_mem _ hy), fun y hy z hz =>
    h.symm y (List.mem_cons_of_mem _ hy) z (List.mem_cons_of_mem _ hz)⟩

/-- The head is found by a lookup of its own element. -/
theorem Compares.foundAt {t : Table α} {e : Entry α} {es : List (Entry α)}
    {bs : Fin HT_SIZE → List Addr} (hc : Compares c (elems (e :: es)))
    (h : Rep c t (e :: es) bs) : FoundAt c [] e es e.data := by
  refine ⟨hc.refl e.data (List.mem_cons_self ..), rfl, fun f hf => ?_⟩
  have hmem : f.data ∈ elems es := List.mem_map_of_mem hf
  rw [hc.symm _ (List.mem_cons_of_mem _ hmem) _ (List.mem_cons_self ..)]
  exact (List.pairwise_cons.mp h.distinct).1 f.data hmem

/-- The loop of `delta_tick` removes exactly the leading entries whose
difference is zero, and it ends. -/
theorem expireLoop_spec :
    ∀ (es : List (Entry α)) (t : Table α) (bs : Fin HT_SIZE → List Addr)
      (k : Nat), Compares c (elems es) → Rep c t es bs → es.length < k →
    ∃ t' bs', expireLoop c k t = some (t', expireCalls
        (elems (es.takeWhile fun e => e.delta = 0)))
      ∧ Rep c t' (es.dropWhile fun e => e.delta = 0) bs'
      ∧ t'.deltaTail = t.deltaTail := by
  intro es
  induction es with
  | nil =>
      intro t bs k _ h hk
      obtain ⟨k, rfl⟩ : ∃ j, k = j + 1 := ⟨k - 1, by simp at hk; omega⟩
      have hhead : t.deltaHead = none := h.list.head
      exact ⟨t, bs, by simp [expireLoop, hhead, expireCalls], h, rfl⟩
  | cons e es ih =>
      intro t bs k hc h hk
      obtain ⟨k, rfl⟩ : ∃ j, k = j + 1 := ⟨k - 1, by simp at hk; omega⟩
      have hhead : t.deltaHead = some e.addr := h.list.head
      obtain ⟨n, hn, -, -, hnd⟩ :=
        (show ListRep c t ([] ++ e :: es) from h.list).at
      have hdata := h.data e (List.mem_cons_self ..)
      rw [hn, Option.map_some, Option.some.injEq] at hdata
      by_cases he : e.delta = 0
      · -- the head has expired: it is removed by a lookup of its element
        have hz : n.delta = 0 := by
          rw [← UInt32.toNat_inj, hnd, he]
          rfl
        obtain ⟨t₁, bs₁, ht₁, h₁, htail₁, -⟩ := deltaDelete_at
          (show Rep c t ([] ++ e :: es) bs from h) (hc.foundAt h)
        rw [he, passE_zero, List.nil_append] at h₁
        obtain ⟨t₂, bs₂, ht₂, h₂, htail₂⟩ :=
          ih t₁ bs₁ k hc.cons h₁ (by simp at hk; omega)
        refine ⟨t₂, bs₂, ?_, ?_, htail₂.trans htail₁⟩
        · rw [List.takeWhile_cons_of_pos (by simpa using he)]
          simp [expireLoop, hhead, hn, hz, hdata, ht₁, ht₂, expireCalls]
        · rw [List.dropWhile_cons_of_pos (by simpa using he)]
          exact h₂
      · have hz : n.delta ≠ 0 := by
          intro hz
          rw [hz] at hnd
          exact he hnd.symm
        refine ⟨t, bs, ?_, ?_, rfl⟩
        · rw [List.takeWhile_cons_of_neg (by simpa using he)]
          simp [expireLoop, hhead, hn, hz, expireCalls]
        · rw [List.dropWhile_cons_of_neg (by simpa using he)]
          exact h

/-- Lowering the head's difference and the sum by one. -/
theorem rep_lower {t : Table α} {e : Entry α} {es : List (Entry α)}
    {bs : Fin HT_SIZE → List Addr} {n : DeltaNode α} {d : Nat}
    (h : Rep c t (e :: es) bs) (hd : e.delta = d + 1)
    (hn : t.heap e.addr = some n) :
    Rep c { t with
        delta := t.delta - 1
        wrapped := (t.wrapped || decide (t.delta < 1))
          || decide (n.delta < 1)
        heap := Function.update t.heap e.addr
          (some { n with delta := n.delta - 1 }) }
      ({ e with delta := d } :: es) bs := by
  have hnd := h.list.delta e (List.mem_cons_self ..)
  rw [hn, Option.map_some, Option.some.injEq] at hnd
  have hsum := h.list.sum
  rw [diffs_cons, TimedSet.total_cons] at hsum
  -- neither the first difference nor the sum is zero
  have hn1 : (1 : UInt32) ≤ n.delta := by
    rw [UInt32.le_iff_toNat_le, hnd, hd]
    exact Nat.le_add_left _ _
  have ht1 : (1 : UInt32) ≤ t.delta := by
    rw [UInt32.le_iff_toNat_le, hsum, hd]
    show 1 ≤ _
    omega
  have hes : e.addr ∉ addrs es := (List.nodup_cons.mp h.list.nodup).1
  -- the other fields of the node are as they were
  have hproj : ∀ {β : Type} (g : DeltaNode α → β) (a : Addr),
      g { n with delta := n.delta - 1 } = g n →
      (Function.update t.heap e.addr (some { n with delta := n.delta - 1 })
        a).map g = (t.heap a).map g :=
    fun g a hg => map_update g hn _ hg a
  refine ⟨⟨?_, h.list.head, h.list.nodup, ?_, ?_, ?_⟩,
    ⟨fun i => (h.hash.chains i).congr fun a _ => hproj _ a rfl,
      h.hash.heads, h.hash.nodup, ?_⟩, ?_, h.distinct, h.size, ?_, ?_⟩
  · exact h.list.linked.congr (fun a _ => hproj _ a rfl)
      (fun a _ => hproj _ a rfl)
  · intro f hf
    rcases List.mem_cons.mp hf with rfl | hf
    · show Option.map _ (Function.update t.heap e.addr _ e.addr) = _
      rw [Function.update_self, Option.map_some,
        UInt32.toNat_sub_of_le _ _ hn1, hnd, hd]
      rfl
    · show Option.map _ (Function.update t.heap e.addr _ f.addr) = _
      rw [Function.update_of_ne
        (ne_of_mem_of_not_mem (List.mem_map_of_mem hf) hes)]
      exact h.list.delta f (List.mem_cons_of_mem _ hf)
  · show (t.delta - 1).toNat = _
    rw [UInt32.toNat_sub_of_le _ _ ht1, hsum, diffs_cons,
      TimedSet.total_cons, hd]
    show d + 1 + _ - 1 = d + _
    omega
  · show t.delta - 1 ≤ c.interval
    have := h.list.le
    rw [UInt32.le_iff_toNat_le] at this ⊢
    rw [UInt32.toNat_sub_of_le _ _ ht1]
    omega
  · intro i a
    rw [h.hash.buckets i a]
    constructor
    · intro h
      obtain ⟨f, hf, hfa⟩ := h
      rcases List.mem_cons.mp hf with rfl | hf
      · exact ⟨_, List.mem_cons_self .., hfa⟩
      · exact ⟨f, List.mem_cons_of_mem _ hf, hfa⟩
    · intro h
      obtain ⟨f, hf, hfa⟩ := h
      rcases List.mem_cons.mp hf with rfl | hf
      · exact ⟨e, List.mem_cons_self .., hfa⟩
      · exact ⟨f, List.mem_cons_of_mem _ hf, hfa⟩
  · intro f hf
    show Option.map _ (Function.update t.heap e.addr _ f.addr) = _
    rw [hproj (·.data) f.addr rfl]
    rcases List.mem_cons.mp hf with rfl | hf
    · exact h.data e (List.mem_cons_self ..)
    · exact h.data f (List.mem_cons_of_mem _ hf)
  · intro a ha
    show Function.update t.heap e.addr _ a = none
    have hae : a ≠ e.addr := by
      intro heq
      subst heq
      rw [h.fresh _ ha] at hn
      cases hn
    rw [Function.update_of_ne hae]
    exact h.fresh a ha
  · show ((t.wrapped || decide (t.delta < 1)) || decide (n.delta < 1))
      = false
    rw [h.noWrap, decide_eq_false (UInt32.not_lt.mpr ht1),
      decide_eq_false (UInt32.not_lt.mpr hn1)]
    rfl

/-- The first entry has at least one tick left. -/
def HeadPos (es : List (Entry α)) : Prop := ∀ e ∈ es.head?, 0 < e.delta

/-- The entries `delta_tick` leaves: the head's difference is lowered,
then the leading zeros go. -/
def tickEntries : List (Entry α) → List (Entry α)
  | [] => []
  | e :: es => ({ e with delta := e.delta - 1 } :: es).dropWhile
      fun f => f.delta = 0

/-- The elements `delta_tick` removes. -/
def tickExpired : List (Entry α) → List α
  | [] => []
  | e :: es => elems (({ e with delta := e.delta - 1 } :: es).takeWhile
      fun f => f.delta = 0)

/-- `delta_tick` ends, and removes exactly the entries that had one tick
left. -/
theorem deltaTick_spec {t : Table α} {es : List (Entry α)}
    {bs : Fin HT_SIZE → List Addr} (hc : Compares c (elems es))
    (h : Rep c t es bs) (hpos : HeadPos es) :
    ∃ t' bs', deltaTick c t = some (t', expireCalls (tickExpired es))
      ∧ Rep c t' (tickEntries es) bs' ∧ t'.deltaTail = t.deltaTail := by
  cases es with
  | nil =>
      have hhead : t.deltaHead = none := h.list.head
      exact ⟨t, bs, by simp [deltaTick, hhead, tickExpired, expireCalls],
        h, rfl⟩
  | cons e es =>
      have hhead : t.deltaHead = some e.addr := h.list.head
      obtain ⟨n, hn, -⟩ := live_of_map (h.data e (List.mem_cons_self ..))
      have hd : e.delta = (e.delta - 1) + 1 := by
        have := hpos e rfl
        omega
      have hlow := rep_lower h hd hn
      obtain ⟨t', bs', ht', h', htail'⟩ := expireLoop_spec
        ({ e with delta := e.delta - 1 } :: es) _ _ (t.brk + 1) hc hlow
        (Nat.lt_succ_of_le hlow.length_le)
      refine ⟨t', bs', ?_, h', htail'⟩
      simp only [deltaTick, hhead, Table.noteSub, Table.write, hn,
        Option.bind_eq_bind, Option.bind_some]
      rw [hhead] at ht'
      exact ht'

/-- After a tick the head's difference is positive again. -/
private theorem headPos_dropWhile (es : List (Entry α)) :
    HeadPos (es.dropWhile fun e => e.delta = 0) := by
  intro e he
  induction es with
  | nil => cases he
  | cons f es ih =>
      by_cases hf : f.delta = 0
      · rw [List.dropWhile_cons_of_pos (by simpa using hf)] at he
        exact ih he
      · rw [List.dropWhile_cons_of_neg (by simpa using hf)] at he
        cases he
        omega

/-- After a tick the first difference is positive again. -/
theorem headPos_tickEntries (es : List (Entry α)) :
    HeadPos (tickEntries es) := by
  cases es with
  | nil => exact fun e he => by cases he
  | cons e es => exact headPos_dropWhile _

-- =============================================== delta_insert, delta_update

section Insert

variable {t : Table α} {es : List (Entry α)}
  {bs : Fin HT_SIZE → List Addr} {x : α} {d : Nat}

/-- The address `malloc` gives out next is no entry's. -/
private theorem Rep.fresh_addr (h : Rep c t es bs) : t.brk ∉ addrs es := by
  intro hmem
  obtain ⟨e, he, hea⟩ := List.mem_map.mp hmem
  have := h.data e he
  rw [hea, h.fresh _ (Nat.le_refl _)] at this
  cases this

/-- It is in no bucket either. -/
private theorem Rep.fresh_bucket (h : Rep c t es bs) (i : Fin HT_SIZE) :
    t.brk ∉ bs i := by
  intro hi
  obtain ⟨e, he, hea, -⟩ := (h.hash.buckets i _).mp hi
  exact h.fresh_addr (hea ▸ List.mem_map_of_mem he)

/-- With the new node in its bucket, the buckets hold the entries and it. -/
private theorem Rep.buckets_linked (h : Rep c t es bs) (i : Fin HT_SIZE)
    (a : Addr) :
    a ∈ Function.update bs (bucket c x) (t.brk :: bs (bucket c x)) i
      ↔ ∃ e ∈ es ++ [⟨t.brk, x, d⟩], e.addr = a ∧ bucket c e.data = i := by
  have hold := h.hash.buckets i a
  simp only [List.mem_append, List.mem_singleton]
  by_cases hi : i = bucket c x
  · subst hi
    rw [Function.update_self, List.mem_cons, hold]
    constructor
    · rintro (rfl | ⟨e, he, hea⟩)
      · exact ⟨_, Or.inr rfl, rfl, rfl⟩
      · exact ⟨e, Or.inl he, hea⟩
    · intro h
      obtain ⟨e, he | rfl, hea⟩ := h
      · exact Or.inr ⟨e, he, hea⟩
      · exact Or.inl hea.1.symm
  · rw [Function.update_of_ne hi, hold]
    constructor
    · intro h
      obtain ⟨e, he, hea⟩ := h
      exact ⟨e, Or.inl he, hea⟩
    · intro h
      obtain ⟨e, he | rfl, hea⟩ := h
      · exact ⟨e, he, hea⟩
      · exact absurd hea.2.symm hi

/-- The new node is at the front of its bucket. -/
private theorem HashRep.linkFirst {t' : Table α} (h : Rep c t es bs)
    (htable : t'.table
      = Function.update t.table (bucket c x) (some t.brk))
    (hheap : t'.heap = Function.update t.heap t.brk
      (some ⟨x, 0, t.table (bucket c x), none, none⟩)) :
    HashRep c t' (es ++ [⟨t.brk, x, d⟩])
      (Function.update bs (bucket c x) (t.brk :: bs (bucket c x))) := by
  refine ⟨fun i => ?_, fun i => ?_, fun i => ?_, h.buckets_linked⟩
  · rw [hheap]
    by_cases hi : i = bucket c x
    · subst hi
      rw [Function.update_self]
      refine ⟨?_, (h.hash.chains _).update (h.fresh_bucket _)⟩
      simp only [Function.update_self, Option.map_some]
      rw [h.hash.heads, Option.or_none]
    · rw [Function.update_of_ne hi]
      exact (h.hash.chains i).update (h.fresh_bucket i)
  · rw [htable]
    by_cases hi : i = bucket c x
    · subst hi
      simp only [Function.update_self, List.head?_cons]
    · simp only [Function.update_of_ne hi]
      exact h.hash.heads i
  · by_cases hi : i = bucket c x
    · subst hi
      rw [Function.update_self]
      exact List.nodup_cons.mpr ⟨h.fresh_bucket _, h.hash.nodup _⟩
    · rw [Function.update_of_ne hi]
      exact h.hash.nodup i

/-- `malloc` and `hash_insert` of a new element: the hash half gains it,
the list half does not notice. -/
theorem hashInsert_spec (h : Rep c t es bs) :
    ∃ t' n, hashInsert c (t.malloc x).2 t.brk = some t'
      ∧ ListRep c t' es
      ∧ HashRep c t' (es ++ [⟨t.brk, x, d⟩])
          (Function.update bs (bucket c x) (t.brk :: bs (bucket c x)))
      ∧ t'.heap t.brk = some n ∧ n.data = x ∧ t.brk ∉ addrs es
      ∧ (∀ e ∈ es, (t'.heap e.addr).map (·.data) = some e.data)
      ∧ t'.size = t.size ∧ t'.deltaTail = t.deltaTail
      ∧ t'.wrapped = t.wrapped
      ∧ (∀ a, t'.brk ≤ a → t'.heap a = none) := by
  have hbrk := h.fresh_addr
  -- the nodes of the entries stay as they are
  have hkeeps : ∀ (n : DeltaNode α), ∀ e ∈ es,
      Function.update t.heap t.brk (some n) e.addr = t.heap e.addr := by
    intro n e he
    exact Function.update_of_ne
      (ne_of_mem_of_not_mem (List.mem_map_of_mem he) hbrk) ..
  let n : DeltaNode α := ⟨x, 0, t.table (bucket c x), none, none⟩
  refine ⟨{ t with
      table := Function.update t.table (bucket c x) (some t.brk)
      heap := Function.update t.heap t.brk (some n)
      brk := t.brk + 1 }, n, ?_,
    ⟨?_, h.list.head, h.list.nodup, ?_, h.list.sum, h.list.le⟩,
    .linkFirst h rfl rfl, ?_, rfl, hbrk, ?_, rfl, rfl, rfl, ?_⟩
  · simp only [hashInsert, Table.malloc, Table.write, Function.update_self,
      Option.bind_eq_bind, Option.bind_some, Function.update_idem,
      Option.pure_def, n]
  · exact h.list.linked.update hbrk
  · intro e he
    exact (congrArg _ (hkeeps n e he)).trans (h.list.delta e he)
  · exact Function.update_self ..
  · intro e he
    exact (congrArg _ (hkeeps n e he)).trans (h.data e he)
  · intro a ha
    show Function.update t.heap t.brk _ a = none
    rw [Function.update_of_ne (Nat.ne_of_gt ha)]
    exact h.fresh a (Nat.le_of_lt ha)

end Insert

/-- Linking a new element: `malloc`, `hash_insert` and `dl_insert_node`.
The two callers increment `size` at different points, so it is left
open as `s`. -/
theorem link_spec {t : Table α} {es : List (Entry α)}
    {bs : Fin HT_SIZE → List Addr} {x : α} (h : Rep c t es bs)
    (hx : ∀ e ∈ es, c.equals e.data x = false) (htail : TailLive t es)
    (s : UInt32) :
    ∃ t₁ t₂ bs', hashInsert c (t.malloc x).2 t.brk = some t₁
      ∧ t₁.size = t.size
      ∧ dlInsertNode c { t₁ with size := s } t.brk = some t₂
      ∧ t₂.size = s
      ∧ Rep c { t₂ with size := t.size + 1 }
          (es ++ [lastEntry c es t.brk x]) bs'
      ∧ t₂.deltaTail = some t.brk := by
  obtain ⟨t₁, n, ht₁, hlist, hhash, hn, hnx, hbrk, hdata, hsize, htl, hw,
    hfresh⟩ := hashInsert_spec (x := x)
      (d := c.interval.toNat - TimedSet.total (diffs es)) h
  -- => neither `hash_insert` nor the count touches the tail
  have htail₁ : TailLive { t₁ with size := s } es := fun hne =>
    htl.trans (htail hne)
  obtain ⟨t₂, ht₂, hlist₂, hk₂, htail₂, hw₂⟩ :=
    dlInsertNode_spec (t := { t₁ with size := s })
      ⟨hlist.linked, hlist.head, hlist.nodup, hlist.delta, hlist.sum,
        hlist.le⟩ hn hbrk htail₁
  -- nor does `dl_insert_node` touch the buckets
  have hhash₂ := HashRep.keeps (t := { t₁ with size := s })
    ⟨hhash.chains, hhash.heads, hhash.nodup, hhash.buckets⟩ hk₂
  rw [hnx] at hlist₂
  refine ⟨t₁, t₂, _, ht₁, hsize, ht₂, hk₂.size, ⟨⟨hlist₂.linked, hlist₂.head,
    hlist₂.nodup, hlist₂.delta, hlist₂.sum, hlist₂.le⟩,
    ⟨hhash₂.chains, hhash₂.heads, hhash₂.nodup, hhash₂.buckets⟩,
    ?_, ?_, ?_, ?_, ?_⟩, htail₂⟩
  · intro e he
    show (t₂.heap e.addr).map _ = _
    rw [hk₂.data]
    rcases List.mem_append.mp he with he | he
    · exact hdata e he
    · rw [List.mem_singleton.mp he]
      simp [lastEntry, hn, hnx]
  · rw [elems_append, List.pairwise_append]
    refine ⟨h.distinct, by simp, fun y hy z hz => ?_⟩
    obtain ⟨e, he, rfl⟩ := List.mem_map.mp hy
    rw [List.mem_singleton.mp hz]
    exact hx e he
  · show t.size + 1 = _
    rw [h.size, List.length_append, UInt32.ofNat_add]
    rfl
  · exact hk₂.fresh hfresh
  · show t₂.wrapped = false
    rw [hw₂]
    exact hw.trans h.noWrap

/-- `delta_insert` of an element that is there changes nothing. -/
theorem deltaInsert_present (hc : Lawful c) {t : Table α}
    {l₁ l₂ : List (Entry α)} {e : Entry α} {bs : Fin HT_SIZE → List Addr}
    (h : Rep c t (l₁ ++ e :: l₂) bs) {x : α}
    (hx : c.equals e.data x = true) : deltaInsert c t x = some t := by
  obtain ⟨b₁, b₂, -, hget⟩ := getNode_found hc h hx
  simp only [deltaInsert, hget, Option.bind_eq_bind, Option.bind_some,
    Option.pure_def]

/-- `delta_insert` of a new element links an entry behind the others. -/
theorem deltaInsert_absent {t : Table α} {es : List (Entry α)}
    {bs : Fin HT_SIZE → List Addr} {x : α} (h : Rep c t es bs)
    (hx : ∀ e ∈ es, c.equals e.data x = false) (htail : TailLive t es) :
    ∃ t' bs' a, deltaInsert c t x = some t'
      ∧ Rep c t' (es ++ [lastEntry c es a x]) bs'
      ∧ t'.deltaTail = some a := by
  obtain ⟨prev, hget⟩ := getNode_absent h hx
  obtain ⟨t₁, t₂, bs', ht₁, hs₁, ht₂, hs₂, hrep, htl⟩ :=
    link_spec h hx htail t.size
  rw [← hs₁] at ht₂ hs₂
  refine ⟨{ t₂ with size := t.size + 1 }, bs', t.brk, ?_, hrep, htl⟩
  have ht₁' : hashInsert c (t.malloc x).2 (t.malloc x).1 = some t₁ := ht₁
  have ht₂' : dlInsertNode c t₁ (t.malloc x).1 = some t₂ := ht₂
  simp only [deltaInsert, hget, ht₁', ht₂', hs₂, hs₁, Option.bind_eq_bind,
    Option.bind_some, Option.pure_def]

/-- `delta_update` of a new element does the same, and returns 0. -/
theorem deltaUpdate_absent {t : Table α} {es : List (Entry α)}
    {bs : Fin HT_SIZE → List Addr} {x : α} (h : Rep c t es bs)
    (hx : ∀ e ∈ es, c.equals e.data x = false) (htail : TailLive t es) :
    ∃ t' bs' a, deltaUpdate c t x = some (0, t')
      ∧ Rep c t' (es ++ [lastEntry c es a x]) bs'
      ∧ t'.deltaTail = some a := by
  obtain ⟨prev, hget⟩ := getNode_absent h hx
  obtain ⟨t₁, t₂, bs', ht₁, hs₁, ht₂, hs₂, hrep, htl⟩ :=
    link_spec h hx htail (t.size + 1)
  refine ⟨t₂, bs', t.brk, ?_, ?_, htl⟩
  · have ht₁' : hashInsert c (t.malloc x).2 (t.malloc x).1 = some t₁ := ht₁
    have ht₂' : dlInsertNode c { t₁ with size := t.size + 1 }
        (t.malloc x).1 = some t₂ := ht₂
    simp only [deltaUpdate, hget, ht₁', hs₁, ht₂', Option.bind_eq_bind,
      Option.bind_some, Option.pure_def]
  · rw [← hs₂] at hrep
    exact hrep

/-- `delta_update` of a present element moves its entry behind the rest
of the list, and keeps the element stored there. -/
theorem deltaUpdate_present (hc : Lawful c) {t : Table α}
    {l₁ l₂ : List (Entry α)} {e : Entry α} {bs : Fin HT_SIZE → List Addr}
    (h : Rep c t (l₁ ++ e :: l₂) bs) {x : α}
    (hx : c.equals e.data x = true)
    (htail : TailLive t (l₁ ++ passE e.delta l₂)) :
    ∃ t' bs', deltaUpdate c t x = some (1, t')
      ∧ Rep c t' (l₁ ++ passE e.delta l₂ ++ [lastEntry c
          (l₁ ++ passE e.delta l₂) e.addr e.data]) bs'
      ∧ t'.deltaTail = some e.addr := by
  obtain ⟨b₁, b₂, -, hget⟩ := getNode_found hc h hx
  obtain ⟨t₁, ht₁, hlist₁, hk₁, htl₁, hw₁⟩ := dlRemoveNode_spec h.list
  obtain ⟨n, hn, hnd⟩ := live_of_map
    ((hk₁.data e.addr).trans (h.data e (by simp)))
  have hea := h.list.off_passE e.delta
  -- the node is linked behind a tail that is not itself
  obtain ⟨t₂, ht₂, hlist₂, hk₂, htl₂, hw₂⟩ := dlInsertNode_spec hlist₁ hn hea
    (fun hne => htl₁.trans (htail hne))
  rw [hnd] at hlist₂
  have hk := hk₁.trans hk₂
  refine ⟨t₂, bs, ?_, ⟨hlist₂, ?_, ?_, ?_, ?_, ?_, ?_⟩, htl₂⟩
  · simp only [deltaUpdate, hget, ht₁, ht₂, Option.bind_eq_bind,
      Option.bind_some, Option.pure_def]
  · -- the same elements at the same addresses, in another order
    exact (h.hash.keeps hk).ofPerm (places_move ..)
  · intro f hf
    rw [hk.data]
    rcases List.mem_append.mp hf with hf | hf
    · exact h.data_passE hf
    · rw [List.mem_singleton.mp hf]
      exact h.data e (by simp)
  · have hperm := (places_move l₁ l₂ e e.delta (lastEntry c
      (l₁ ++ passE e.delta l₂) e.addr e.data).delta).map Prod.snd
    rw [← elems_eq_places, ← elems_eq_places] at hperm
    refine (hperm.pairwise_iff ?_).mpr h.distinct
    intro y z hyz
    rw [TimedSet.eq_comm' hc.equiv]
    exact hyz
  · rw [hk.size, h.size]
    have : (passE e.delta l₂).length = l₂.length := by cases l₂ <;> rfl
    simp [this]
  · exact hk.fresh h.fresh
  · rw [hw₂, hw₁, h.noWrap]

-- ============================================================= delta_clear

/-- The loop of `delta_clear` frees the nodes of the list and only
them. -/
theorem clearLoop_spec :
    ∀ (l : List Addr) (t : Table α) (k : Nat),
      Chain DeltaNode.dlNext t.heap l none → l.Nodup → l.length < k →
    ∃ t', clearLoop k l.head? t = some t'
      ∧ (∀ a ∈ l, t'.heap a = none)
      ∧ (∀ a, t.heap a = none → t'.heap a = none)
      ∧ t'.brk = t.brk ∧ t'.wrapped = t.wrapped := by
  intro l
  induction l with
  | nil =>
      intro t k _ _ hk
      obtain ⟨k, rfl⟩ : ∃ j, k = j + 1 := ⟨k - 1, by simp at hk; omega⟩
      exact ⟨t, by simp [clearLoop], by simp, fun _ h => h, rfl, rfl⟩
  | cons a l ih =>
      intro t k hc hnd hk
      obtain ⟨k, rfl⟩ : ∃ j, k = j + 1 := ⟨k - 1, by simp at hk; omega⟩
      obtain ⟨hal, hnd⟩ := List.nodup_cons.mp hnd
      obtain ⟨n, hn, hnext⟩ := live_of_map hc.1
      rw [Option.or_none] at hnext
      obtain ⟨t', ht', hl, hnone, hbrk, hw⟩ := ih (t.free a) k
        (hc.2.update hal) hnd (by simp at hk; omega)
      refine ⟨t', ?_, ?_, ?_, hbrk, hw⟩
      · simp only [List.head?_cons, clearLoop, hn, hnext]
        exact ht'
      · intro b hb
        rcases List.mem_cons.mp hb with rfl | hb
        · exact hnone b (Function.update_self ..)
        · exact hl b hb
      · intro b hb
        apply hnone b
        show Function.update t.heap a none b = none
        by_cases hba : b = a
        · rw [hba, Function.update_self]
        · rw [Function.update_of_ne hba, hb]

/-- `delta_clear` frees every node and leaves the empty table. -/
theorem deltaClear_spec {t : Table α} {es : List (Entry α)}
    {bs : Fin HT_SIZE → List Addr} (h : Rep c t es bs) :
    ∃ t', deltaClear t = some t' ∧ Rep c t' [] (fun _ => [])
      ∧ (∀ a ∈ addrs es, t'.heap a = none) := by
  obtain ⟨t₁, ht₁, hl, hnone, hbrk, hw⟩ := clearLoop_spec (addrs es) t
    (t.brk + 1) h.list.linked.chain h.list.nodup
    (by rw [addrs, List.length_map]; exact Nat.lt_succ_of_le h.length_le)
  rw [← h.list.head] at ht₁
  refine ⟨{ t₁ with
      size := 0, delta := 0, deltaHead := none, deltaTail := none
      table := fun _ => none }, ?_,
    ⟨⟨trivial, rfl, List.nodup_nil, by simp, rfl, ?_⟩,
      ⟨fun _ => trivial, fun _ => rfl, fun _ => List.nodup_nil, by simp⟩,
      by simp, List.Pairwise.nil, rfl, ?_, ?_⟩, hl⟩
  · simp only [deltaClear, ht₁, Option.bind_eq_bind, Option.bind_some,
      Option.pure_def]
  · show (0 : UInt32) ≤ c.interval
    exact UInt32.zero_le
  · intro a ha
    exact hnone a (h.fresh a (by rw [← hbrk]; exact ha))
  · exact hw.trans h.noWrap

-- =========================================================== the observers

/-- A walk that may stop early: `f` on the elements in order, up to and
including the first that returns a non-zero code. -/
def visit {σ : Type} (f : α → σ → σ × Int) : List α → σ → σ
  | [], arg => arg
  | x :: xs, arg =>
      if (f x arg).2 ≠ 0 then (f x arg).1 else visit f xs (f x arg).1

/-- `delta_foreach` visits the elements in order, up to the one that stops
it. -/
theorem foreachLoop_spec {σ : Type} {t : Table α} (f : α → σ → σ × Int) :
    ∀ (es : List (Entry α)) (k : Nat) (arg : σ),
      Chain DeltaNode.dlNext t.heap (addrs es) none →
      (∀ e ∈ es, (t.heap e.addr).map (·.data) = some e.data) →
      es.length < k →
      foreachLoop t.heap f k (addrs es).head? arg
        = some (visit f (elems es) arg) := by
  intro es
  induction es with
  | nil =>
      intro k arg _ _ hk
      obtain ⟨k, rfl⟩ : ∃ j, k = j + 1 := ⟨k - 1, by simp at hk; omega⟩
      simp [foreachLoop, visit]
  | cons e es ih =>
      intro k arg hc hd hk
      obtain ⟨k, rfl⟩ : ∃ j, k = j + 1 := ⟨k - 1, by simp at hk; omega⟩
      obtain ⟨n, hn, hnext⟩ := live_of_map hc.1
      have hdata := hd e (List.mem_cons_self ..)
      rw [hn, Option.map_some, Option.some.injEq] at hdata
      rw [Option.or_none] at hnext
      have hrest := ih k (f e.data arg).1 hc.2
        (fun e he => hd e (List.mem_cons_of_mem _ he))
        (by simp at hk; omega)
      rw [show addrs es = es.map Entry.addr from rfl] at hrest
      simp only [addrs_cons, List.head?_cons, foreachLoop, hn, hdata, hnext,
        elems_cons, visit]
      split
      · rfl
      · exact hrest

/-- `delta_foreach` visits the elements once each, oldest first. -/
theorem deltaForeach_spec {σ : Type} {t : Table α} {es : List (Entry α)}
    {bs : Fin HT_SIZE → List Addr} (h : Rep c t es bs)
    (f : α → σ → σ × Int) (arg : σ) :
    deltaForeach t f arg = some (visit f (elems es) arg) := by
  unfold deltaForeach
  rw [h.list.head]
  exact foreachLoop_spec f es _ arg h.list.linked.chain h.data
    (Nat.lt_succ_of_le h.length_le)

/-- An element that is there is found, and the stored one returned. -/
theorem deltaContains_present (hc : Lawful c) {t : Table α}
    {l₁ l₂ : List (Entry α)} {e : Entry α} {bs : Fin HT_SIZE → List Addr}
    (h : Rep c t (l₁ ++ e :: l₂) bs) {x : α}
    (hx : c.equals e.data x = true) :
    deltaContains c t x = some 1 ∧ deltaGet c t x = some (some e.data) := by
  obtain ⟨b₁, b₂, -, hget⟩ := getNode_found hc h hx
  obtain ⟨n, hn, hnd⟩ := live_of_map (h.data e (by simp))
  constructor
  · simp [deltaContains, hget]
  · simp [deltaGet, hget, hn, hnd]

/-- An element that is not there is not found. -/
theorem deltaContains_absent {t : Table α} {es : List (Entry α)}
    {bs : Fin HT_SIZE → List Addr} (h : Rep c t es bs) {x : α}
    (hx : ∀ e ∈ es, c.equals e.data x = false) :
    deltaContains c t x = some 0 ∧ deltaGet c t x = some none := by
  obtain ⟨prev, hget⟩ := getNode_absent h hx
  constructor
  · simp [deltaContains, hget]
  · simp [deltaGet, hget]

end Psnet.DeltaList
