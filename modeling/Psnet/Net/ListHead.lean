/-
The circular lists of include/list.h, as far as the program uses them on
heap nodes: the router list and the list the update thread fills.

# Memory

Both list heads and the entries `malloc` hands out are nodes of one
memory; a head carries no address. An entry's name is never used again,
so a link kept past `free` is found dead. `none` is a dereference of a
dead node or a walk that does not come back to its head, given one step
for every entry ever allocated.

# What is proved elsewhere

The links are those of `Lib.Ring`, and the macros are its sequences of
stores (`listAddRaw_eq`, `listDelRaw_eq`). `Holds` adds what the library
does not speak of: the addresses of the entries, and the names `malloc`
has given out.
-/
import Psnet.Lib.Stores
import Psnet.Net.Sockaddr
import Mathlib.Data.List.Perm.Subperm
import Mathlib.Data.List.Range

namespace Psnet.Net

open Linked

/-- The names of list nodes: the heads, the allocated entries, and the
two values `list_del` leaves behind. -/
inductive Ptr
  | routers
  | tmp
  | entry (n : Nat)
  | poison1
  | poison2
  deriving DecidableEq, Repr

/-- A `struct list_head`, with the address of the `psnet_list_entry` it
starts; a list head has none. -/
structure ListHead where
  next : Ptr
  prev : Ptr
  addr : Option Sockaddr
  deriving DecidableEq, Repr

/-- The live nodes, and the number of entries allocated so far. -/
structure Mem where
  heap : Heap Ptr ListHead
  brk : Nat

/-- Store through a pointer to a node. -/
def Mem.write (m : Mem) (a : Ptr) (f : ListHead → ListHead) : Option Mem :=
  match m.heap a with
  | none => none
  | some n => some { m with heap := Function.update m.heap a (some (f n)) }

/-- `malloc` of a `psnet_list_entry` and the store of its address. Its
links are written before they are read. -/
def Mem.malloc (m : Mem) (sa : Sockaddr) : Ptr × Mem :=
  (.entry m.brk,
   { heap := Function.update m.heap (.entry m.brk)
       (some { next := .poison1, prev := .poison2, addr := some sa })
     brk := m.brk + 1 })

/-- `free` of an entry. -/
def Mem.free (m : Mem) (a : Ptr) : Mem :=
  { m with heap := Function.update m.heap a none }

/-- `INIT_LIST_HEAD`. -/
def initListHead (m : Mem) (list : Ptr) : Option Mem :=
  m.write list fun n => { n with next := list, prev := list }

/-- `__list_add`: `x` between `prev` and `next`. -/
def listAddRaw (m : Mem) (x prev next : Ptr) : Option Mem := do
  let m ← m.write next fun n => { n with prev := x }
  let m ← m.write x fun n => { n with next := next }
  let m ← m.write x fun n => { n with prev := prev }
  m.write prev fun n => { n with next := x }

/-- `list_add_tail`. -/
def listAddTail (m : Mem) (x head : Ptr) : Option Mem := do
  let h ← m.heap head
  listAddRaw m x h.prev head

/-- `__list_del`. -/
def listDelRaw (m : Mem) (prev next : Ptr) : Option Mem := do
  let m ← m.write next fun n => { n with prev := prev }
  m.write prev fun n => { n with next := next }

/-- `list_del`. -/
def listDel (m : Mem) (entry : Ptr) : Option Mem := do
  let e ← m.heap entry
  let m ← listDelRaw m e.prev e.next
  m.write entry fun n => { n with next := .poison1, prev := .poison2 }

/-- `list_empty`. -/
def listEmpty (m : Mem) (head : Ptr) : Option Bool := do
  let h ← m.heap head
  return decide (h.next = head)

/-- `list_for_each` with a body that leaves the links alone: the nodes
it is run on. -/
def listForEach (m : Mem) (head : Ptr) : Option (List Ptr) := do
  let h ← m.heap head
  cycle ListHead.next m.heap head (m.brk + 1) h.next

/-- `psnet_list_entry_addr`. -/
def listEntryAddr (m : Mem) (entry : Ptr) : Option Sockaddr :=
  (m.heap entry).bind ListHead.addr

-- ======================================================= lists in the memory

/-- The memory keeps the entries `as` on the list at `head`, with the
addresses `sas`. -/
structure Holds (m : Mem) (head : Ptr) (as : List Ptr)
    (sas : List Sockaddr) : Prop where
  ring : Ring ListHead.next ListHead.prev m.heap head as
  addrs : as.map (listEntryAddr m) = sas.map some
  entries : ∀ a ∈ as, ∃ n, a = .entry n ∧ n < m.brk

variable {m m' : Mem} {head : Ptr} {as : List Ptr} {sas : List Sockaddr}

theorem Mem.write_eq {a : Ptr} {n : ListHead} (hn : m.heap a = some n)
    (f : ListHead → ListHead) :
    m.write a f
      = some { m with heap := Function.update m.heap a (some (f n)) } := by
  rw [Mem.write, hn]

theorem Holds.length_eq (h : Holds m head as sas) :
    as.length = sas.length := by
  simpa using congrArg List.length h.addrs

/-- A walk around the list fits the fuel. -/
theorem Holds.length_le (h : Holds m head as sas) : as.length ≤ m.brk := by
  have hsub : as ⊆ (List.range m.brk).map Ptr.entry := by
    intro a ha
    obtain ⟨n, rfl, hn⟩ := h.entries a ha
    exact List.mem_map_of_mem (List.mem_range.mpr hn)
  have := (List.subperm_of_subset (List.nodup_cons.mp h.ring.nodup).2
    hsub).length_le
  simpa using this

/-- `list_for_each` meets the entries in order. -/
theorem listForEach_spec (h : Holds m head as sas) :
    listForEach m head = some as := by
  obtain ⟨n, hn⟩ := Option.isSome_iff_exists.mp
    (h.ring.isSome (List.mem_cons_self ..))
  simp only [listForEach, hn, bind, Option.bind_some]
  exact h.ring.cycle_eq hn (Nat.lt_succ_of_le h.length_le)

/-- A list owes nothing to the nodes off it. -/
theorem Holds.congr (h : Holds m head as sas)
    (heq : ∀ a ∈ head :: as, m'.heap a = m.heap a) (hbrk : m.brk ≤ m'.brk) :
    Holds m' head as sas where
  ring := h.ring.congr heq
  addrs := by
    rw [← h.addrs]
    apply List.map_congr_left
    intro a ha
    rw [listEntryAddr, listEntryAddr, heq a (List.mem_cons_of_mem _ ha)]
  entries a ha := by
    obtain ⟨n, hn, hlt⟩ := h.entries a ha
    exact ⟨n, hn, Nat.lt_of_lt_of_le hlt hbrk⟩

theorem initListHead_spec {n : ListHead} (hn : m.heap head = some n) :
    ∃ m', initListHead m head = some m' ∧ Holds m' head [] []
      ∧ m'.brk = m.brk ∧ ∀ a, a ≠ head → m'.heap a = m.heap a := by
  refine ⟨_, Mem.write_eq hn _, ⟨Ring.nil (Function.update_self ..) rfl rfl,
    rfl, by simp⟩, rfl, fun a ha => Function.update_of_ne ha _ _⟩

-- ============================================================== the stores

/-- The links of a `list_head`; what it holds besides is the address. -/
def listFields : Fields Ptr ListHead (Option Sockaddr) where
  next := ListHead.next
  prev := ListHead.prev
  data := ListHead.addr
  setNext a n := { n with next := a }
  setPrev a n := { n with prev := a }
  next_setNext _ _ := rfl
  prev_setNext _ _ := rfl
  data_setNext _ _ := rfl
  next_setPrev _ _ := rfl
  prev_setPrev _ _ := rfl
  data_setPrev _ _ := rfl

/-- Another heap under the same entries. -/
def Mem.withHeap (m : Mem) (h : Heap Ptr ListHead) : Mem :=
  { m with heap := h }

/-- A store of the memory is a store of its heap. -/
theorem Mem.write_store (m : Mem) (a : Ptr) (f : ListHead → ListHead) :
    m.write a f = (store m.heap a f).map m.withHeap := by
  rw [Mem.write, store]
  cases m.heap a <;> rfl

/-- `__list_add` is the library's four stores. -/
private theorem listAddRaw_eq (m : Mem) (x prev next : Ptr) :
    listAddRaw m x prev next
      = (linkBetween listFields m.heap x prev next).map m.withHeap := by
  simp only [listAddRaw, linkBetween, Mem.write_store, bind,
    Option.bind_map, Option.map_bind, Function.comp_def]
  rfl

/-- `__list_del` is the library's two stores. -/
private theorem listDelRaw_eq (m : Mem) (prev next : Ptr) :
    listDelRaw m prev next
      = (linkPast listFields m.heap prev next).map m.withHeap := by
  simp only [listDelRaw, linkPast, Mem.write_store, bind,
    Option.bind_map, Option.map_bind, Function.comp_def]
  rfl

/-- Where only links differ, every entry has its address. -/
private theorem listEntryAddr_kept (hk : Kept listFields m.heap m'.heap) :
    listEntryAddr m' = listEntryAddr m := by
  funext b
  have := congrArg (Option.bind · id) (hk b)
  simp only [Option.bind_map, Function.id_comp] at this
  exact this

/-- A fresh entry at the end of a list, as `parse_node` adds it. -/
def addEntry (m : Mem) (head : Ptr) (sa : Sockaddr) : Option Mem :=
  listAddTail (m.malloc sa).2 (m.malloc sa).1 head

theorem addEntry_spec (h : Holds m head as sas)
    (hhead : ∀ n, head ≠ .entry n) (sa : Sockaddr) :
    ∃ m', addEntry m head sa = some m'
      ∧ Holds m' head (as ++ [.entry m.brk]) (sas ++ [sa])
      ∧ m'.brk = m.brk + 1
      ∧ ∀ b, b ∉ head :: (as ++ [.entry m.brk]) →
          m'.heap b = m.heap b := by
  obtain ⟨x, hx⟩ : ∃ x, x = Ptr.entry m.brk := ⟨_, rfl⟩
  have hfresh : x ∉ head :: as := by
    rw [List.mem_cons, not_or, hx]
    refine ⟨(hhead _).symm, fun hmem => ?_⟩
    obtain ⟨n, hn, hlt⟩ := h.entries _ hmem
    cases hn
    exact Nat.lt_irrefl _ hlt
  -- the list as `malloc` leaves it
  have h₁ : Holds (m.malloc sa).2 head as sas := by
    refine h.congr (fun a ha => Function.update_of_ne ?_ _ _)
      (Nat.le_succ _)
    intro heq
    subst heq
    exact hfresh (hx ▸ ha)
  have hxlive : (m.malloc sa).2.heap x = some ⟨.poison1, .poison2, some sa⟩ :=
    hx ▸ Function.update_self ..
  obtain ⟨n, hn, hnp⟩ := Option.map_eq_some_iff.mp h₁.ring.ends.2
  obtain ⟨h', hadd, hring, hk, hf⟩ := Ring.link (F := listFields) h₁.ring
    (by rw [hxlive]; rfl) hfresh
  refine ⟨(m.malloc sa).2.withHeap h', ?_, ⟨hx ▸ hring, ?_, fun a ha => ?_⟩,
    rfl, fun b hb => ?_⟩
  · rw [addEntry, listAddTail, show (m.malloc sa).1 = x from hx.symm, hn]
    simp only [bind, Option.bind_some, hnp, listAddRaw_eq, hadd,
      Option.map_some]
  · rw [listEntryAddr_kept hk, List.map_append, List.map_append, h₁.addrs,
      List.map_singleton, List.map_singleton, ← hx, listEntryAddr, hxlive,
      Option.bind_some]
  · rcases List.mem_append.mp ha with ha | ha
    · exact h₁.entries a ha
    · exact ⟨m.brk, List.mem_singleton.mp ha, Nat.lt_succ_self _⟩
  · have hbx : b ∉ x :: head :: as := by
      simpa [hx, or_comm, or_assoc] using hb
    exact (hf b hbx).trans
      (Function.update_of_ne (hx ▸ List.ne_of_not_mem_cons hbx) _ _)

/-- A list holds one sequence of addresses. -/
theorem Holds.unique {as' : List Ptr} {sas' : List Sockaddr}
    (h : Holds m head as sas) (h' : Holds m head as' sas') :
    as = as' ∧ sas = sas' := by
  have has : as = as' := by
    have := (listForEach_spec h).symm.trans (listForEach_spec h')
    exact Option.some.inj this
  refine ⟨has, ?_⟩
  have := h.addrs.symm.trans (has ▸ h'.addrs)
  exact List.map_injective_iff.mpr (fun _ _ h => Option.some.inj h) this

/-- Fresh entries at the end of a list, in order. -/
def addEntries (m : Mem) (head : Ptr) (sas : List Sockaddr) : Option Mem :=
  sas.foldlM (fun m sa => addEntry m head sa) m

theorem addEntries_spec (hhead : ∀ n, head ≠ .entry n)
    (new : List Sockaddr) :
    ∀ {m : Mem} {as : List Ptr} {sas : List Sockaddr},
      Holds m head as sas →
      ∃ m' bs, addEntries m head new = some m'
        ∧ Holds m' head (as ++ bs) (sas ++ new) ∧ m.brk ≤ m'.brk
        ∧ (∀ b ∈ bs, ∃ n, b = .entry n ∧ m.brk ≤ n)
        ∧ ∀ b, b ∉ head :: (as ++ bs) → m'.heap b = m.heap b := by
  induction new with
  | nil =>
      intro m as sas h
      exact ⟨m, [], rfl, by simpa using h, Nat.le_refl _, by simp,
        fun _ _ => rfl⟩
  | cons sa new ih =>
      intro m as sas h
      obtain ⟨m₁, hm₁, h₁, hb₁, hf₁⟩ := addEntry_spec h hhead sa
      obtain ⟨m₂, bs, hm₂, h₂, hb₂, hbs, hf₂⟩ := ih h₁
      refine ⟨m₂, .entry m.brk :: bs, ?_, by simpa using h₂, by omega,
        fun b hb => ?_, fun b hb => ?_⟩
      · simp only [addEntries, List.foldlM_cons, hm₁, bind, Option.bind_some]
        exact hm₂
      · rcases List.mem_cons.mp hb with rfl | hb
        · exact ⟨_, rfl, Nat.le_refl _⟩
        · obtain ⟨n, hn, hle⟩ := hbs b hb
          exact ⟨n, hn, by omega⟩
      · have hb' : b ∉ head :: ((as ++ [.entry m.brk]) ++ bs) := by
          simpa using hb
        rw [hf₂ b hb', hf₁ b fun hmem => hb' ?_]
        rcases List.mem_cons.mp hmem with hmem | hmem
        · exact List.mem_cons.mpr (Or.inl hmem)
        · exact List.mem_cons_of_mem _ (List.mem_append_left _ hmem)

-- ====================================================== taking an entry off

/-- Whatever is written to a node that is freed then. -/
private theorem write_free {a : Ptr} (ha : (m.heap a).isSome)
    (f : ListHead → ListHead) :
    ∃ m', (m.write a f).map (fun m => m.free a) = some m'
      ∧ m'.brk = m.brk ∧ ∀ b, b ≠ a → m'.heap b = m.heap b := by
  obtain ⟨n, hn⟩ := Option.isSome_iff_exists.mp ha
  have hw := congrArg (Option.map fun m => m.free a) (Mem.write_eq hn f)
  refine ⟨_, hw, rfl, fun b hb => ?_⟩
  simp only [Mem.free]
  rw [Function.update_of_ne hb, Function.update_of_ne hb]

/-- Taking the first node off a list. -/
theorem Holds.tail {a head : Ptr} {sa : Sockaddr}
    (h : Holds m head (a :: as) (sa :: sas)) :
    ∃ m', (listDel m a).map (fun m => m.free a) = some m'
      ∧ Holds m' head as sas ∧ m'.brk = m.brk
      ∧ ∀ b, b ∉ head :: a :: as → m'.heap b = m.heap b := by
  have hne : ∀ b ∈ head :: as, b ≠ a := by
    have hnd := h.ring.nodup
    simp only [List.nodup_cons, List.mem_cons, not_or] at hnd
    intro b hb hba
    subst hba
    exact (List.mem_cons.mp hb).elim (fun hb => hnd.1.1 hb.symm) hnd.2.1
  -- `a` stands between the head and the node after it
  obtain ⟨e, he, hnext⟩ := Option.map_eq_some_iff.mp h.ring.first.1
  have hprev : e.prev = head := by
    have := h.ring.first.2
    rwa [he, Option.map_some, Option.some.injEq] at this
  obtain ⟨h', hdel, hring, hk, hf⟩ := Ring.unlink (F := listFields) h.ring
  have hmid : Holds (m.withHeap h') head as sas := by
    refine ⟨hring, ?_, fun b hb => h.entries b (List.mem_cons_of_mem _ hb)⟩
    rw [listEntryAddr_kept hk]
    exact (List.cons.inj h.addrs).2
  obtain ⟨m', hm', hbrk, hf'⟩ := write_free (m := m.withHeap h') (a := a)
    (hk.isSome (by rw [he]; rfl))
    fun n => { n with next := .poison1, prev := .poison2 }
  refine ⟨m', ?_, hmid.congr (fun b hb => hf' b (hne b hb)) hbrk.ge, hbrk,
    fun b hb => ?_⟩
  · simp only [listDel, he, bind, Option.bind_some, listDelRaw_eq, hprev,
      hnext, hdel, Option.map_some]
    exact hm'
  · simp only [List.mem_cons, not_or] at hb
    rw [hf' b hb.2.1]
    exact hf b (by simp [hb.1, hb.2.2])

/-- The entries of a list under a new head. -/
theorem Holds.rehead (head' : Ptr) {a z : Ptr} (h : Holds m head as sas)
    (hfirst : as.head? = some a) (hlast : as.getLast? = some z)
    (hhead : (m.heap head').isSome) (hx : head' ∉ as) :
    ∃ m', (do
        let m ← m.write head' fun n => { n with next := a }
        let m ← m.write head' fun n => { n with prev := z }
        let m ← m.write a fun n => { n with prev := head' }
        m.write z fun n => { n with next := head' }) = some m'
      ∧ Holds m' head' as sas ∧ Kept listFields m.heap m'.heap := by
  obtain ⟨h', hh', hring, hk⟩ := Ring.linkHead (F := listFields) h.ring
    hfirst hlast hhead hx
  refine ⟨m.withHeap h', ?_, ⟨hring, ?_, h.entries⟩, hk⟩
  · have := congrArg (Option.map m.withHeap) hh'
    rw [Option.map_some] at this
    rw [← this]
    simp only [linkHead, Mem.write_store, bind, Option.bind_map,
      Option.map_bind, Function.comp_def]
    rfl
  · rw [listEntryAddr_kept hk]
    exact h.addrs

end Psnet.Net
