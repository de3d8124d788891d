/-
The delta list of common/deltalist.c: a hash table whose elements also
sit on a doubly linked list in order of last refresh, each node holding
the difference between its expiry and its predecessor's.

# Memory

A node is named by its allocation: `heap` sends a name to the node's
contents while it is live, and `malloc` hands out a name never used
before, so a pointer kept past `free` can never be mistaken for a later
allocation. Every dereference goes through the heap and yields `none`
for a freed node: the `Option` of the functions below is undefined
behaviour. The loops over links take as fuel one more than the number
of nodes ever allocated. A walk that reaches a null link visits no name
twice, so running out of it is a loop that does not end; it yields
`none` as well.

# What is left out

`resolution`, the clock thread and the lock only decide when `delta_tick`
runs; the functions below are the bodies of the locked sections.
`wrapped` is no field of the source: it records that one of the unsigned
subtractions went below zero.
-/
import Psnet.Lib.Linked
import Psnet.Lib.TimedSet

namespace Psnet.DeltaList

open Linked
open TimedSet (Op)

/-- Number of buckets of the hash table (`HT_SIZE`). -/
def HT_SIZE : Nat := 10

/-- A node's name: the how-many-th allocation it was. -/
abbrev Addr := Nat

/-- `struct delta_node`. -/
structure DeltaNode (α : Type) where
  data : α
  delta : UInt32
  htNext : Option Addr
  dlNext : Option Addr
  dlPrev : Option Addr

/-- The fields of `struct delta_list` that never change: the expiration
interval and the functions on elements. -/
structure Conf (α : Type) where
  interval : UInt32
  hash : α → UInt64
  equals : α → α → Bool

/-- The fields of `struct delta_list` that change, and the memory the
nodes live in. -/
structure Table (α : Type) where
  size : UInt32
  delta : UInt32
  deltaHead : Option Addr
  deltaTail : Option Addr
  table : Fin HT_SIZE → Option Addr
  heap : Heap Addr (DeltaNode α)
  brk : Addr
  wrapped : Bool

/-- A call of one of the table's callbacks on an element. -/
inductive Call (α : Type)
  | act (x : α)
  | free (x : α)
  deriving DecidableEq, Repr

variable {α : Type}

/-- A table as its static initialiser leaves it. -/
def Table.empty : Table α where
  size := 0
  delta := 0
  deltaHead := none
  deltaTail := none
  table := fun _ => none
  heap := fun _ => none
  brk := 0
  wrapped := false

/-- Store through a pointer to a node. -/
def Table.write (t : Table α) (a : Addr) (f : DeltaNode α → DeltaNode α) :
    Option (Table α) :=
  match t.heap a with
  | none => none
  | some n => some { t with heap := Function.update t.heap a (some (f n)) }

/-- `malloc` of a node and the store of its element. The other fields
are written before they are read. -/
def Table.malloc (t : Table α) (data : α) : Addr × Table α :=
  (t.brk,
   { t with
     heap := Function.update t.heap t.brk
       (some { data := data, delta := 0, htNext := none, dlNext := none,
               dlPrev := none })
     brk := t.brk + 1 })

/-- `free` of a node. -/
def Table.free (t : Table α) (a : Addr) : Table α :=
  { t with heap := Function.update t.heap a none }

/-- The wrapped flag after computing `a - b` in unsigned arithmetic. -/
def Table.noteSub (t : Table α) (a b : UInt32) : Table α :=
  { t with wrapped := t.wrapped || decide (a < b) }

variable (c : Conf α)

/-- The bucket of an element: `hash(data) % HT_SIZE`. -/
def bucket (x : α) : Fin HT_SIZE :=
  ⟨(c.hash x).toNat % HT_SIZE, Nat.mod_lt _ (by decide)⟩

/-- The loop of `get_node`: `it` is the cursor and `last` the node
before it in the bucket. -/
def getNodeLoop (h : Heap Addr (DeltaNode α)) (x : α) :
    Nat → Option Addr → Option Addr → Option (Option Addr × Option Addr)
  | 0, _, _ => none
  | _ + 1, none, last => some (none, last)
  | k + 1, some a, last =>
      match h a with
      | none => none
      | some n =>
          if c.equals n.data x then some (some a, last)
          else getNodeLoop h x k n.htNext (some a)

/-- `get_node`: the node of an element, if there is one, and the node
before it in its bucket. -/
def getNode (t : Table α) (x : α) : Option (Option Addr × Option Addr) :=
  getNodeLoop c t.heap x (t.brk + 1) (t.table (bucket c x)) none

/-- `hash_insert`. -/
def hashInsert (t : Table α) (a : Addr) : Option (Table α) := do
  let n ← t.heap a
  let i := bucket c n.data
  let t ← t.write a fun n => { n with htNext := t.table i }
  return { t with table := Function.update t.table i (some a) }

/-- `dl_insert_node`. -/
def dlInsertNode (t : Table α) (a : Addr) : Option (Table α) := do
  let t ← t.write a fun n => { n with delta := c.interval }
  let t ← match t.deltaHead with
    | none => do
        let t := { t with deltaHead := some a, deltaTail := some a }
        t.write a fun n => { n with dlPrev := none }
    | some _ => do
        let n ← t.heap a
        let t := t.noteSub n.delta t.delta
        let t ← t.write a fun n => { n with delta := n.delta - t.delta }
        let tail ← t.deltaTail
        let t ← t.write tail fun n => { n with dlNext := some a }
        let t ← t.write a fun n => { n with dlPrev := t.deltaTail }
        pure { t with deltaTail := some a }
  let t ← t.write a fun n => { n with dlNext := none }
  return { t with delta := c.interval }

/-- The first `if` of `dl_remove_node`: the difference goes to the next
node, or comes off the sum when there is none. -/
def unlinkNext (t : Table α) (n : DeltaNode α) : Option (Table α) :=
  match n.dlNext with
  | some b =>
      t.write b fun m =>
        { m with delta := m.delta + n.delta, dlPrev := n.dlPrev }
  | none =>
      let t := t.noteSub t.delta n.delta
      some { t with delta := t.delta - n.delta }

/-- The second `if` of `dl_remove_node`. `delta_tail` is written by
neither of them. -/
def unlinkPrev (t : Table α) (n : DeltaNode α) : Option (Table α) :=
  match n.dlPrev with
  | some p => t.write p fun m => { m with dlNext := n.dlNext }
  | none => some { t with deltaHead := n.dlNext }

/-- `dl_remove_node`. -/
def dlRemoveNode (t : Table α) (a : Addr) : Option (Table α) := do
  let n ← t.heap a
  let t ← unlinkNext t n
  let n ← t.heap a
  unlinkPrev t n

/-- The part of `delta_delete` that takes the node out of its bucket. -/
def hashUnlink (t : Table α) (x : α) (prev : Option Addr)
    (n : DeltaNode α) : Option (Table α) :=
  match prev with
  | some p => t.write p fun m => { m with htNext := n.htNext }
  | none =>
      some { t with
        table := Function.update t.table (bucket c x) n.htNext }

/-- `delta_delete`: the return code, the table and the callbacks made. -/
def deltaDelete (t : Table α) (x : α) :
    Option (Int × Table α × List (Call α)) := do
  let (node, prev) ← getNode c t x
  match node with
  | none => return (-1, t, [])
  | some a => do
      let n ← t.heap a
      let t ← hashUnlink c t x prev n
      let t ← dlRemoveNode t a
      let t := { t with size := t.size - 1 }
      let n ← t.heap a
      return (0, t.free a, [.free n.data])

/-- The loop of `delta_tick`: remove the head while its delta is zero. -/
def expireLoop : Nat → Table α → Option (Table α × List (Call α))
  | 0, _ => none
  | k + 1, t =>
      match t.deltaHead with
      | none => some (t, [])
      | some a => do
          let n ← t.heap a
          if n.delta ≠ 0 then
            return (t, [])
          else
            let (_, t, freed) ← deltaDelete c t n.data
            let (t, later) ← expireLoop k t
            return (t, .act n.data :: freed ++ later)

/-- `delta_tick`. -/
def deltaTick (t : Table α) : Option (Table α × List (Call α)) := do
  match t.deltaHead with
  | none => return (t, [])
  | some a => do
      let t := t.noteSub t.delta 1
      let t := { t with delta := t.delta - 1 }
      let n ← t.heap a
      let t := t.noteSub n.delta 1
      let t ← t.write a fun n => { n with delta := n.delta - 1 }
      expireLoop c (t.brk + 1) t

/-- `delta_insert`. -/
def deltaInsert (t : Table α) (x : α) : Option (Table α) := do
  let (node, _) ← getNode c t x
  match node with
  | some _ => return t
  | none => do
      let (a, t) := t.malloc x
      let t ← hashInsert c t a
      let t ← dlInsertNode c t a
      return { t with size := t.size + 1 }

/-- `delta_update`: the return code and the table. -/
def deltaUpdate (t : Table α) (x : α) : Option (Int × Table α) := do
  let (node, _) ← getNode c t x
  match node with
  | some a => do
      let t ← dlRemoveNode t a
      let t ← dlInsertNode c t a
      return (1, t)
  | none => do
      let (a, t) := t.malloc x
      let t ← hashInsert c t a
      let t := { t with size := t.size + 1 }
      let t ← dlInsertNode c t a
      return (0, t)

/-- `delta_remove`. -/
def deltaRemove (t : Table α) (x : α) :
    Option (Int × Table α × List (Call α)) :=
  deltaDelete c t x

/-- `delta_contains`. -/
def deltaContains (t : Table α) (x : α) : Option Int := do
  let (node, _) ← getNode c t x
  return if node.isSome then 1 else 0

/-- `delta_get`: the element of the table equal to the argument, if
there is one. -/
def deltaGet (t : Table α) (x : α) : Option (Option α) := do
  let (node, _) ← getNode c t x
  match node with
  | none => return none
  | some a => do
      let n ← t.heap a
      return some n.data

/-- The loop of `delta_clear`: free the nodes from `it` on. -/
def clearLoop : Nat → Option Addr → Table α → Option (Table α)
  | 0, _, _ => none
  | _ + 1, none, t => some t
  | k + 1, some a, t =>
      match t.heap a with
      | none => none
      | some n => clearLoop k n.dlNext (t.free a)

/-- `delta_clear`. -/
def deltaClear (t : Table α) : Option (Table α) := do
  let t ← clearLoop (t.brk + 1) t.deltaHead t
  return { t with size := 0, delta := 0, deltaHead := none,
                  deltaTail := none, table := fun _ => none }

/-- The loop of `delta_foreach`; `f` returns the new value of its
argument and its return code. -/
def foreachLoop {σ : Type} (h : Heap Addr (DeltaNode α))
    (f : α → σ → σ × Int) : Nat → Option Addr → σ → Option σ
  | 0, _, _ => none
  | _ + 1, none, arg => some arg
  | k + 1, some a, arg =>
      match h a with
      | none => none
      | some n =>
          let (arg, rc) := f n.data arg
          if rc ≠ 0 then some arg else foreachLoop h f k n.dlNext arg

/-- `delta_foreach`. -/
def deltaForeach {σ : Type} (t : Table α) (f : α → σ → σ × Int)
    (arg : σ) : Option σ :=
  foreachLoop t.heap f (t.brk + 1) t.deltaHead arg

/-- `delta_size`. -/
def deltaSize (t : Table α) : UInt32 := t.size

-- ================================================================= the runs

/-- What a call gives back: the return code (0 for the functions that
return nothing) and the callbacks made, in order. -/
structure Reply (α : Type) where
  rc : Int
  calls : List (Call α)
  deriving DecidableEq, Repr

/-- One call of the table's interface: the operations are those of a
timed set. -/
def step (t : Table α) : Op α → Option (Table α × Reply α)
  | .insert x => do
      let t ← deltaInsert c t x
      return (t, ⟨0, []⟩)
  | .update x => do
      let (rc, t) ← deltaUpdate c t x
      return (t, ⟨rc, []⟩)
  | .remove x => do
      let (rc, t, calls) ← deltaRemove c t x
      return (t, ⟨rc, calls⟩)
  | .tick => do
      let (t, calls) ← deltaTick c t
      return (t, ⟨0, calls⟩)
  | .clear => do
      let t ← deltaClear t
      return (t, ⟨0, []⟩)

end Psnet.DeltaList
