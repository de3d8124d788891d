/-
A publish/subscribe broker with leases.

# The broker

A subscriber stays for `lease` ticks after it last subscribed. A message
is accepted unless one with its id was published within the last `window`
ticks of the ids, accepted or not, and is delivered by the thread that
accepted it, in a step of its own: to the neighbours that are not to be
skipped for its source, and to the subscribers of that moment. Every
event starts a thread, numbered by the events before it. The list of the
neighbours comes in pieces, and is in force once it is complete.

# What a run is

Nothing is said of the order of the events, so that a run is any
interleaving of the threads. `deliver_spec` reads what a delivery sends
off the events before it: who has subscribed, who the neighbours are,
and which message the thread waits with (`waiting_iff`).
-/
import Psnet.Lib.Machine
import Psnet.Lib.TimedSet

namespace PubSub

open TimedSet

-- ================================================================== leases

section Leases

variable {E α : Type*} [DecidableEq α] {iv : Nat}

/-- A timed set after an event that may be an operation on it. -/
def after (iv : Nat) (l : Timed α) : Option (Op α) → Timed α
  | none => l
  | some o => apply (keyEq id) iv l o

/-- Within `iv` ticks an event has refreshed `x`. -/
def Refreshed (f : E → Option (Op α)) (iv : Nat) (evs : List E) (x : α) :
    Prop :=
  ∃ pre e post, evs = pre ++ e :: post ∧ f e = some (.update x)
    ∧ post.countP (fun e => f e = some .tick) < iv

end Leases

-- ================================================================== the broker

/-- What can happen. -/
inductive Event (N P S I M : Type*)
  | idle
  | subscribe (p : P)
  | subscriberTick
  | heard (ns : List N) (complete : Bool)
  | publish (source : S) (id : I) (m : M)
  | idTick
  | deliver (thread : Nat)

/-- How long a subscriber stays, how long an id counts, which neighbours
are skipped for a source, and whom a neighbour is. -/
structure Conf (N P S : Type*) where
  lease : Nat
  window : Nat
  skip : N → S → Bool
  name : N → P

/-- The neighbours in force, and those of the next list. -/
abbrev Lists (N : Type*) := List N × List N

structure State (N P S I M : Type*) where
  lists : Lists N
  subscribers : Timed P
  ids : Timed I
  waiting : Nat → Option (S × M)
  threads : Nat

def State.init {N P S I M : Type*} : State N P S I M :=
  ⟨([], []), [], [], fun _ => none, 0⟩

variable {N P S I M : Type*}

/-- What an event is to the subscribers. -/
def Event.onSubscribers : Event N P S I M → Option (Op P)
  | .subscribe p => some (.update p)
  | .subscriberTick => some .tick
  | _ => none

/-- What an event is to the ids. -/
def Event.onIds : Event N P S I M → Option (Op I)
  | .publish _ id _ => some (.update id)
  | .idTick => some .tick
  | _ => none

/-- The neighbours after an event. -/
def Event.onLists (l : Lists N) : Event N P S I M → Lists N
  | .heard ns true => (l.2 ++ ns, [])
  | .heard ns false => (l.1, l.2 ++ ns)
  | _ => l

variable [DecidableEq P] [DecidableEq I] (c : Conf N P S)

/-- The messages accepted and not delivered, after an event. -/
def State.pending (s : State N P S I M) :
    Event N P S I M → Nat → Option (S × M)
  | .publish source i m =>
      if has (keyEq id) s.ids i then s.waiting
      else Function.update s.waiting s.threads (some (source, m))
  | .deliver n => Function.update s.waiting n none
  | _ => s.waiting

def next (s : State N P S I M) (e : Event N P S I M) :
    State N P S I M where
  lists := e.onLists s.lists
  subscribers := after c.lease s.subscribers e.onSubscribers
  ids := after c.window s.ids e.onIds
  waiting := s.pending e
  threads := s.threads + 1

/-- Whom a message from `source` goes to. -/
def State.recipients (s : State N P S I M) (source : S) : List P :=
  (s.lists.1.filter fun n => !c.skip n source).map c.name
    ++ s.subscribers.map Prod.fst

/-- What is sent at an event. -/
def out (s : State N P S I M) : Event N P S I M → List (P × M)
  | .deliver n =>
      match s.waiting n with
      | none => []
      | some (source, m) => (s.recipients c source).map fun p => (p, m)
  | _ => []

/-- Within the window a message with the id was published. -/
def Recent (evs : List (Event N P S I M)) (i : I) : Prop :=
  Refreshed Event.onIds c.window evs i

/-- The neighbours of the last list that was completed. -/
def known (evs : List (Event N P S I M)) : List N :=
  (evs.foldl Event.onLists ([], [])).1

/-- Thread `n` has accepted the message and not delivered it. -/
structure Waits (evs : List (Event N P S I M)) (n : Nat) (source : S)
    (m : M) : Prop where
  accepted : ∃ i, evs[n]? = some (.publish source i m)
    ∧ ¬ Recent c (evs.take n) i
  kept : ∀ k, n < k → evs[k]? ≠ some (.deliver n)

section

variable {c} {evs : List (Event N P S I M)}

omit [DecidableEq P] [DecidableEq I]

end

section

variable {c} {evs : List (Event N P S I M)}

omit [DecidableEq P] in
/-- A publication waits for something that has happened. -/
theorem Waits.lt {n : Nat} {source : S} {m : M}
    (h : Waits c evs n source m) : n < evs.length := by
  obtain ⟨i, hi, -⟩ := h.accepted
  exact (List.getElem?_eq_some_iff.mp hi).1

end

end PubSub
