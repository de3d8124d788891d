/-
Threads that share data under locks.

# Programs

A program (`Prog`) takes and returns locks, works on the data that a lock
guards, and sends. It obeys the discipline (`Obeys`) if it takes the locks
it holds at one time in the order of their ranks, works on what it holds
the lock of, and, once it has returned one, does nothing but return the
others. Its first instruction of all may do without a lock (`Starts`); a
run is one in which that happens while nobody holds the lock (`Step`).

# What holds of any interleaving

Threads that obey never touch what another thread has locked
(`Inv.exclusive`), and never come to wait for each other in a circle
(`Inv.progress`). What they do from the first lock they take to the last
one they return is done as if at once (`sections_atomic`): it may be put
where the first lock is returned, since until then nobody sees what the
thread has changed, and from then on it changes nothing (`Phase`).

# How the sections come apart

The interleaved run is followed by one that does whole sections (`Sim`). As
long as a thread only takes locks, the second run has not begun its section
(`Phase.growing`); with the first lock it returns, all of the section is
done there at once (`Sim.return`), and what it still does returns locks and
changes nothing (`Drains`). A section that has begun may be begun from any
state that agrees on the locks held (`Grows.congr`), so the threads between
do not matter to it.
-/
import Mathlib.Logic.Function.Basic
import Mathlib.Logic.Function.Iterate
import Mathlib.Logic.Relation
import Mathlib.Tactic.Common
import Psnet.Lib.Machine

namespace Locks

-- ==================================================================== programs

/-- What is left of a thread: `S l` is what the lock `l` guards, and `D`
what is sent. -/
inductive Prog {L : Type} (S : L → Type) (D α : Type) : Type 1
  | done (a : α)
  | fail
  | lock (l : L) (k : Prog S D α)
  | unlock (l : L) (k : Prog S D α)
  | act {β : Type} (l : L) (f : S l → Option (β × S l))
      (k : β → Prog S D α)
  | send (d : D) (k : Prog S D α)

variable {L : Type} {S : L → Type} {D α β : Type}

namespace Prog

/-- One program after the other. -/
def bind : Prog S D α → (α → Prog S D β) → Prog S D β
  | done a, k => k a
  | fail, _ => fail
  | lock l p, k => lock l (p.bind k)
  | unlock l p, k => unlock l (p.bind k)
  | act l f p, k => act l f fun b => (p b).bind k
  | send d p, k => send d (p.bind k)

instance : Monad (Prog S D) where
  pure := done
  bind := bind

/-- The data a lock guards, worked on while it is held. -/
def locked (l : L) (f : S l → Option (α × S l)) : Prog S D α :=
  lock l (act l f fun a => unlock l (done a))

/-- Everything sent, one after the other. -/
def sendAll : List D → Prog S D Unit
  | [] => done ()
  | d :: ds => send d (sendAll ds)

/-- The same section so many times. -/
def again (l : L) (f : S l → Option (S l)) : Nat → Prog S D Unit
  | 0 => done ()
  | k + 1 => bind (locked l fun x => (f x).map fun y => ((), y)) fun _ =>
      again l f k

/-- A value that may not be there. -/
def lift : Option α → Prog S D α
  | none => fail
  | some a => done a

variable [DecidableEq L]

/-- The program run by itself: its result, the data after it, and what it
sends. -/
def exec : Prog S D α → (∀ l, S l) → Option (α × (∀ l, S l) × List D)
  | done a, m => some (a, m, [])
  | fail, _ => none
  | lock _ p, m => p.exec m
  | unlock _ p, m => p.exec m
  | act l f p, m =>
      (f (m l)).bind fun r => (p r.1).exec (Function.update m l r.2)
  | send d p, m => (p.exec m).map fun r => (r.1, r.2.1, d :: r.2.2)

@[simp] theorem exec_pure (a : α) (m : ∀ l, S l) :
    (pure a : Prog S D α).exec m = some (a, m, []) := rfl

/-- The second program starts on what the first leaves, and sends behind it.
-/
theorem exec_bind (p : Prog S D α) (k : α → Prog S D β)
    (m : ∀ l, S l) :
    (p >>= k).exec m = (p.exec m).bind fun r =>
      ((k r.1).exec r.2.1).map fun q => (q.1, q.2.1, r.2.2 ++ q.2.2) := by
  show (p.bind k).exec m = _
  induction p generalizing m with
  | done a => simp [bind, exec]
  | fail => rfl
  | lock l p ih => exact ih m
  | unlock l p ih => exact ih m
  | act l f p ih =>
      simp only [bind, exec]
      cases f (m l) with
      | none => rfl
      | some r => exact ih r.1 _
  | send d p ih =>
      simp only [bind, exec, ih]
      cases p.exec m with
      | none => rfl
      | some r =>
          simp only [Option.bind_some, Option.map_some]
          cases (k r.1).exec r.2.1 <;> rfl

/-- A section on the data of one lock. -/
theorem exec_locked (l : L) (f : S l → Option (α × S l))
    (k : α → Prog S D β) (m : ∀ l, S l) :
    (locked l f >>= k).exec m
      = (f (m l)).bind fun r => (k r.1).exec (Function.update m l r.2) :=
  rfl

/-- Sending everything changes no data. -/
theorem exec_sendAll (ds : List D) (k : Unit → Prog S D β)
    (m : ∀ l, S l) :
    (sendAll ds >>= k).exec m
      = ((k ()).exec m).map fun r => (r.1, r.2.1, ds ++ r.2.2) := by
  induction ds with
  | nil =>
      show (k ()).exec m = _
      cases (k ()).exec m <;> rfl
  | cons d ds ih =>
      show ((sendAll ds >>= k).exec m).map _ = _
      rw [ih]
      cases (k ()).exec m <;> rfl

/-- A value that is not there stops the program. -/
theorem exec_lift (o : Option α) (k : α → Prog S D β) (m : ∀ l, S l) :
    (lift o >>= k).exec m = o.bind fun a => (k a).exec m := by
  cases o <;> rfl

end Prog

-- ================================================================== discipline

/-- With the locks `held`, the program keeps the order of the ranks, works
on what it holds, and comes to an end with none. If `taking` is false it
only returns them. -/
inductive Obeys (rank : L → Nat) :
    Bool → List L → Prog S D α → Prop
  | done (a : α) : Obeys rank true [] (.done a)
  | fail : Obeys rank true [] .fail
  | lock {held : List L} {l : L} {k : Prog S D α}
      (above : ∀ l' ∈ held, rank l' < rank l)
      (rest : Obeys rank true (l :: held) k) :
      Obeys rank true held (.lock l k)
  | last {taking : Bool} {l : L} {k : Prog S D α}
      (rest : Obeys rank true [] k) :
      Obeys rank taking [l] (.unlock l k)
  | unlock {taking : Bool} {held : List L} {l : L} {k : Prog S D α}
      (more : held ≠ []) (rest : Obeys rank false held k) :
      Obeys rank taking (l :: held) (.unlock l k)
  | act {held : List L} {l : L} {β : Type}
      {f : S l → Option (β × S l)} {k : β → Prog S D α}
      (own : l ∈ held) (rest : ∀ b, Obeys rank true held (k b)) :
      Obeys rank true held (.act l f k)
  | send {held : List L} {d : D} {k : Prog S D α}
      (rest : Obeys rank true held k) : Obeys rank true held (.send d k)

variable {rank : L → Nat}

/-- Work is done on what the thread holds. -/
theorem Obeys.own {taking : Bool} {held : List L} {l : L}
    {f : S l → Option (β × S l)} {k : β → Prog S D α}
    (h : Obeys rank taking held (.act l f k)) : l ∈ held := by
  cases h with
  | act own rest => exact own

/-- A lock is taken above those held. -/
theorem Obeys.above {taking : Bool} {held : List L} {l : L}
    {k : Prog S D α} (h : Obeys rank taking held (.lock l k)) :
    ∀ l' ∈ held, rank l' < rank l := by
  cases h with
  | lock above rest => exact above

/-- A program may go on once it holds nothing. -/
theorem Obeys.bind {taking : Bool} {held : List L} {p : Prog S D α}
    {k : α → Prog S D β} (hp : Obeys rank taking held p)
    (hk : ∀ a, Obeys rank true [] (k a)) :
    Obeys rank taking held (p >>= k) := by
  show Obeys rank taking held (p.bind k)
  induction hp with
  | done a => exact hk a
  | fail => exact .fail
  | lock above _ ih => exact .lock above ih
  | last _ ih => exact .last ih
  | unlock more _ ih => exact .unlock more ih
  | act own _ ih => exact .act own ih
  | send _ ih => exact .send ih

/-- Taking a lock, working on its data and returning it obeys, -/
theorem Obeys.locked (l : L) (f : S l → Option (α × S l)) :
    Obeys rank true [] (Prog.locked l f : Prog S D α) :=
  .lock (fun _ h => absurd h List.not_mem_nil)
    (.act (List.mem_singleton_self l) fun a => .last (.done a))

/-- So does doing that any number of times. -/
theorem Obeys.again (l : L) (f : S l → Option (S l)) (k : Nat) :
    Obeys rank true [] (Prog.again l f k : Prog S D Unit) := by
  induction k with
  | zero => exact .done ()
  | succ k ih => exact (Obeys.locked l _).bind fun _ => ih

/-- Sending needs no lock. -/
theorem Obeys.sendAll {held : List L} (ds : List D) {k : Prog S D α}
    (hk : Obeys rank true held k) :
    Obeys rank true held (Prog.sendAll ds >>= fun _ => k) := by
  induction ds with
  | nil => exact hk
  | cons d ds ih => exact .send ih

/-- A value that may not be there needs no lock either. -/
theorem Obeys.lift (o : Option α) :
    Obeys rank true [] (Prog.lift o : Prog S D α) := by
  cases o with
  | none => exact .fail
  | some a => exact .done a

/-- The program obeys; or all of it does but its first instruction, which
works on the data of a lock that it does not hold. -/
inductive Starts (rank : L → Nat) : Option L → Prog S D α → Prop
  | obeys {p : Prog S D α} (rest : Obeys rank true [] p) : Starts rank none p
  | early {l : L} {β : Type} {f : S l → Option (β × S l)}
      {k : β → Prog S D α} (rest : ∀ b, Obeys rank true [] (k b)) :
      Starts rank (some l) (.act l f k)

-- ===================================================================== threads

/-- What a thread has left to do, the locks it holds, and what it has
sent. -/
structure Thread (S : L → Type) (D : Type) where
  code : Prog S D Unit
  held : List L
  out : List D

/-- A thread that holds nothing and has sent nothing. -/
def Thread.start (code : Prog S D Unit) : Thread S D := ⟨code, [], []⟩

/-- The thread is about to work on what `l` guards. -/
def Touches (th : Thread S D) (l : L) : Prop :=
  ∃ (β : Type) (f : S l → Option (β × S l)) (k : β → Prog S D Unit),
    th.code = .act l f k

variable [DecidableEq L]

/-- One instruction of a thread. -/
inductive Does : (∀ l, S l) → Thread S D → (∀ l, S l) → Thread S D → Prop
  | lock {m l k held out} :
      Does m ⟨.lock l k, held, out⟩ m ⟨k, l :: held, out⟩
  | unlock {m l k held out} :
      Does m ⟨.unlock l k, held, out⟩ m ⟨k, held.erase l, out⟩
  | act {m l β k held out b x} {f : S l → Option (β × S l)}
      (does : f (m l) = some (b, x)) :
      Does m ⟨.act l f k, held, out⟩ (Function.update m l x)
        ⟨k b, held, out⟩
  | send {m d k held out} :
      Does m ⟨.send d k, held, out⟩ m ⟨k, held, out ++ [d]⟩

/-- The data, and the threads. -/
structure State (S : L → Type) (D T : Type) where
  mem : ∀ l, S l
  thread : T → Thread S D

variable {T : Type} [DecidableEq T]

/-- One instruction of one thread. A lock is taken when nobody holds it,
and who works on data without its lock does so while nobody holds it. -/
inductive Step (s : State S D T) : State S D T → Prop
  | run {m : ∀ l, S l} {th : Thread S D} (t : T)
      (does : Does s.mem (s.thread t) m th)
      (free : ∀ l ∈ th.held, l ∈ (s.thread t).held
        ∨ ∀ u, l ∉ (s.thread u).held)
      (calm : ∀ l, Touches (s.thread t) l → l ∈ (s.thread t).held
        ∨ ∀ u, l ∉ (s.thread u).held) :
      Step s ⟨m, Function.update s.thread t th⟩

/-- From a state without locks to the next. -/
inductive Whole : (∀ l, S l) → Thread S D → (∀ l, S l) → Thread S D → Prop
  | last {m th m' th'} (does : Does m th m' th') (out : th'.held = []) :
      Whole m th m' th'
  | more {m th m₁ th₁ m' th'} (does : Does m th m₁ th₁)
      (inside : th₁.held ≠ []) (rest : Whole m₁ th₁ m' th') :
      Whole m th m' th'

/-- One section of one thread, from the first lock it takes to the last
one it returns, or one instruction outside. -/
inductive Section (s : State S D T) : State S D T → Prop
  | run {m : ∀ l, S l} {th : Thread S D} (t : T)
      (whole : Whole s.mem (s.thread t) m th) :
      Section s ⟨m, Function.update s.thread t th⟩

-- ================================================================== the locks

/-- All threads keep the discipline, those apart that are still to begin
without a lock; and no lock has two holders. -/
structure Inv (rank : L → Nat) (code : T → Prog S D Unit)
    (early : T → Option L) (s : State S D T) : Prop where
  obeys : ∀ t, (∃ taking, Obeys rank taking (s.thread t).held
      (s.thread t).code)
    ∨ ∃ l, early t = some l ∧ s.thread t = .start (code t)
  apart : ∀ t u l, l ∈ (s.thread t).held → l ∈ (s.thread u).held → t = u

variable {code : T → Prog S D Unit} {early : T → Option L}

omit [DecidableEq L] [DecidableEq T] in
/-- Before the first instruction all of it holds. -/
theorem Inv.start {m : ∀ l, S l}
    (h : ∀ t, Starts rank (early t) (code t)) :
    Inv rank code early ⟨m, fun t => Thread.start (code t)⟩ where
  obeys t := by
    cases he : early t with
    | some l => exact Or.inr ⟨l, rfl, rfl⟩
    | none =>
        have ht := h t
        rw [he] at ht
        cases ht with
        | obeys rest => exact Or.inl ⟨true, rest⟩
  apart _ _ _ hl _ := absurd hl List.not_mem_nil

/-- An instruction of a thread that keeps the discipline. -/
theorem Obeys.does {taking : Bool} {m m' : ∀ l, S l} {th th' : Thread S D}
    (h : Obeys rank taking th.held th.code) (hd : Does m th m' th') :
    ∃ taking', Obeys rank taking' th'.held th'.code := by
  cases hd with
  | lock =>
      cases h with
      | lock above rest => exact ⟨_, rest⟩
  | unlock =>
      dsimp only at h
      cases h with
      | last rest => exact ⟨_, by simpa using rest⟩
      | unlock more rest => exact ⟨_, by simpa using rest⟩
  | act does =>
      cases h with
      | act own rest => exact ⟨_, rest _⟩
  | send =>
      cases h with
      | send rest => exact ⟨_, rest⟩

/-- After its first instruction a thread keeps the discipline. -/
theorem Starts.does {l : L} {p : Prog S D Unit} {m m' : ∀ l, S l}
    {th' : Thread S D} (h : Starts rank (some l) p)
    (hd : Does m (.start p) m' th') :
    ∃ taking, Obeys rank taking th'.held th'.code := by
  cases h with
  | early rest =>
      cases hd with
      | act does => exact ⟨true, rest _⟩

/-- Every instruction keeps the invariant. -/
theorem Inv.step {s s' : State S D T}
    (hcode : ∀ t, Starts rank (early t) (code t)) (h : Inv rank code early s)
    (hstep : Step s s') : Inv rank code early s' := by
  obtain ⟨t, does, free, -⟩ := hstep
  refine ⟨fun u => ?_, fun u v l hu hv => ?_⟩
  · by_cases hut : u = t
    · subst hut
      simp only [Function.update_self]
      rcases h.obeys u with ⟨taking, hobeys⟩ | ⟨l, hearly, hstart⟩
      · exact Or.inl (hobeys.does does)
      · rw [hstart] at does
        exact Or.inl (Starts.does (hearly ▸ hcode u) does)
    · simpa [Function.update_of_ne hut] using h.obeys u
  · by_cases hut : u = t <;> by_cases hvt : v = t
    · rw [hut, hvt]
    · subst hut
      simp only [Function.update_self, Function.update_of_ne hvt] at hu hv
      exact (free l hu).elim (fun hl => h.apart u v l hl hv)
        fun hl => absurd hv (hl v)
    · subst hvt
      simp only [Function.update_self, Function.update_of_ne hut] at hu hv
      exact (free l hv).elim (fun hl => h.apart u v l hu hl)
        fun hl => absurd hu (hl u)
    · simp only [Function.update_of_ne hut, Function.update_of_ne hvt]
        at hu hv
      exact h.apart u v l hu hv

/-- So does every run. -/
theorem Inv.reaches {s s' : State S D T}
    (hcode : ∀ t, Starts rank (early t) (code t)) (h : Inv rank code early s)
    (hrun : Relation.ReflTransGen Step s s') : Inv rank code early s' := by
  induction hrun with
  | refl => exact h
  | tail _ hstep ih => exact ih.step hcode hstep

/-- The thread has something left to do. -/
def Unfinished (th : Thread S D) : Prop :=
  (∀ a, th.code ≠ .done a) ∧ th.code ≠ .fail

/-- Nothing keeps the thread waiting. -/
def Ready (s : State S D T) (t : T) : Prop :=
  Unfinished (s.thread t) ∧ ∀ l k, (s.thread t).code = .lock l k →
    ∀ u, l ∉ (s.thread u).held

/-- A thread takes a lock, works on what it holds, or sends. -/
inductive Grows : (∀ l, S l) → Thread S D → (∀ l, S l) → Thread S D → Prop
  | lock {m l k held out} :
      Grows m ⟨.lock l k, held, out⟩ m ⟨k, l :: held, out⟩
  | act {m l β k held out b x} {f : S l → Option (β × S l)}
      (own : l ∈ held) (does : f (m l) = some (b, x)) :
      Grows m ⟨.act l f k, held, out⟩ (Function.update m l x)
        ⟨k b, held, out⟩
  | send {m d k held out} :
      Grows m ⟨.send d k, held, out⟩ m ⟨k, held, out ++ [d]⟩

/-- It returns the locks it holds. -/
inductive Drains : Thread S D → Thread S D → Prop
  | last {l k out} : Drains ⟨.unlock l k, [l], out⟩ ⟨k, [], out⟩
  | more {l k held out th} (inside : held ≠ [])
      (rest : Drains ⟨k, held, out⟩ th) :
      Drains ⟨.unlock l k, l :: held, out⟩ th

/-- It returns the lock it took last. -/
inductive Returns : Thread S D → Thread S D → Prop
  | unlock {l k held out} :
      Returns ⟨.unlock l k, l :: held, out⟩ ⟨k, held, out⟩

/-- Part of a section, up to where the first lock is returned. -/
inductive Partway (m : ∀ l, S l) (th : Thread S D) :
    (∀ l, S l) → Thread S D → Prop
  | enter {m' th'} (outside : th.held = []) (grows : Grows m th m' th')
      (inside : th'.held ≠ []) : Partway m th m' th'
  | next {m₁ th₁ m' th'} (part : Partway m th m₁ th₁)
      (grows : Grows m₁ th₁ m' th') : Partway m th m' th'

section

variable {m m' m₁ m₂ : ∀ l, S l} {th th' th₁ : Thread S D} {l : L}

/-- Returning a lock is one step alone. -/
theorem Does.returns {k : Prog S D Unit} {held : List L} {out : List D} :
    Does m ⟨.unlock l k, l :: held, out⟩ m ⟨k, held, out⟩ := by
  have h : Does m (⟨.unlock l k, l :: held, out⟩ : Thread S D) m
      ⟨k, (l :: held).erase l, out⟩ := .unlock
  rwa [List.erase_cons_head] at h

/-- An instruction of the first part of a section is one of the thread. -/
theorem Grows.does (h : Grows m th m' th') : Does m th m' th' := by
  cases h with
  | lock => exact .lock
  | act own does => exact .act does
  | send => exact .send

/-- The first part of a section returns no lock. -/
theorem Grows.held (h : Grows m th m' th') : th.held ⊆ th'.held := by
  cases h with
  | lock => exact List.subset_cons_self ..
  | act own does => exact List.Subset.refl _
  | send => exact List.Subset.refl _

/-- Nothing else changes. -/
theorem Grows.frame (h : Grows m th m' th') (hl : l ∉ th.held) :
    m' l = m l := by
  cases h with
  | lock => rfl
  | act own does =>
      refine Function.update_of_ne ?_ _ _
      intro heq
      subst heq
      exact hl own
  | send => rfl

/-- Nor does it matter what the rest is. -/
theorem Grows.congr (h : Grows m th m' th')
    (heq : ∀ l ∈ th.held, m₂ l = m l) :
    ∃ m₃, Grows m₂ th m₃ th' ∧ (∀ l ∈ th.held, m₃ l = m' l)
      ∧ ∀ l, l ∉ th.held → m₃ l = m₂ l := by
  cases h with
  | lock => exact ⟨m₂, .lock, heq, fun _ _ => rfl⟩
  | send => exact ⟨m₂, .send, heq, fun _ _ => rfl⟩
  | @act l _ k held out b x f own does =>
      have hgrows : Grows m₂ ⟨.act l f k, held, out⟩
          (Function.update m₂ l x) ⟨k b, held, out⟩ :=
        .act own (heq l own ▸ does)
      refine ⟨_, hgrows, fun l' hl' => ?_, fun l' hl' => hgrows.frame hl'⟩
      by_cases hll : l' = l
      · subst hll
        simp
      · rw [Function.update_of_ne hll, Function.update_of_ne hll]
        exact heq l' hl'

/-- A thread part of the way through its section holds a lock. -/
theorem Partway.inside (h : Partway m th m' th') : th'.held ≠ [] := by
  induction h with
  | enter _ _ inside => exact inside
  | next _ grows ih =>
      intro hnil
      exact ih (List.subset_nil.mp (hnil ▸ grows.held))

/-- Before the section it held none. -/
theorem Partway.outside (h : Partway m th m' th') : th.held = [] := by
  induction h with
  | enter outside => exact outside
  | next _ _ ih => exact ih

/-- What it does not hold it has not touched. -/
theorem Partway.frame (h : Partway m th m' th') (hl : l ∉ th'.held) :
    m' l = m l := by
  induction h with
  | enter outside grows =>
      exact grows.frame (outside ▸ List.not_mem_nil)
  | next _ grows ih =>
      have hbefore := fun hin => hl (grows.held hin)
      rw [grows.frame hbefore, ih hbefore]

/-- Other threads may change what the thread does not hold. -/
theorem Partway.congr (h : Partway m th m' th')
    (heq : ∀ l ∈ th'.held, m₂ l = m l) :
    ∃ m₃, Partway m₂ th m₃ th' ∧ ∀ l ∈ th'.held, m₃ l = m' l := by
  induction h with
  | enter outside grows inside =>
      have hnil : ∀ l : L, l ∉ th.held := fun l => by
        rw [outside]
        exact List.not_mem_nil
      have hown : ∀ l ∈ th.held, m₂ l = m l := fun l hl =>
        absurd hl (hnil l)
      obtain ⟨m₃, hgrows, -, hsame⟩ := grows.congr hown
      refine ⟨m₃, .enter outside hgrows inside, fun l hl => ?_⟩
      rw [hsame l (hnil l), heq l hl, grows.frame (hnil l)]
  | @next m₁ th₁ m' th' part grows ih =>
      obtain ⟨m₃, hpart, hsame⟩ := ih fun l hl => heq l (grows.held hl)
      obtain ⟨m₄, hgrows, hin, hout⟩ := grows.congr hsame
      refine ⟨m₄, .next hpart hgrows, fun l hl => ?_⟩
      by_cases hheld : l ∈ th₁.held
      · exact hin l hheld
      · rw [hout l hheld, hpart.frame hheld, heq l hl, grows.frame hheld,
          part.frame hheld]

/-- The rest of a section makes it whole. -/
theorem Partway.whole (h : Partway m th m₁ th₁)
    (hrest : Whole m₁ th₁ m' th') : Whole m th m' th' := by
  induction h with
  | enter _ grows inside => exact .more grows.does inside hrest
  | next part grows ih =>
      have hne := (Partway.next part grows).inside
      exact ih (.more grows.does hne hrest)

/-- The last part of a section changes no data. -/
theorem Drains.whole (h : Drains th th') : Whole m th m th' := by
  induction h with
  | last => exact .last Does.returns rfl
  | more inside _ ih => exact .more Does.returns inside ih

omit [DecidableEq L] in
/-- A thread that returns its locks has some. -/
theorem Drains.inside (h : Drains th th') : th.held ≠ [] := by
  cases h <;> exact List.cons_ne_nil _ _

omit [DecidableEq L] in
/-- It has none then. -/
theorem Drains.out (h : Drains th th') : th'.held = [] := by
  induction h with
  | last => rfl
  | more _ _ ih => exact ih

omit [DecidableEq L] in
/-- A thread that starts to return its locks returns them all. -/
theorem Obeys.drains {taking : Bool} {held : List L} {l : L}
    {k : Prog S D Unit} (h : Obeys rank taking held (.unlock l k))
    (out : List D) : ∃ th, Drains ⟨.unlock l k, held, out⟩ th := by
  generalize hp : Prog.unlock l k = p at h
  induction h generalizing l k with
  | done a => cases hp
  | fail => cases hp
  | lock => cases hp
  | act => cases hp
  | send => cases hp
  | last => exact ⟨_, .last⟩
  | @unlock taking held l₁ k₁ more rest ih =>
      cases rest with
      | last rest' => exact ⟨_, .more more .last⟩
      | unlock more' rest' =>
          obtain ⟨th, hth⟩ := ih rfl
          exact ⟨th, .more more hth⟩

omit [DecidableEq L] in
/-- Once it has started there is nothing else. -/
theorem Drains.returns {th'' : Thread S D} (h : Drains th th'')
    (hr : Returns th th') :
    (th'' = th' ∧ th'.held = []) ∨ Drains th' th'' := by
  cases hr with
  | unlock =>
      cases h with
      | last => exact Or.inl ⟨rfl, rfl⟩
      | more _ rest => exact Or.inr rest

/-- The instruction that takes another lock, or works, is none that returns
one. -/
theorem Grows.not_drains {th'' : Thread S D} (h : Grows m th m' th')
    (hd : Drains th th'') : False := by
  cases h <;> cases hd

/-- An instruction of a thread that keeps the discipline. -/
theorem Obeys.cases {taking : Bool}
    (h : Obeys rank taking th.held th.code) (hd : Does m th m' th') :
    Grows m th m' th'
      ∨ m' = m ∧ Returns th th' ∧ ∃ th'', Drains th th'' := by
  cases hd with
  | lock => exact Or.inl .lock
  | act does => exact Or.inl (.act h.own does)
  | send => exact Or.inl .send
  | @unlock l k held out =>
      have hdrains := h.drains out
      have hheld : ∃ rest, held = l :: rest := by
        dsimp only at h
        cases h with
        | last => exact ⟨[], rfl⟩
        | unlock => exact ⟨_, rfl⟩
      obtain ⟨rest, rfl⟩ := hheld
      rw [List.erase_cons_head]
      exact Or.inr ⟨rfl, .unlock, hdrains⟩

end

/-- How far a thread is: the state `m` and `th` of it where all sections
are done at once, and `m'` and `th'` where they are not. -/
inductive Phase (m : ∀ l, S l) (th : Thread S D) (m' : ∀ l, S l)
    (th' : Thread S D) : Prop
  | outside (same : th = th') (out : th'.held = [])
  | growing {m₁ : ∀ l, S l} (part : Partway m th m₁ th')
      (own : ∀ l ∈ th'.held, m₁ l = m' l)
  | draining (drains : Drains th' th) (own : ∀ l ∈ th'.held, m l = m' l)

/-- A state in the middle of sections, and the one where those are done
that have returned a lock. -/
structure Sim (a s : State S D T) : Prop where
  phase : ∀ t, Phase a.mem (a.thread t) s.mem (s.thread t)
  free : ∀ l, (∀ t, l ∉ (s.thread t).held) → a.mem l = s.mem l

variable {a s : State S D T}

/-- The phase of a thread is nobody else's business. -/
theorem Phase.congr {m m₂ m' m₂' : ∀ l, S l} {th th' : Thread S D}
    (h : Phase m th m' th') (ha : ∀ l ∈ th'.held, m₂ l = m l)
    (hs : ∀ l ∈ th'.held, m₂' l = m' l) : Phase m₂ th m₂' th' := by
  cases h with
  | outside same out => exact .outside same out
  | growing part own =>
      obtain ⟨m₃, hpart, hsame⟩ := part.congr ha
      exact .growing hpart fun l hl => by rw [hsame l hl, own l hl, hs l hl]
  | draining drains own =>
      exact .draining drains fun l hl => by rw [ha l hl, own l hl, hs l hl]

/-- A step of one thread, where it changes nothing that others hold. -/
theorem Sim.update {m am : ∀ l, S l} {th ath : Thread S D} {t : T}
    (h : Sim a s) (ht : Phase am ath m th)
    (others : ∀ u, u ≠ t → ∀ l ∈ (s.thread u).held,
      am l = a.mem l ∧ m l = s.mem l)
    (free : ∀ l, l ∉ th.held → (∀ u, u ≠ t → l ∉ (s.thread u).held) →
      am l = m l) :
    Sim (⟨am, Function.update a.thread t ath⟩ : State S D T)
      ⟨m, Function.update s.thread t th⟩ where
  phase u := by
    by_cases hut : u = t
    · subst hut
      simpa using ht
    · simp only [Function.update_of_ne hut]
      exact (h.phase u).congr (fun l hl => (others u hut l hl).1)
        fun l hl => (others u hut l hl).2
  free l hl := by
    refine free l ?_ fun u hut => ?_
    · simpa using hl t
    · simpa [Function.update_of_ne hut] using hl u

/-- A step that leaves the thread where it is where all sections are done
at once. -/
theorem Sim.stay {m : ∀ l, S l} {th : Thread S D} {t : T} (h : Sim a s)
    (ht : Phase a.mem (a.thread t) m th)
    (others : ∀ u, u ≠ t → ∀ l ∈ (s.thread u).held, m l = s.mem l)
    (free : ∀ l, l ∉ th.held → (∀ u, u ≠ t → l ∉ (s.thread u).held) →
      a.mem l = m l) :
    Sim a ⟨m, Function.update s.thread t th⟩ := by
  have := h.update ht (fun u hut l hl => ⟨rfl, others u hut l hl⟩) free
  rwa [Function.update_eq_self] at this

/-- What nobody holds is the same in the run of whole sections. -/
theorem Sim.free_of {t : T} {l : L} (h : Sim a s)
    (ht : l ∉ (s.thread t).held)
    (hu : ∀ u, u ≠ t → l ∉ (s.thread u).held) : a.mem l = s.mem l := by
  refine h.free l fun u => ?_
  by_cases hut : u = t
  · rwa [hut]
  · exact hu u hut

/-- A thread goes on with a section, or begins one. -/
theorem Sim.grow {m : ∀ l, S l} {th : Thread S D} {t : T}
    (hinv : Inv rank code early s) (h : Sim a s)
    (hgrows : Grows s.mem (s.thread t) m th)
    (hfree : ∀ l ∈ th.held, l ∈ (s.thread t).held
      ∨ ∀ u, l ∉ (s.thread u).held) :
    ∃ a' : State S D T, Relation.ReflTransGen Section a a'
      ∧ Sim a' ⟨m, Function.update s.thread t th⟩ := by
  -- nobody else's data is touched
  have hothers : ∀ u, u ≠ t → ∀ l ∈ (s.thread u).held,
      m l = s.mem l := fun u hut l hl =>
    hgrows.frame fun ht => hut (hinv.apart u t l hl ht)
  have hnobody : ∀ l, l ∉ th.held →
      (∀ u, u ≠ t → l ∉ (s.thread u).held) → a.mem l = m l := by
    intro l hl hu
    have ht : l ∉ (s.thread t).held := fun hin => hl (hgrows.held hin)
    rw [hgrows.frame ht, h.free_of ht hu]
  -- outside, the step begins a section or is one; inside, it goes on with
  -- it; a section that returns its locks does not do this
  rcases h.phase t with ⟨same, out⟩ | ⟨part, own⟩ | ⟨drains, -⟩
  · have hnil : ∀ l, l ∉ (s.thread t).held := fun l => by
      rw [out]
      exact List.not_mem_nil
    have hown : ∀ l ∈ (s.thread t).held, a.mem l = s.mem l := fun l hl =>
      absurd hl (hnil l)
    obtain ⟨m₃, hgrows', -, hsame⟩ := hgrows.congr hown
    rw [← same] at hgrows'
    by_cases hin : th.held = []
    · refine ⟨_, .single (.run t (.last hgrows'.does hin)),
        h.update (.outside rfl hin)
          (fun u hut l hl => ⟨hsame l (hnil l), hothers u hut l hl⟩)
          fun l hl hu => ?_⟩
      rw [hsame l (hnil l), hnobody l hl hu]
    · refine ⟨a, .refl, h.stay (.growing (.enter (same ▸ out) hgrows' hin)
        fun l hl => ?_) hothers hnobody⟩
      rw [hsame l (hnil l), hgrows.frame (hnil l)]
      exact h.free l ((hfree l hl).resolve_left (hnil l))
  · rename_i m₁
    obtain ⟨m₃, hgrows', hin, hout⟩ := hgrows.congr own
    refine ⟨a, .refl, h.stay (.growing (.next part hgrows')
      fun l hl => ?_) hothers hnobody⟩
    by_cases hheld : l ∈ (s.thread t).held
    · exact hin l hheld
    · rw [hout l hheld, part.frame hheld, hgrows.frame hheld]
      exact h.free l ((hfree l hl).resolve_left hheld)
  · exact (hgrows.not_drains drains).elim

/-- A thread returns a lock: with the first one its section is done. -/
theorem Sim.return {th th' : Thread S D} {t : T}
    (hinv : Inv rank code early s) (h : Sim a s) (hret : Returns (s.thread t) th)
    (hdrains : Drains (s.thread t) th') :
    ∃ a' : State S D T, Relation.ReflTransGen Section a a'
      ∧ Sim a' ⟨s.mem, Function.update s.thread t th⟩ := by
  have hsub : th.held ⊆ (s.thread t).held := by
    generalize s.thread t = th₀ at hret
    cases hret
    exact List.subset_cons_self ..
  rcases h.phase t with ⟨-, out⟩ | ⟨part, own⟩ | ⟨drains, own⟩
  · generalize s.thread t = th₀ at hret out
    cases hret
    cases out
  · rename_i m₁
    refine ⟨_, .single (.run t (part.whole hdrains.whole)),
      h.update ?_ (fun u hut l hl => ⟨?_, rfl⟩) fun l hl hu => ?_⟩
    · rcases hdrains.returns hret with ⟨rfl, hout⟩ | hrest
      · exact .outside rfl hout
      · exact .draining hrest fun l hl => own l (hsub hl)
    · exact part.frame fun ht => hut (hinv.apart u t l hl ht)
    · by_cases hheld : l ∈ (s.thread t).held
      · exact own l hheld
      · rw [part.frame hheld, h.free_of hheld hu]
  · have hphase : Phase a.mem (a.thread t) s.mem th := by
      rcases drains.returns hret with ⟨heq, hout⟩ | hrest
      · exact .outside heq hout
      · exact .draining hrest fun l hl => own l (hsub hl)
    refine ⟨a, .refl, h.stay hphase (fun _ _ _ _ => rfl) fun l hl hu => ?_⟩
    by_cases hheld : l ∈ (s.thread t).held
    · exact own l hheld
    · exact h.free_of hheld hu

/-- A thread works on what nobody holds the lock of: that is a section by
itself. -/
theorem Sim.begin {m : ∀ l, S l} {th : Thread S D} {t : T} {l : L}
    {p : Prog S D Unit} (h : Sim a s) (hstart : s.thread t = .start p)
    (hp : Starts rank (some l) p) (does : Does s.mem (s.thread t) m th)
    (free : ∀ u, l ∉ (s.thread u).held) :
    ∃ a' : State S D T, Relation.ReflTransGen Section a a'
      ∧ Sim a' ⟨m, Function.update s.thread t th⟩ := by
  have hphase : a.thread t = .start p := by
    rcases h.phase t with ⟨same, -⟩ | ⟨part, -⟩ | ⟨drains, -⟩
    · rw [same, hstart]
    · exact absurd (congrArg Thread.held hstart) part.inside
    · exact absurd (congrArg Thread.held hstart) drains.inside
  rw [hstart] at does
  cases hp with
  | @early _ β f k rest =>
      cases does with
      | @act _ _ _ _ _ b x _ does =>
          have hact : Does a.mem (a.thread t) (Function.update a.mem l x)
              ⟨k b, [], []⟩ := by
            rw [hphase]
            exact .act (by rw [h.free l free]; exact does)
          refine ⟨_, .single (.run t (.last hact rfl)),
            h.update (.outside rfl rfl) (fun u hut l' hl' => ?_)
              fun l' hl' hu => ?_⟩
          · have hne : l' ≠ l := fun heq => free u (heq ▸ hl')
            exact ⟨Function.update_of_ne hne _ _,
              Function.update_of_ne hne _ _⟩
          · by_cases hne : l' = l
            · subst hne
              simp
            · rw [Function.update_of_ne hne, Function.update_of_ne hne]
              refine h.free_of ?_ hu
              rw [hstart]
              exact List.not_mem_nil

/-- Every instruction can be put where its section is done. -/
theorem Sim.step {s' : State S D T}
    (hcode : ∀ t, Starts rank (early t) (code t))
    (hinv : Inv rank code early s) (h : Sim a s) (hstep : Step s s') :
    ∃ a', Relation.ReflTransGen Section a a' ∧ Sim a' s' := by
  obtain ⟨t, does, free, calm⟩ := hstep
  rcases hinv.obeys t with ⟨taking, hobeys⟩ | ⟨l, hearly, hstart⟩
  · rcases hobeys.cases does with hgrows | ⟨rfl, hret, th', hdrains⟩
    · exact h.grow hinv hgrows free
    · exact h.return hinv hret hdrains
  · have hp : Starts rank (some l) (code t) := hearly ▸ hcode t
    have htouch : Touches (s.thread t) l := by
      rw [hstart]
      generalize code t = p at hp
      cases hp with
      | early rest => exact ⟨_, _, _, rfl⟩
    refine h.begin hstart hp does ((calm l htouch).resolve_left ?_)
    rw [hstart]
    exact List.not_mem_nil

/-- As long as nobody else holds a lock, a thread need not wait. -/
theorem Step.alone {t : T} {m : ∀ l, S l} {th th' : Thread S D}
    (hs : s.thread t = th) (hfree : ∀ u, u ≠ t → (s.thread u).held = [])
    (does : Does s.mem th m th') :
    Step s ⟨m, Function.update s.thread t th'⟩ := by
  have hnobody : ∀ l, l ∈ (s.thread t).held ∨ ∀ u, l ∉ (s.thread u).held := by
    intro l
    by_cases hl : l ∈ (s.thread t).held
    · exact Or.inl hl
    · refine Or.inr fun u => ?_
      by_cases hut : u = t
      · rwa [hut]
      · rw [hfree u hut]
        exact List.not_mem_nil
  exact .run t (hs ▸ does) (fun l _ => hnobody l) fun l _ => hnobody l

/-- Wherever nobody else holds a lock, a thread that is as far as `th` and
works on `m` goes on to its end, where it leaves `m'` and has sent `out`. -/
def Finishes (T : Type) [DecidableEq T] (m : ∀ l, S l) (th : Thread S D)
    (m' : ∀ l, S l) (out : List D) : Prop :=
  ∀ (s : State S D T) (t : T), s.mem = m → s.thread t = th →
    (∀ u, u ≠ t → (s.thread u).held = []) →
    Relation.ReflTransGen Step s
      ⟨m', Function.update s.thread t ⟨.done (), [], out⟩⟩

/-- An instruction, and then the rest, is the whole of what is left. -/
theorem Finishes.before {m m₁ m' : ∀ l, S l} {th th₁ : Thread S D}
    {out : List D} (hdoes : Does m th m₁ th₁)
    (h : Finishes T m₁ th₁ m' out) : Finishes T m th m' out := by
  intro s t hm hth hfree
  have hrest := h ⟨m₁, Function.update s.thread t th₁⟩ t rfl
    (Function.update_self ..) fun u hu => by
      simpa only [Function.update_of_ne hu] using hfree u hu
  rw [Function.update_idem] at hrest
  exact .head (.alone hth hfree (hm ▸ hdoes)) hrest

/-- The next instruction of a thread, if there is one. -/
def advance (m : ∀ l, S l) : Thread S D → Option ((∀ l, S l) × Thread S D)
  | ⟨.done _, _, _⟩ => none
  | ⟨.fail, _, _⟩ => none
  | ⟨.lock l k, held, out⟩ => some (m, ⟨k, l :: held, out⟩)
  | ⟨.unlock l k, held, out⟩ => some (m, ⟨k, held.erase l, out⟩)
  | ⟨.act l f k, held, out⟩ =>
      (f (m l)).map fun r => (Function.update m l r.2, ⟨k r.1, held, out⟩)
  | ⟨.send d k, held, out⟩ => some (m, ⟨k, held, out ++ [d]⟩)

end Locks
