/-
The count of worker threads (common/server.c and the ends of the worker
callbacks in router/service.c and tracker/service.c).

# The threads

`main` sets the count to zero, starts the UDP thread and serves TCP. The
UDP thread sets the count to zero once more before it serves. Each server
waits for a request, admits or refuses it in one section under
`num_threads_lock`, and starts a worker for an admitted one; a worker
that is through takes itself off the count in another such section. An
action is one step of one thread; a failing initialisation ends the
process, and with it the run.

# What goes wrong

Nobody takes a request off the count whose worker could not be started,
and `udp_server_init` forgets the TCP requests admitted before it ran
(`accounted_step` and its converse `stepOk_of_accounted`). With a
negative `max_threads`, which the ini file may set, the count is above
the limit from the start.
-/
import Mathlib.Tactic.Common
import Mathlib.Data.List.Basic
import Mathlib.Data.List.Induction
import Mathlib.Logic.Function.Basic

namespace Psnet.Server

-- =================================================================== the state

inductive Proto
  | tcp
  | udp
  deriving DecidableEq, Repr

/-- Where a server is: not started, before its initialisation, waiting
for a request, before the admission of one, before the start of its
worker. -/
inductive ServerPc
  | off
  | starting
  | receiving
  | arrived
  | admitted
  deriving DecidableEq, Repr

/-- Where a worker is: about to read a message, about to handle one, or
out of its loop with the final section to come. -/
inductive WorkerPc
  | reading
  | handling
  | leaving
  deriving DecidableEq, Repr

structure Worker where
  server : Proto
  pc : WorkerPc
  deriving DecidableEq, Repr

structure State where
  numThreads : Int
  tcp : ServerPc
  udp : ServerPc
  workers : List Worker
  deriving DecidableEq, Repr

/-- The state after `main` has set the count to zero. -/
def State.init : State := ⟨0, .off, .off, []⟩

def State.pc (s : State) : Proto → ServerPc
  | .tcp => s.tcp
  | .udp => s.udp

def State.setPc (s : State) (srv : Proto) (pc : ServerPc) : State :=
  match srv with
  | .tcp => { s with tcp := pc }
  | .udp => { s with udp := pc }

-- ==================================================================== the steps

inductive Action
  | createUdp (ok : Bool)
  | init (srv : Proto)
  | receive (srv : Proto) (ok : Bool)
  | accept (srv : Proto)
  | create (srv : Proto) (ok : Bool)
  | work (i : Nat) (pc : WorkerPc)
  | finish (i : Nat)
  deriving DecidableEq, Repr

/-- Where a worker starts: `handle_connection` or `handle_message`. -/
def Proto.start : Proto → WorkerPc
  | .tcp => .reading
  | .udp => .handling

/-- The moves inside a worker's callback: a connection is closed by the
peer, answers and reads on, or refuses; a datagram is handled once. -/
def Proto.moves : Proto → WorkerPc → WorkerPc → Bool
  | .tcp, .reading, .handling => true
  | .tcp, .reading, .leaving => true
  | .tcp, .handling, .reading => true
  | .tcp, .handling, .leaving => true
  | .udp, .handling, .leaving => true
  | _, _, _ => false

/-- One step; `none` where the thread is not there to take it. -/
def step (maxThreads : Int) (s : State) : Action → Option State
  | .createUdp ok =>
      if s.tcp = .off ∧ s.udp = .off then
        some { s with tcp := .starting, udp := if ok then .starting else .off }
      else none
  | .init .tcp =>
      if s.tcp = .starting then some { s with tcp := .receiving } else none
  | .init .udp =>
      if s.udp = .starting then
        some { s with numThreads := 0, udp := .receiving }
      else none
  | .receive srv ok =>
      if s.pc srv = .receiving then
        -- a failing accept or recvfrom goes round the loop
        some (s.setPc srv (if ok then .arrived else .receiving))
      else none
  | .accept srv =>
      if s.pc srv = .arrived then
        if maxThreads ≤ s.numThreads then some (s.setPc srv .receiving)
        else
          some ({ s with numThreads := s.numThreads + 1 }.setPc srv .admitted)
      else none
  | .create srv ok =>
      if s.pc srv = .admitted then
        -- a failing pthread_create is reported and no more
        some ({ s with workers :=
          if ok then ⟨srv, srv.start⟩ :: s.workers else s.workers }.setPc srv
            .receiving)
      else none
  | .work i pc =>
      match s.workers[i]? with
      | none => none
      | some w =>
          if w.server.moves w.pc pc then
            some { s with workers := s.workers.set i { w with pc := pc } }
          else none
  | .finish i =>
      match s.workers[i]? with
      | none => none
      | some w =>
          if w.pc = .leaving then
            some { s with
              numThreads := s.numThreads - 1
              workers := s.workers.eraseIdx i }
          else none

/-- The state after some steps. -/
def run (maxThreads : Int) (acts : List Action) : Option State :=
  acts.foldlM (step maxThreads) State.init

-- ================================================================ what is to hold

/-- A server has a request admitted whose worker is still to start. -/
def ServerPc.pending : ServerPc → Nat
  | .admitted => 1
  | _ => 0

/-- The requests admitted whose worker is still to start or to take
itself off the count. -/
def State.outstanding (s : State) : Nat :=
  s.workers.length + s.tcp.pending + s.udp.pending

/-- The count is that of the requests outstanding, and within the
limit. -/
def Accounted (maxThreads : Int) (s : State) : Prop :=
  s.numThreads = s.outstanding ∧ 0 ≤ s.numThreads ∧ s.numThreads ≤ maxThreads

/-- No worker fails to start, and the UDP server initialises while no
request is outstanding. -/
def StepOk (s : State) : Action → Prop
  | .create _ ok => ok = true
  | .init .udp => s.outstanding = 0
  | _ => True

-- ==================================================================== one step

variable {maxThreads : Int} {s s' : State} {a : Action}

/-- What a server's move does to the requests outstanding. -/
private theorem outstanding_setPc (s : State) (srv : Proto) (pc : ServerPc) :
    (s.setPc srv pc).outstanding + (s.pc srv).pending
      = s.outstanding + pc.pending := by
  cases srv <;> simp [State.setPc, State.pc, State.outstanding] <;> omega

@[simp] theorem setPc_numThreads (s : State) (srv : Proto)
    (pc : ServerPc) : (s.setPc srv pc).numThreads = s.numThreads := by
  cases srv <;> rfl

/-- A server is where its own place says, whatever else is written. -/
private theorem pc_congr {srv : Proto} (htcp : s'.tcp = s.tcp)
    (hudp : s'.udp = s.udp) : s'.pc srv = s.pc srv := by
  cases srv
  · exact htcp
  · exact hudp

/-- What an action does to the count and to the requests outstanding. -/
inductive Effect (maxThreads : Int) (s s' : State) : Action → Prop
  | same {a : Action} (count : s'.numThreads = s.numThreads)
      (out : s'.outstanding = s.outstanding) : Effect maxThreads s s' a
  | admitted {a : Action} (count : s'.numThreads = s.numThreads + 1)
      (out : s'.outstanding = s.outstanding + 1)
      (room : s.numThreads < maxThreads) : Effect maxThreads s s' a
  | left {a : Action} (count : s'.numThreads = s.numThreads - 1)
      (out : s'.outstanding + 1 = s.outstanding) : Effect maxThreads s s' a
  | reset (count : s'.numThreads = 0)
      (out : s'.outstanding = s.outstanding) :
      Effect maxThreads s s' (.init .udp)
  | leaked {srv : Proto} (count : s'.numThreads = s.numThreads)
      (out : s'.outstanding + 1 = s.outstanding) :
      Effect maxThreads s s' (.create srv false)

/-- A move between two places with as many requests pending. -/
private theorem Effect.move {srv : Proto} {pc : ServerPc} {a : Action}
    (h : (s.pc srv).pending = pc.pending) :
    Effect maxThreads s (s.setPc srv pc) a := by
  refine .same (setPc_numThreads ..) ?_
  have := outstanding_setPc s srv pc
  omega

private theorem createUdp_effect {ok : Bool}
    (h : step maxThreads s (.createUdp ok) = some s') :
    Effect maxThreads s s' (.createUdp ok) := by
  simp only [step] at h
  split at h
  · next hoff =>
    obtain ⟨htcp, hudp⟩ := hoff
    cases h
    refine .same rfl ?_
    cases ok <;> simp [State.outstanding, htcp, hudp, ServerPc.pending]
  · cases h

private theorem init_effect {srv : Proto}
    (h : step maxThreads s (.init srv) = some s') :
    Effect maxThreads s s' (.init srv) := by
  cases srv with
  | tcp =>
      simp only [step] at h
      split at h
      · next hpc =>
        cases h
        have hpend : (s.pc .tcp).pending = ServerPc.pending .receiving := by
          simp [State.pc, hpc, ServerPc.pending]
        exact .move hpend
      · cases h
  | udp =>
      simp only [step] at h
      split at h
      · next hpc =>
        cases h
        refine .reset rfl ?_
        simp [State.outstanding, hpc, ServerPc.pending]
      · cases h

private theorem receive_effect {srv : Proto} {ok : Bool}
    (h : step maxThreads s (.receive srv ok) = some s') :
    Effect maxThreads s s' (.receive srv ok) := by
  simp only [step] at h
  split at h
  · next hpc =>
    cases h
    apply Effect.move
    rw [hpc]
    cases ok <;> rfl
  · cases h

private theorem accept_effect {srv : Proto}
    (h : step maxThreads s (.accept srv) = some s') :
    Effect maxThreads s s' (.accept srv) := by
  simp only [step] at h
  split at h
  · next hpc =>
    split at h
    · cases h
      exact .move (by rw [hpc]; rfl)
    · next hlt =>
      cases h
      refine .admitted (setPc_numThreads ..) ?_ (by omega)
      have hout := outstanding_setPc
        { s with numThreads := s.numThreads + 1 } srv .admitted
      have hat : State.pc { s with numThreads := s.numThreads + 1 } srv
          = .arrived := (pc_congr rfl rfl).trans hpc
      rw [hat] at hout
      exact hout
  · cases h

private theorem create_effect {srv : Proto} {ok : Bool}
    (h : step maxThreads s (.create srv ok) = some s') :
    Effect maxThreads s s' (.create srv ok) := by
  simp only [step] at h
  split at h
  · next hpc =>
    cases h
    have hout := outstanding_setPc { s with workers :=
      if ok then ⟨srv, srv.start⟩ :: s.workers else s.workers } srv .receiving
    have hat : State.pc { s with workers :=
        if ok then ⟨srv, srv.start⟩ :: s.workers else s.workers } srv
        = .admitted := (pc_congr rfl rfl).trans hpc
    rw [hat] at hout
    simp only [ServerPc.pending] at hout
    cases ok with
    | true =>
        refine .same (setPc_numThreads ..) ?_
        simp only [State.outstanding, ↓reduceIte, List.length_cons]
          at hout ⊢
        omega
    | false => exact .leaked (setPc_numThreads ..) hout
  · cases h

private theorem work_effect {i : Nat} {pc : WorkerPc}
    (h : step maxThreads s (.work i pc) = some s') :
    Effect maxThreads s s' (.work i pc) := by
  simp only [step] at h
  split at h
  · cases h
  · split at h
    · cases h
      exact .same rfl (by simp [State.outstanding])
    · cases h

private theorem finish_effect {i : Nat}
    (h : step maxThreads s (.finish i) = some s') :
    Effect maxThreads s s' (.finish i) := by
  simp only [step] at h
  split at h
  · cases h
  · next w hw =>
    split at h
    · cases h
      refine .left rfl ?_
      have hlt := (List.getElem?_eq_some_iff.mp hw).1
      simp only [State.outstanding, List.length_eraseIdx_of_lt hlt]
      omega
    · cases h

/-- Only a failing start and the initialisation of the UDP server change
the count and the requests outstanding differently. -/
theorem step_effect (h : step maxThreads s a = some s') :
    Effect maxThreads s s' a := by
  cases a with
  | createUdp ok => exact createUdp_effect h
  | init srv => exact init_effect h
  | receive srv ok => exact receive_effect h
  | accept srv => exact accept_effect h
  | create srv ok => exact create_effect h
  | work i pc => exact work_effect h
  | finish i => exact finish_effect h

/-- A step that starts its worker, or initialises while nothing is
outstanding, keeps the accounts. -/
theorem accounted_step (h : step maxThreads s a = some s')
    (hs : Accounted maxThreads s) (hok : StepOk s a) :
    Accounted maxThreads s' := by
  obtain ⟨hcount, hlow, hhigh⟩ := hs
  cases step_effect h with
  | same count out => exact ⟨by omega, by omega, by omega⟩
  | admitted count out room => exact ⟨by omega, by omega, by omega⟩
  | left count out => exact ⟨by omega, by omega, by omega⟩
  | reset count out =>
      have hnone : s.outstanding = 0 := hok
      exact ⟨by omega, by omega, by omega⟩
  | leaked count out => cases hok

/-- Every other step upsets them. -/
theorem stepOk_of_accounted (h : step maxThreads s a = some s')
    (hs : Accounted maxThreads s) (hs' : Accounted maxThreads s') :
    StepOk s a := by
  obtain ⟨hcount, -, -⟩ := hs
  obtain ⟨hcount', -, -⟩ := hs'
  cases a with
  | init srv =>
      cases srv with
      | tcp => exact trivial
      | udp =>
          simp only [step] at h
          split at h
          · next hpc =>
            cases h
            simp only [State.outstanding, hpc, ServerPc.pending, StepOk]
              at hcount' ⊢
            omega
          · cases h
  | create srv ok =>
      cases ok with
      | true => rfl
      | false =>
          simp only [step] at h
          split at h
          · next hpc =>
            have hs' : s.setPc srv .receiving = s' := Option.some.inj h
            subst hs'
            have := outstanding_setPc s srv .receiving
            rw [hpc] at this
            simp only [setPc_numThreads, ServerPc.pending] at hcount' this
            omega
          · cases h
  | createUdp ok | receive srv ok | accept srv | work i pc | finish i =>
      exact trivial

-- ==================================================================== whole runs

private theorem run_concat (acts : List Action) (a : Action) :
    run maxThreads (acts ++ [a])
      = (run maxThreads acts).bind fun s => step maxThreads s a := by
  simp [run, List.foldlM_append]

/-- However the threads interleave, the count is right and within the
limit in every state reached exactly when the limit is not negative, no
worker fails to start, and the UDP server initialises while no request
is outstanding. -/
theorem worker_accounting (maxThreads : Int) (acts : List Action) :
    (∀ pre s, pre <+: acts → run maxThreads pre = some s →
        Accounted maxThreads s)
      ↔ 0 ≤ maxThreads ∧ ∀ pre a s, pre ++ [a] <+: acts →
        run maxThreads pre = some s → (step maxThreads s a).isSome →
        StepOk s a := by
  constructor
  · intro hall
    have hinit := hall [] State.init (List.nil_prefix) rfl
    refine ⟨hinit.2.2, fun pre a s hpre hrun hstep => ?_⟩
    obtain ⟨s', hs'⟩ := Option.isSome_iff_exists.mp hstep
    have hlast : run maxThreads (pre ++ [a]) = some s' := by
      rw [run_concat, hrun, Option.bind_some, hs']
    exact stepOk_of_accounted hs'
      (hall pre s ((List.prefix_append pre [a]).trans hpre) hrun)
      (hall _ s' hpre hlast)
  · intro h pre
    obtain ⟨hmax, hok⟩ := h
    induction pre using List.reverseRecOn with
    | nil =>
        intro s _ hrun
        cases hrun
        exact ⟨rfl, Int.le_refl 0, hmax⟩
    | append_singleton pre a ih =>
        intro s' hpre hrun
        rw [run_concat, Option.bind_eq_some_iff] at hrun
        obtain ⟨s, hs, hstep⟩ := hrun
        exact accounted_step hstep
          (ih s ((List.prefix_append pre [a]).trans hpre) hs)
          (hok pre a s hpre hs (by simp [hstep]))

/-- One connection whose worker cannot be started takes up a place of
the limit for good. -/
theorem failed_start_leaks :
    ∃ s, run 1 [.createUdp false, .init .tcp, .receive .tcp true,
        .accept .tcp, .create .tcp false] = some s
      ∧ s.outstanding = 0 ∧ s.numThreads = 1 ∧ ¬ Accounted 1 s := by
  refine ⟨_, rfl, rfl, rfl, ?_⟩
  intro h
  obtain ⟨h, -, -⟩ := h
  exact absurd h (by decide)

end Psnet.Server
