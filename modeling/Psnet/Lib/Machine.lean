/-
Runs of a partial machine with outputs, and the one induction every
simulation argument over them needs.

A machine is a step function that may fail; `run` feeds it a list of
inputs and collects the outputs. The abstract side of a simulation is
total: `next` and `out` say what each input does to an abstract state,
and `ok` which inputs the concrete machine is promised to follow. If
every promised step is simulated, so is every run all of whose inputs
are promised (`run_simulates`).
-/
import Mathlib.Tactic.Common
import Mathlib.Data.List.Basic

namespace Machine

variable {S A I O : Type*}

/-- The run of `step` on the inputs `is`, with the outputs in order;
`none` as soon as a step fails. -/
def run (step : S → I → Option (S × O)) : S → List I → Option (S × List O)
  | s, [] => some (s, [])
  | s, i :: is =>
      match step s i with
      | none => none
      | some (s', o) => (run step s' is).map fun p => (p.1, o :: p.2)

/-- The outputs of the abstract machine. -/
def outputs (next : A → I → A) (out : A → I → O) : A → List I → List O
  | _, [] => []
  | a, i :: is => out a i :: outputs next out (next a i) is

/-- Every input is promised in the abstract state it comes in. -/
def allOk (next : A → I → A) (ok : A → I → Bool) : A → List I → Bool
  | _, [] => true
  | a, i :: is => ok a i && allOk next ok (next a i) is

variable {step : S → I → Option (S × O)} {next : A → I → A}
  {out : A → I → O} {ok : A → I → Bool} {R : S → A → Prop}

/-- If every promised step is simulated, so is every promised run. -/
theorem run_simulates
    (hstep : ∀ s a i, R s a → ok a i = true →
      ∃ s', step s i = some (s', out a i) ∧ R s' (next a i)) :
    ∀ (is : List I) (s : S) (a : A), R s a → allOk next ok a is = true →
      ∃ s', run step s is = some (s', outputs next out a is)
        ∧ R s' (is.foldl next a) := by
  intro is
  induction is with
  | nil =>
      intro s a h _
      exact ⟨s, rfl, h⟩
  | cons i is ih =>
      intro s a h hok
      simp only [allOk, Bool.and_eq_true] at hok
      obtain ⟨s₁, hs₁, h₁⟩ := hstep s a i h hok.1
      obtain ⟨s₂, hs₂, h₂⟩ := ih s₁ (next a i) h₁ hok.2
      refine ⟨s₂, ?_, h₂⟩
      simp only [run, hs₁, hs₂, Option.map_some, outputs]

theorem allOk_append (a : A) (is js : List I) :
    allOk next ok a (is ++ js)
      = (allOk next ok a is && allOk next ok (is.foldl next a) js) := by
  induction is generalizing a with
  | nil => rfl
  | cons i is ih =>
      rw [List.cons_append, allOk, allOk, ih, List.foldl_cons, Bool.and_assoc]

/-- The output at an input is read off the state before it. -/
theorem outputs_at (a : A) (pre : List I) (i : I) (post : List I) :
    (outputs next out a (pre ++ i :: post))[pre.length]?
      = some (out (pre.foldl next a) i) := by
  induction pre generalizing a with
  | nil => rfl
  | cons j pre ih => simpa [outputs] using ih (next a j)

/-- Two computations that go on from the same value. -/
theorem bind_step {α β γ : Type*} {x : Option α} {f : α → Option β}
    {g : α → Option γ} {h : γ → β} (hstep : ∀ a, f a = (g a).map h) :
    x.bind f = (x.bind g).map h := by
  cases x with
  | none => rfl
  | some a => exact hstep a

variable {B : Type*} {next' : B → I → B} {out' : B → I → O} {π : A → B}

/-- A projection that commutes with the steps commutes with runs. -/
theorem foldl_proj (hn : ∀ a i, π (next a i) = next' (π a) i)
    (is : List I) (a : A) :
    π (is.foldl next a) = is.foldl next' (π a) := by
  induction is generalizing a with
  | nil => rfl
  | cons i is ih => rw [List.foldl_cons, List.foldl_cons, ih, hn]

/-- Outputs read off a projection are the projected machine's. -/
theorem outputs_proj (hn : ∀ a i, π (next a i) = next' (π a) i)
    (is : List I) (a : A) :
    outputs next (fun a i => out' (π a) i) a is
      = outputs next' out' (π a) is := by
  induction is generalizing a with
  | nil => rfl
  | cons i is ih => rw [outputs, outputs, ih, hn]

end Machine
