/-
Membership by heartbeats.

Members that run send a beat and sleep for a period, over and over; a beat
is under way for no longer than a delay, or lost; and a timed set that
ticks once every `rate` moments holds whoever was heard of within a term of
ticks. Periods and delays are in moments, and nobody's beats keep step with
the ticks: an element that comes just before a tick has all but a tick of
its term left.

A member that runs and loses no beat is in the set from the first that
arrives, if a period and a delay are no longer than a term less a tick
(`accurate`), and otherwise there are runs in which it is forgotten
(`forgotten`). One that has stopped is out of the set a term and a delay
later (`complete`).

# The shape of the proofs

`Stays` is the number of moments an element is still in the set for, and a
member that runs is `Covered`: its next beat is at the set before these
moments have passed. A moment keeps that (`Covered.later`), and a beat that
arrives begins it anew. For the converse the member is left alone as long
as its period lets it be (`silence`).
-/
import Psnet.Lib.TimedSet
import Mathlib.Logic.Function.Basic

namespace Heartbeat

open TimedSet

-- =================================================================== the steps

/-- What every member has left to sleep, where it runs; the beats under
way, with the moments they have been; the moments to the next tick; and
the set. -/
structure State (α : Type*) where
  sleep : α → Option Nat
  flight : List (α × Nat)
  wait : Nat
  set : Timed α

/-- The moments to the next tick, a moment later. -/
def nextWait (rate wait : Nat) : Nat := if wait = 1 then rate else wait - 1

/-- A moment later. -/
def State.later {α : Type*} (rate : Nat) (s : State α) : State α where
  sleep x := (s.sleep x).map (· - 1)
  flight := s.flight.map fun b => (b.1, b.2 + 1)
  wait := nextWait rate s.wait
  set := if s.wait = 1 then tick s.set else s.set

inductive Label (α : Type*)
  | moment
  | start (x : α)
  | stop (x : α)
  | beat (x : α)
  | arrive (x : α)
  | lose (x : α)
  | other (o : Op α)

/-- The moments a step takes. -/
def Label.cost {α : Type*} : Label α → Nat
  | .moment => 1
  | _ => 0

/-- The moments a run takes. -/
def moments {α : Type*} (ls : List (Label α)) : Nat :=
  (ls.map Label.cost).sum

section

variable {α : Type*} [DecidableEq α] (member : α → Prop)
  (rate period delay term : Nat)

/-- An operation on somebody who is no member. -/
def Foreign (o : Op α) : Prop :=
  ∃ y, ¬ member y ∧ (o = .update y ∨ o = .remove y)

/-- The steps. A moment passes only while nobody is to beat, and no beat is
under way for longer than it may be. -/
inductive Step (s : State α) : Label α → State α → Prop
  | moment (awake : ∀ x, s.sleep x ≠ some 0)
      (quick : ∀ b ∈ s.flight, b.2 < delay) :
      Step s .moment (s.later rate)
  | start {x : α} (known : member x) (stopped : s.sleep x = none) :
      Step s (.start x)
        { s with sleep := Function.update s.sleep x (some 0) }
  | stop {x : α} (running : s.sleep x ≠ none) :
      Step s (.stop x) { s with sleep := Function.update s.sleep x none }
  | beat {x : α} (due : s.sleep x = some 0) :
      Step s (.beat x) { s with
        sleep := Function.update s.sleep x (some period)
        flight := s.flight ++ [(x, 0)] }
  | arrive {x : α} {a : Nat} {pre post : List (α × Nat)}
      (under : s.flight = pre ++ (x, a) :: post) :
      Step s (.arrive x) { s with
        flight := pre ++ post
        set := apply (keyEq id) term s.set (.update x) }
  | lose {x : α} {a : Nat} {pre post : List (α × Nat)}
      (under : s.flight = pre ++ (x, a) :: post) :
      Step s (.lose x) { s with flight := pre ++ post }
  | other {o : Op α} (foreign : Foreign member o) :
      Step s (.other o) { s with set := apply (keyEq id) term s.set o }

/-- Runs, with their labels. -/
inductive Run : State α → List (Label α) → State α → Prop
  | done (s : State α) : Run s [] s
  | step {s s₁ s₂ : State α} {l : Label α} {ls : List (Label α)}
      (first : Step member rate period delay term s l s₁) (rest : Run s₁ ls s₂) :
      Run s (l :: ls) s₂

/-- Nobody runs, nobody was heard of, and the first tick is to come. -/
def State.init (wait : Nat) : State α := ⟨fun _ => none, [], wait, []⟩

-- =========================================================== what always holds

/-- Members sleep no longer than a period, beats are theirs and no older
than the delay, a tick is due within `rate` moments, and the set is one. -/
structure Inv (s : State α) : Prop where
  running : ∀ x c, s.sleep x = some c → member x ∧ c ≤ period
  under : ∀ b ∈ s.flight, member b.1 ∧ b.2 ≤ delay
  due : 0 < s.wait ∧ s.wait ≤ rate
  ok : Ok (keyEq id) term s.set

/-- `x` is in the set, and will be for `e` moments: until its last tick. -/
def Stays (s : State α) (x : α) (e : Nat) : Prop :=
  ∃ k, Left (keyEq id) s.set x (k + 1) ∧ e = s.wait + k * rate

end

section

variable {α : Type*} [DecidableEq α] {member : α → Prop}
  {rate period delay term : Nat} {s s' : State α} {l : Label α} {ls : List (Label α)}
  {x y : α}

theorem Inv.init {wait : Nat} (hwait : 0 < wait) (hle : wait ≤ rate) :
    Inv member rate period delay term (State.init wait : State α) where
  running _ _ h := nomatch h
  under _ h := absurd h List.not_mem_nil
  due := ⟨hwait, hle⟩
  ok := ⟨List.Pairwise.nil, fun _ h => absurd h List.not_mem_nil⟩

/-- The sleep of one is set. -/
theorem Inv.wakes (h : Inv member rate period delay term s) {v : Option Nat}
    (hv : ∀ c, v = some c → member x ∧ c ≤ period) (y : α) (c : Nat)
    (hc : Function.update s.sleep x v y = some c) :
    member y ∧ c ≤ period := by
  by_cases hy : y = x
  · subst hy
    rw [Function.update_self] at hc
    exact hv c hc
  · rw [Function.update_of_ne hy] at hc
    exact h.running y c hc

omit [DecidableEq α] in
/-- Taking a beat from those under way. -/
theorem mem_of_taken {b c : α × Nat} {pre post : List (α × Nat)}
    (h : b ∈ pre ++ post) : b ∈ pre ++ c :: post := by
  rcases List.mem_append.mp h with h | h
  · exact List.mem_append_left _ h
  · exact List.mem_append_right _ (List.mem_cons_of_mem _ h)

/-- A tick stays due within `rate` moments. -/
theorem nextWait_due {wait : Nat} (h : 0 < wait ∧ wait ≤ rate) :
    0 < nextWait rate wait ∧ nextWait rate wait ≤ rate := by
  unfold nextWait
  split <;> omega

/-- Every step keeps the invariant. -/
theorem Inv.step (h : Inv member rate period delay term s) (hterm : 0 < term)
    (hstep : Step member rate period delay term s l s') :
    Inv member rate period delay term s' := by
  have hset : ∀ o, Ok (keyEq id) term (apply (keyEq id) term s.set o) :=
    fun o => ok_apply (keyEq_equivalence id) hterm h.ok o
  cases hstep with
  | moment awake quick =>
      refine ⟨fun x c hc => ?_, fun b hb => ?_, nextWait_due h.due, ?_⟩
      · obtain ⟨c', hc', rfl⟩ := Option.map_eq_some_iff.mp hc
        have := h.running x c' hc'
        exact ⟨this.1, by omega⟩
      · obtain ⟨b', hb', rfl⟩ := List.mem_map.mp hb
        exact ⟨(h.under b' hb').1, quick b' hb'⟩
      · unfold State.later
        dsimp only
        split
        · exact hset .tick
        · exact h.ok
  | start known stopped =>
      refine ⟨h.wakes fun c hc => ?_, h.under, h.due, h.ok⟩
      cases hc
      exact ⟨known, Nat.zero_le _⟩
  | stop running =>
      refine ⟨h.wakes fun c hc => ?_, h.under, h.due, h.ok⟩
      cases hc
  | beat due =>
      have hx := (h.running _ 0 due).1
      refine ⟨h.wakes fun c hc => ?_, fun b hb => ?_, h.due, h.ok⟩
      · cases hc
        exact ⟨hx, Nat.le_refl _⟩
      · rcases List.mem_append.mp hb with hb | hb
        · exact h.under b hb
        · rw [List.mem_singleton.mp hb]
          exact ⟨hx, Nat.zero_le _⟩
  | arrive under =>
      exact ⟨h.running, fun b hb => h.under b (under ▸ mem_of_taken hb),
        h.due, hset (.update _)⟩
  | lose under =>
      exact ⟨h.running, fun b hb => h.under b (under ▸ mem_of_taken hb),
        h.due, h.ok⟩
  | @other o foreign => exact ⟨h.running, h.under, h.due, hset o⟩

/-- So does every run. -/
theorem Inv.run (h : Inv member rate period delay term s) (hterm : 0 < term)
    (hrun : Run member rate period delay term s ls s') :
    Inv member rate period delay term s' := by
  induction hrun with
  | done s => exact h
  | step first _ ih => exact ih (h.step hterm first)

-- ================================================== how long an element stays

/-- A moment takes a moment from it, and the last one takes it out. -/
theorem stays_later (h : 0 < s.wait ∧ s.wait ≤ rate) {e : Nat} :
    Stays rate (s.later rate) x e ↔ 0 < e ∧ Stays rate s x (e + 1) := by
  unfold Stays State.later nextWait
  dsimp only
  by_cases hw : s.wait = 1
  · simp only [hw, ↓reduceIte, left_tick]
    constructor
    · rintro ⟨k, ⟨-, hk⟩, rfl⟩
      refine ⟨by omega, k + 1, hk, ?_⟩
      rw [Nat.succ_mul]
      omega
    · rintro ⟨hpos, k, hk, he⟩
      cases k with
      | zero => omega
      | succ k =>
          refine ⟨k, ⟨Nat.succ_pos k, hk⟩, ?_⟩
          rw [Nat.succ_mul] at he
          omega
  · simp only [if_neg hw]
    constructor
    · rintro ⟨k, hk, rfl⟩
      exact ⟨by omega, k, hk, by omega⟩
    · rintro ⟨-, k, hk, he⟩
      exact ⟨k, hk, by omega⟩

/-- Nothing stays longer than a term of ticks. -/
theorem Stays.bound (h : Inv member rate period delay term s) {e : Nat}
    (he : Stays rate s x e) : 0 < e ∧ e ≤ term * rate := by
  obtain ⟨k, ⟨y, hy, -⟩, rfl⟩ := he
  have hk : k + 1 ≤ term := (h.ok.bound _ hy).2
  have hdue := h.due
  have hmul := Nat.mul_le_mul_right rate hk
  rw [Nat.succ_mul] at hmul
  omega

/-- Who is in the set stays for a while. -/
theorem has_iff_stays (h : Inv member rate period delay term s) :
    has (keyEq id) s.set x = true ↔ ∃ e, Stays rate s x e := by
  rw [has_iff]
  constructor
  · rintro ⟨k, y, hy, hyx⟩
    have hpos : 0 < k := (h.ok.bound _ hy).1
    obtain ⟨j, rfl⟩ : ∃ j, k = j + 1 := ⟨k - 1, by omega⟩
    exact ⟨_, j, ⟨y, hy, hyx⟩, rfl⟩
  · rintro ⟨e, k, hk, -⟩
    exact ⟨k + 1, hk⟩

/-- Whose beat arrives stays for a term of ticks from then on. -/
theorem stays_update (hterm : 0 < term)
    (hset : s'.set = apply (keyEq id) term s.set (.update x)) {e : Nat} :
    Stays rate s' x e ↔ e = s'.wait + (term - 1) * rate := by
  unfold Stays
  simp only [hset, left_update (keyEq_equivalence id)]
  constructor
  · rintro ⟨k, ⟨-, hk⟩ | ⟨hne, -⟩, he⟩
    · rwa [show term - 1 = k by omega]
    · exact absurd hne (by simp [keyEq])
  · rintro rfl
    exact ⟨term - 1, Or.inl ⟨by simp [keyEq], by omega⟩, rfl⟩

/-- What is left of an element when somebody else's operation is done. -/
theorem left_apply_foreign {t : Timed α} {o : Op α} {k : Nat}
    (ho : o = .update y ∨ o = .remove y) (hne : y ≠ x) :
    Left (keyEq id) (apply (keyEq id) term t o) x k
      ↔ Left (keyEq id) t x k := by
  have hyx : keyEq id y x = false := by simpa [keyEq] using hne
  rcases ho with rfl | rfl
  · rw [left_update (keyEq_equivalence id)]
    simp [hyx]
  · show Left (keyEq id) (erase (keyEq id) t y) x k ↔ _
    rw [left_erase (keyEq_equivalence id)]
    simp [hyx]

/-- Somebody else's operation leaves it the time it has. -/
theorem stays_apply_foreign {o : Op α} {e : Nat}
    (ho : o = .update y ∨ o = .remove y) (hne : y ≠ x)
    (hwait : s'.wait = s.wait) (hset : s'.set = apply (keyEq id) term s.set o) :
    Stays rate s' x e ↔ Stays rate s x e := by
  unfold Stays
  simp only [hset, hwait, left_apply_foreign ho hne]

-- ====================================================== who runs is in the set

/-- A member that runs is in the set, and for long enough: either its next
beat comes in time, whenever it is sent, or one under way does. -/
structure Covered (rate delay : Nat) (s : State α) (x : α) (e : Nat) :
    Prop where
  stays : Stays rate s x e
  next : (∃ c, s.sleep x = some c ∧ c + delay < e)
    ∨ (s.sleep x ≠ none ∧ ∃ a, (x, a) ∈ s.flight ∧ delay < e + a)

/-- Who is covered runs. -/
theorem Covered.running {e : Nat} (h : Covered rate delay s x e) :
    s.sleep x ≠ none := by
  rcases h.next with ⟨c, hc, -⟩ | ⟨hrun, -⟩
  · rw [hc]
    exact nofun
  · exact hrun

/-- A step that leaves the set to the others, and no beat behind. -/
theorem Covered.same {e : Nat} (h : Covered rate delay s x e)
    (hsleep : s'.sleep x = s.sleep x)
    (hflight : ∀ a, (x, a) ∈ s.flight → (x, a) ∈ s'.flight)
    (hset : Stays rate s' x e ↔ Stays rate s x e) :
    Covered rate delay s' x e := by
  refine ⟨hset.mpr h.stays, ?_⟩
  rw [hsleep]
  rcases h.next with hc | ⟨hrun, a, ha, hlt⟩
  · exact Or.inl hc
  · exact Or.inr ⟨hrun, a, hflight a ha, hlt⟩

omit [DecidableEq α] in
/-- A beat of somebody else is taken from those under way. -/
theorem mem_taken_of_ne {a b : Nat} {pre post : List (α × Nat)}
    (h : (x, a) ∈ pre ++ (y, b) :: post) (hne : y ≠ x) :
    (x, a) ∈ pre ++ post := by
  rcases List.mem_append.mp h with h | h
  · exact List.mem_append_left _ h
  · rcases List.mem_cons.mp h with heq | h
    · exact absurd (congrArg Prod.fst heq).symm hne
    · exact List.mem_append_right _ h

/-- A beat arrives of a member that runs. -/
theorem covered_arrive (h : Inv member rate period delay term s)
    (hle : period + delay ≤ (term - 1) * rate)
    (hset : Stays rate s x (s.wait + (term - 1) * rate))
    (hrun : s.sleep x ≠ none) :
    Covered rate delay s x (s.wait + (term - 1) * rate) := by
  obtain ⟨c, hc⟩ := Option.ne_none_iff_exists'.mp hrun
  have hsleep := (h.running x c hc).2
  have hdue := h.due.1
  exact ⟨hset, Or.inl ⟨c, hc, by omega⟩⟩

/-- A moment brings the next beat nearer as fast as the end. -/
theorem Covered.later {e : Nat} (h : Covered rate delay s x e)
    (hdue : 0 < s.wait ∧ s.wait ≤ rate) (awake : ∀ x, s.sleep x ≠ some 0)
    (quick : ∀ b ∈ s.flight, b.2 < delay) :
    Covered rate delay (s.later rate) x (e - 1) := by
  have hpos : 1 < e := by
    rcases h.next with ⟨c, hc, hlt⟩ | ⟨-, a, ha, hlt⟩
    · have : c ≠ 0 := fun h0 => awake x (h0 ▸ hc)
      omega
    · have := quick _ ha
      dsimp only at this
      omega
  obtain ⟨e, rfl⟩ : ∃ j, e = j + 1 := ⟨e - 1, by omega⟩
  refine ⟨(stays_later hdue).mpr ⟨by omega, h.stays⟩, ?_⟩
  rcases h.next with ⟨c, hc, hlt⟩ | ⟨hrun, a, ha, hlt⟩
  · refine Or.inl ⟨c - 1, congrArg (Option.map (· - 1)) hc, ?_⟩
    have : c ≠ 0 := fun h0 => awake x (h0 ▸ hc)
    omega
  · exact Or.inr ⟨fun hnone => hrun (Option.map_eq_none_iff.mp hnone),
      a + 1, List.mem_map.mpr ⟨_, ha, rfl⟩, by omega⟩

/-- A member's own beat is under way in time. -/
theorem Covered.beats {e : Nat} (h : Covered rate delay s x e)
    (due : s.sleep x = some 0) :
    Covered rate delay { s with
      sleep := Function.update s.sleep x (some period)
      flight := s.flight ++ [(x, 0)] } x e := by
  have hrun : Function.update s.sleep x (some period) x ≠ none := by
    rw [Function.update_self]
    exact nofun
  rcases h.next with ⟨c, hc, hlt⟩ | ⟨-, a, ha, hlt⟩
  · rw [due, Option.some.injEq] at hc
    exact ⟨h.stays, Or.inr ⟨hrun, 0,
      List.mem_append_right _ List.mem_cons_self, by omega⟩⟩
  · exact ⟨h.stays, Or.inr ⟨hrun, a, List.mem_append_left _ ha, hlt⟩⟩

/-- Who runs and loses no beat stays covered. -/
theorem Covered.step {e : Nat} (h : Covered rate delay s x e)
    (hinv : Inv member rate period delay term s) (hterm : 0 < term)
    (hle : period + delay ≤ (term - 1) * rate)
    (hstep : Step member rate period delay term s l s') (hstop : l ≠ .stop x)
    (hlose : l ≠ .lose x) : ∃ e', Covered rate delay s' x e' := by
  cases hstep with
  | moment awake quick => exact ⟨_, h.later hinv.due awake quick⟩
  | @start y known stopped =>
      have hne : x ≠ y := fun heq => h.running (heq ▸ stopped)
      exact ⟨e, h.same (Function.update_of_ne hne ..) (fun _ ha => ha)
        Iff.rfl⟩
  | @stop y running =>
      have hne : x ≠ y := fun heq => hstop (heq ▸ rfl)
      exact ⟨e, h.same (Function.update_of_ne hne ..) (fun _ ha => ha)
        Iff.rfl⟩
  | @beat y due =>
      by_cases hne : x = y
      · subst hne
        exact ⟨e, h.beats due⟩
      · exact ⟨e, h.same (Function.update_of_ne hne ..)
          (fun _ ha => List.mem_append_left _ ha) Iff.rfl⟩
  | @arrive y a pre post under =>
      by_cases hne : y = x
      · subst hne
        exact ⟨_, covered_arrive (hinv.step hterm (.arrive under)) hle
          ((stays_update hterm rfl).mpr rfl) h.running⟩
      · exact ⟨e, h.same rfl
          (fun _ ha => mem_taken_of_ne (under ▸ ha) hne)
          (stays_apply_foreign (Or.inl rfl) hne rfl rfl)⟩
  | @lose y a pre post under =>
      have hne : y ≠ x := fun heq => hlose (heq ▸ rfl)
      exact ⟨e, h.same rfl (fun _ ha => mem_taken_of_ne (under ▸ ha) hne)
        Iff.rfl⟩
  | @other o foreign =>
      -- others are no members, and `x`, which runs, is one
      obtain ⟨y, hy, ho⟩ := foreign
      obtain ⟨c, hc⟩ := Option.ne_none_iff_exists'.mp h.running
      have hne : y ≠ x := fun heq => hy (heq ▸ (hinv.running x c hc).1)
      exact ⟨e, h.same rfl (fun _ ha => ha)
        (stays_apply_foreign ho hne rfl rfl)⟩

/-- And in a whole run. -/
theorem Covered.run {e : Nat} (h : Covered rate delay s x e)
    (hinv : Inv member rate period delay term s) (hterm : 0 < term)
    (hle : period + delay ≤ (term - 1) * rate)
    (hrun : Run member rate period delay term s ls s') (hstop : .stop x ∉ ls)
    (hlose : .lose x ∉ ls) : ∃ e', Covered rate delay s' x e' := by
  induction hrun generalizing e with
  | done s => exact ⟨e, h⟩
  | step first _ ih =>
      rw [List.mem_cons, not_or] at hstop hlose
      obtain ⟨e₁, h₁⟩ := h.step hinv hterm hle first (Ne.symm hstop.1)
        (Ne.symm hlose.1)
      exact ih h₁ (hinv.step hterm first) hstop.2 hlose.2

/-- A member is in the set as long as it runs and loses no beat, from the
first that arrives. -/
theorem accurate {s₁ s₂ : State α}
    (hinv : Inv member rate period delay term s) (hterm : 0 < term)
    (hle : period + delay ≤ (term - 1) * rate)
    (hfirst : Step member rate period delay term s (.arrive x) s₁)
    (hrunning : s₁.sleep x ≠ none)
    (hrun : Run member rate period delay term s₁ ls s₂) (hstop : .stop x ∉ ls)
    (hlose : .lose x ∉ ls) : has (keyEq id) s₂.set x = true := by
  have hinv₁ := hinv.step hterm hfirst
  have hstays : Stays rate s₁ x (s₁.wait + (term - 1) * rate) := by
    cases hfirst
    exact (stays_update hterm rfl).mpr rfl
  obtain ⟨e, h⟩ := (covered_arrive hinv₁ hle hstays hrunning).run hinv₁ hterm
    hle hrun hstop hlose
  exact (has_iff_stays (hinv₁.run hterm hrun)).mpr ⟨e, h.stays⟩

-- ================================================ who has stopped is out of it

/-- `n` moments after a member stopped: its beats are that old at least, and
the set has it for no longer than after the last of them. -/
structure Gone (rate delay term : Nat) (s : State α) (x : α) (n : Nat) :
    Prop where
  stopped : s.sleep x = none
  under : ∀ a, (x, a) ∈ s.flight → n ≤ a
  stays : ∀ e, Stays rate s x e → e + n ≤ term * rate + delay

/-- It has just stopped. -/
theorem gone_stop (h : Inv member rate period delay term s)
    (hstop : Step member rate period delay term s (.stop x) s') :
    Gone rate delay term s' x 0 := by
  cases hstop with
  | stop running =>
      refine ⟨Function.update_self .., fun _ _ => Nat.zero_le _,
        fun e he => ?_⟩
      have hbound := (Stays.bound h he).2
      omega

/-- A step that takes no time, and brings no beat of `x`. -/
theorem Gone.same {n : Nat} (h : Gone rate delay term s x n)
    (hsleep : s'.sleep x = s.sleep x)
    (hflight : ∀ a, (x, a) ∈ s'.flight → (x, a) ∈ s.flight)
    (hset : ∀ e, Stays rate s' x e ↔ Stays rate s x e) :
    Gone rate delay term s' x n :=
  ⟨hsleep.trans h.stopped, fun a ha => h.under a (hflight a ha),
    fun e he => h.stays e ((hset e).mp he)⟩

/-- What a step leaves of a member that has stopped. -/
theorem Gone.step {n : Nat} (h : Gone rate delay term s x n)
    (hinv : Inv member rate period delay term s) (hterm : 0 < term)
    (hx : member x) (hstep : Step member rate period delay term s l s')
    (hl : l ≠ .start x) : Gone rate delay term s' x (n + l.cost) := by
  cases hstep with
  | moment awake quick =>
      refine ⟨congrArg (Option.map (· - 1)) h.stopped, fun a ha => ?_,
        fun e he => ?_⟩
      · obtain ⟨⟨y, b⟩, hb, heq⟩ := List.mem_map.mp ha
        cases heq
        have := h.under b hb
        exact Nat.succ_le_succ this
      · have := h.stays _ ((stays_later hinv.due).mp he).2
        simp only [Label.cost]
        omega
  | @start y known stopped =>
      have hne : x ≠ y := fun heq => hl (heq ▸ rfl)
      exact h.same (Function.update_of_ne hne ..) (fun _ ha => ha)
        fun _ => Iff.rfl
  | @stop y running =>
      have hne : x ≠ y := fun heq => running (heq ▸ h.stopped)
      exact h.same (Function.update_of_ne hne ..) (fun _ ha => ha)
        fun _ => Iff.rfl
  | @beat y due =>
      have hne : x ≠ y := fun heq => by
        rw [← heq, h.stopped] at due
        cases due
      refine h.same (Function.update_of_ne hne ..) (fun a ha => ?_)
        fun _ => Iff.rfl
      rcases List.mem_append.mp ha with ha | ha
      · exact ha
      · exact absurd (congrArg Prod.fst (List.mem_singleton.mp ha)) hne
  | @arrive y b pre post under =>
      by_cases hne : y = x
      · subst hne
        have hb : (y, b) ∈ s.flight :=
          under ▸ List.mem_append_right _ List.mem_cons_self
        have hold := h.under b hb
        have hage := (hinv.under _ hb).2
        refine ⟨h.stopped, fun a ha => h.under a (under ▸ mem_of_taken ha),
          fun e he => ?_⟩
        -- it is in for a term again, but the beat was no older than a delay
        have hbound := (Stays.bound (hinv.step hterm (.arrive under)) he).2
        simp only [Label.cost]
        omega
      · exact h.same rfl (fun a ha => under ▸ mem_of_taken ha)
          fun e => stays_apply_foreign (Or.inl rfl) hne rfl rfl
  | lose under =>
      exact h.same rfl (fun a ha => under ▸ mem_of_taken ha) fun _ => Iff.rfl
  | @other o foreign =>
      obtain ⟨y, hy, ho⟩ := foreign
      have hne : y ≠ x := fun heq => hy (heq ▸ hx)
      exact h.same rfl (fun _ ha => ha)
        fun e => stays_apply_foreign ho hne rfl rfl

/-- And a run, which takes its moments. -/
theorem Gone.run {n : Nat} (h : Gone rate delay term s x n)
    (hinv : Inv member rate period delay term s) (hterm : 0 < term)
    (hx : member x) (hrun : Run member rate period delay term s ls s')
    (hstart : .start x ∉ ls) :
    Gone rate delay term s' x (n + moments ls) := by
  induction hrun generalizing n with
  | done s => exact h
  | @step s s₁ s₂ l ls first _ ih =>
      rw [List.mem_cons, not_or] at hstart
      have h₁ := ih (h.step hinv hterm hx first (Ne.symm hstart.1))
        (hinv.step hterm first) hstart.2
      rwa [moments, List.map_cons, List.sum_cons, ← Nat.add_assoc]

/-- A member that has stopped is out of the set a term and a delay
later. -/
theorem complete {s₁ s₂ : State α}
    (hinv : Inv member rate period delay term s) (hterm : 0 < term)
    (hstop : Step member rate period delay term s (.stop x) s₁)
    (hrun : Run member rate period delay term s₁ ls s₂)
    (hstart : .start x ∉ ls) (hlong : term * rate + delay ≤ moments ls) :
    has (keyEq id) s₂.set x = false := by
  have hinv₁ := hinv.step hterm hstop
  have hinv₂ := hinv₁.run hterm hrun
  have hx : member x := by
    cases hstop with
    | stop running =>
        obtain ⟨c, hc⟩ := Option.ne_none_iff_exists'.mp running
        exact (hinv.running x c hc).1
  have hgone := (gone_stop hinv hstop).run hinv₁ hterm hx hrun hstart
  rw [← Bool.not_eq_true, has_iff_stays hinv₂]
  rintro ⟨e, he⟩
  have hle := hgone.stays e he
  have hpos := (Stays.bound hinv₂ he).1
  omega

-- ==================================================== a term that is too short

/-- Somebody alone may go on for so long without a beat arriving. -/
theorem silence (hpos : 0 < period) {n c : Nat} (hc : s.sleep x = some c)
    (halone : ∀ y, y ≠ x → s.sleep y = none)
    (hdue : 0 < s.wait ∧ s.wait ≤ rate)
    (hflight : ∀ b ∈ s.flight, b.2 + n ≤ delay) (hn : n ≤ c + delay) :
    ∃ ls s', Run member rate period delay term s ls s'
      ∧ (∀ l ∈ ls, l = .moment ∨ l = .beat x)
      ∧ ∀ e, Stays rate s' x e → Stays rate s x (e + n) := by
  induction n generalizing s c with
  | zero => exact ⟨[], s, .done s, fun _ h => absurd h List.not_mem_nil,
      fun _ h => h⟩
  | succ n ih =>
      -- a moment passes where nobody is to beat
      have hmoment : ∀ {s : State α} {c : Nat}, s.sleep x = some (c + 1) →
          (∀ y, y ≠ x → s.sleep y = none) → 0 < s.wait ∧ s.wait ≤ rate →
          (∀ b ∈ s.flight, b.2 + (n + 1) ≤ delay) → n ≤ c + delay →
          ∃ ls s', Run member rate period delay term s ls s'
            ∧ (∀ l ∈ ls, l = .moment ∨ l = .beat x)
            ∧ ∀ e, Stays rate s' x e → Stays rate s x (e + (n + 1)) := by
        intro s c hc halone hdue hflight hn
        have hstep : Step member rate period delay term s .moment
            (s.later rate) := by
          refine .moment (fun y hy => ?_) fun b hb => by
            have := hflight b hb
            omega
          by_cases hne : y = x
          · rw [hne, hc] at hy
            cases hy
          · rw [halone y hne] at hy
            cases hy
        obtain ⟨ls, s', hrun, hls, hstays⟩ := ih (s := s.later rate)
          (congrArg (Option.map (· - 1)) hc)
          (fun y hy => congrArg (Option.map (· - 1)) (halone y hy))
          (nextWait_due hdue)
          (fun b hb => by
            obtain ⟨b', hb', rfl⟩ := List.mem_map.mp hb
            have := hflight b' hb'
            dsimp only
            omega) hn
        refine ⟨_, s', .step hstep hrun, fun l hl => ?_, fun e he => ?_⟩
        · rcases List.mem_cons.mp hl with rfl | hl
          · exact Or.inl rfl
          · exact hls l hl
        · exact ((stays_later hdue).mp (hstays e he)).2
      cases c with
      | succ c => exact hmoment hc halone hdue hflight (by omega)
      | zero =>
          obtain ⟨p, rfl⟩ : ∃ p, period = p + 1 := ⟨period - 1, by omega⟩
          obtain ⟨ls, s', hrun, hls, hstays⟩ := hmoment
            (s := { s with
              sleep := Function.update s.sleep x (some (p + 1))
              flight := s.flight ++ [(x, 0)] })
            (Function.update_self ..)
            (fun y hy => (Function.update_of_ne hy ..).trans (halone y hy))
            hdue
            (fun b hb => by
              rcases List.mem_append.mp hb with hb | hb
              · exact hflight b hb
              · rw [List.mem_singleton.mp hb]
                dsimp only
                omega) (by omega)
          refine ⟨_, s', .step (.beat hc) hrun, fun l hl => ?_, hstays⟩
          rcases List.mem_cons.mp hl with rfl | hl
          · exact Or.inr rfl
          · exact hls l hl

/-- Where a term less a tick is shorter than a period and a delay, a member
is forgotten that runs and loses nothing: its first beat comes just before
a tick. -/
theorem forgotten (hx : member x) (hpos : 0 < period) (hterm : 0 < term)
    (hrate : 0 < rate) (hlt : (term - 1) * rate < period + delay) :
    ∃ s s₁ ls s₂,
      Run member rate period delay term (.init 1) [.start x, .beat x] s
        ∧ Step member rate period delay term s (.arrive x) s₁
        ∧ s₁.sleep x ≠ none ∧ Run member rate period delay term s₁ ls s₂
        ∧ (∀ l ∈ ls, l = .moment ∨ l = .beat x)
        ∧ has (keyEq id) s₂.set x = false := by
  -- `x` sends once, the copy arrives at once, and the clock is about to
  -- tick
  let s₀ : State α := { State.init 1 with
    sleep := Function.update (fun _ => none) x (some 0) }
  let s : State α := { s₀ with
    sleep := Function.update s₀.sleep x (some period)
    flight := [(x, 0)] }
  let s₁ : State α := { s with
    flight := []
    set := apply (keyEq id) term [] (.update x) }
  have hbeats :
      Run member rate period delay term (.init 1) [.start x, .beat x] s :=
    .step (.start hx rfl) (.step (.beat (Function.update_self ..)) (.done s))
  have harrive : Step member rate period delay term s (.arrive x) s₁ :=
    .arrive (show s.flight = [] ++ (x, 0) :: [] from rfl)
  have hsleep : s₁.sleep x = some period := Function.update_self ..
  have halone : ∀ y, y ≠ x → s₁.sleep y = none := fun y hy =>
    (Function.update_of_ne hy ..).trans
      (Function.update_of_ne hy (some 0) fun _ => none)
  have hlong : 1 + (term - 1) * rate ≤ period + delay := by omega
  obtain ⟨ls, s₂, hrun, hls, hstays⟩ := silence hpos hsleep halone
    ⟨Nat.one_pos, hrate⟩ (fun b hb => absurd hb List.not_mem_nil) hlong
  refine ⟨s, s₁, ls, s₂, hbeats, harrive, hsleep ▸ nofun, hrun, hls, ?_⟩
  -- from then on nothing arrives for longer than an entry lasts
  have hinv := ((Inv.init Nat.one_pos hrate).run hterm hbeats).step hterm
    harrive
  have hinv₂ := hinv.run hterm hrun
  rw [← Bool.not_eq_true, has_iff_stays hinv₂]
  rintro ⟨e, he⟩
  have hpos := (Stays.bound hinv₂ he).1
  have hend := (stays_update hterm
    (show s₁.set = apply (keyEq id) term s.set (.update x) from rfl)).mp
    (hstays e he)
  have hwait : s₁.wait = 1 := rfl
  omega

end

end Heartbeat
