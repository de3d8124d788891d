/-
What threads do to the data of one lock, as a history.

A program performs a list of events (`Performs`) if each of its sections
on that data is the next of them or only looks, and if all it sends
answers what it saw last. In any interleaving of such programs the data is
what the events leave, one after the other in an order that keeps every
thread's own; and what a thread has sent, it answered to the data as it
was at moments that follow one another (`History.reaches`).

# How a history grows

A section takes its place in the history where it works on the data, which
is also where `Lib.Locks` puts it when sections are pulled together; a
thread between two sections answers to the last place it has seen. So the
places of one thread are in its own order, and those of different threads
in the order of their sections.
-/
import Psnet.Lib.Locks

namespace Locks

variable {L : Type} {S : L → Type} {D E Q T α β : Type}

-- ==================================================================== programs

/-- The data of a lock, what events make of it, and what may be sent: in
the state `q`, having seen `m`, a thread sends `d` and comes to `q'` if
`answers q m d q'`, and it may stop if `ended q`. -/
structure Spec (S : L → Type) (D E Q : Type) where
  lock : L
  on : S lock → E → Option (S lock)
  answers : Q → S lock → D → Q → Prop
  ended : Q → Prop

/-- An event that never changes anything. -/
def Spec.Idle (sp : Spec S D E Q) (e : E) : Prop :=
  ∀ m, sp.on m e = some m

/-- Having seen `m`, the program performs the events and answers from `q`
on. Events that never change anything may be left out at the end. -/
inductive Performs (sp : Spec S D E Q) :
    S sp.lock → Q → List E → Prog S D α → Prop
  | done {m q es} {a : α} (idle : ∀ e ∈ es, sp.Idle e)
      (ended : sp.ended q) : Performs sp m q es (.done a)
  | fail {m q es} : Performs sp m q es .fail
  | lock {m q es l} {k : Prog S D α} (rest : Performs sp m q es k) :
      Performs sp m q es (.lock l k)
  | unlock {m q es l} {k : Prog S D α} (rest : Performs sp m q es k) :
      Performs sp m q es (.unlock l k)
  | other {m q es l β} {f : S l → Option (β × S l)} {k : β → Prog S D α}
      (apart : l ≠ sp.lock) (rest : ∀ b, Performs sp m q es (k b)) :
      Performs sp m q es (.act l f k)
  | look {m q es β} {f : S sp.lock → Option (β × S sp.lock)}
      {k : β → Prog S D α}
      (same : ∀ {m₁ b m₂}, f m₁ = some (b, m₂) → m₂ = m₁)
      (rest : ∀ {m₁ b m₂}, f m₁ = some (b, m₂) →
        Performs sp m₁ q es (k b)) :
      Performs sp m q es (.act sp.lock f k)
  | change {m q e es β} {f : S sp.lock → Option (β × S sp.lock)}
      {k : β → Prog S D α}
      (does : ∀ {m₁ b m₂}, f m₁ = some (b, m₂) → sp.on m₁ e = some m₂)
      (rest : ∀ {m₁ b m₂}, f m₁ = some (b, m₂) →
        Performs sp m₂ q es (k b)) :
      Performs sp m q (e :: es) (.act sp.lock f k)
  | send {m q q' es d} {k : Prog S D α} (right : sp.answers q m d q')
      (rest : Performs sp m q' es k) : Performs sp m q es (.send d k)

/-- A program that works once at most, on the data of one lock, and sends
nothing. -/
inductive Once (l : L) : Prog S D α → Prop
  | done (a : α) : Once l (.done a)
  | fail : Once l .fail
  | locked {γ : Type} (f : S l → Option (γ × S l)) (g : γ → α) :
      Once l (.lock l (.act l f fun b => .unlock l (.done (g b))))

section

variable {sp : Spec S D E Q} {m : S sp.lock} {q : Q} {e : E} {es : List E}
  {l : L} {rank : L → Nat}

/-- A value that may not be there takes no lock. -/
theorem Once.lift (o : Option α) {k : α → Prog S D β}
    (hk : ∀ a, Once l (k a)) : Once l (Prog.lift o >>= k) := by
  cases o with
  | none => exact .fail
  | some a => exact hk a

/-- Working on the result takes no lock. -/
theorem Once.map {p : Prog S D α} (hp : Once l p) (g : α → β) :
    Once l (p >>= fun a => pure (g a)) := by
  cases hp with
  | done a => exact .done (g a)
  | fail => exact .fail
  | locked f g' => exact .locked f fun b => g (g' b)

/-- A program that takes its lock once keeps the discipline. -/
theorem Once.obeys {p : Prog S D α} (hp : Once l p) :
    Obeys rank true [] p := by
  cases hp with
  | done a => exact .done a
  | fail => exact .fail
  | locked f g => exact (Obeys.locked l f).bind fun b => .done (g b)

/-- The same section so many times performs an event as often. -/
theorem Performs.again {f : S sp.lock → Option (S sp.lock)}
    (hf : ∀ m, f m = sp.on m e) (hq : sp.ended q) (k : Nat) :
    Performs sp m q (List.replicate k e) (.again sp.lock f k) := by
  induction k generalizing m with
  | zero => exact .done (fun e he => absurd he List.not_mem_nil) hq
  | succ k ih =>
      refine .lock (.change (fun {m₁ b m₂} hm => ?_) fun _ => .unlock ih)
      obtain ⟨m', hm', heq⟩ := Option.map_eq_some_iff.mp hm
      cases heq
      rw [← hf, hm']

variable [DecidableEq L]

/-- A program that works once at most and changes nothing: by itself it
tells what it comes to. -/
theorem Once.look {p : Prog S D α} {k : α → Prog S D β}
    (hp : Once sp.lock p) (base : ∀ l, S l)
    (hk : ∀ {mem a mem' out}, p.exec mem = some (a, mem', out) →
      mem' sp.lock = mem sp.lock ∧ Performs sp (mem sp.lock) q es (k a)) :
    Performs sp m q es (p >>= k) := by
  have hself : ∀ m, Function.update base sp.lock m sp.lock = m := fun m =>
    Function.update_self ..
  cases hp with
  | done a =>
      obtain ⟨-, hperf⟩ := @hk (Function.update base sp.lock m) a _ [] rfl
      rwa [hself] at hperf
  | fail => exact .fail
  | locked f g =>
      have hexec : ∀ {m₁ b m₂}, f m₁ = some (b, m₂) →
          m₂ = m₁ ∧ Performs sp m₁ q es (k (g b)) := by
        intro m₁ b m₂ hf
        have hk' := @hk (Function.update base sp.lock m₁) (g b)
          (Function.update (Function.update base sp.lock m₁) sp.lock m₂) []
          (by simp [Prog.exec, hf])
        simpa using hk'
      exact .lock (.look (fun h => (hexec h).1) fun h =>
        .unlock (hexec h).2)

/-- And one that performs an event. -/
theorem Once.change {p : Prog S D α} {k : α → Prog S D β}
    (hp : Once sp.lock p) (base : ∀ l, S l)
    (hevent : ∀ {mem a mem' out}, p.exec mem = some (a, mem', out) →
      sp.on (mem sp.lock) e = some (mem' sp.lock))
    (hidle : sp.Idle e → ∀ a, Performs sp m q (e :: es) (k a))
    (hk : ∀ m a, Performs sp m q es (k a)) :
    Performs sp m q (e :: es) (p >>= k) := by
  cases hp with
  | done a =>
      refine hidle (fun m => ?_) a
      have h := @hevent (Function.update base sp.lock m) a _ [] rfl
      simpa using h
  | fail => exact .fail
  | locked f g =>
      refine .lock (.change (fun {m₁ b m₂} hf => ?_) fun _ =>
        .unlock (hk _ _))
      have h := @hevent (Function.update base sp.lock m₁) (g b)
        (Function.update (Function.update base sp.lock m₁) sp.lock m₂) []
        (by simp [Prog.exec, hf])
      simpa using h

end

-- ==================================================================== histories

/-- The data after the first `n` events. -/
def Spec.after (sp : Spec S D E Q) (m₀ : S sp.lock)
    (hist : List (T × E)) (n : Nat) : Option (S sp.lock) :=
  ((hist.take n).map Prod.snd).foldlM sp.on m₀

/-- What a thread has done. -/
def mine [DecidableEq T] (hist : List (T × E)) (t : T) : List E :=
  (hist.filter fun x => x.1 = t).map Prod.snd

/-- What was sent answers the data as it was at moments that follow one
another, the last of them after `n` events. -/
inductive Answered (sp : Spec S D E Q) (m₀ : S sp.lock)
    (hist : List (T × E)) (q₀ : Q) : Nat → List D → Q → Prop
  | nil : Answered sp m₀ hist q₀ 0 [] q₀
  | snoc {n n' out d q q' m} (before : Answered sp m₀ hist q₀ n out q)
      (later : n ≤ n') (past : n' ≤ hist.length)
      (saw : sp.after m₀ hist n' = some m) (right : sp.answers q m d q') :
      Answered sp m₀ hist q₀ n' (out ++ [d]) q'

/-- How far a thread is: what it has done and sent, and the moment it saw
the data last. -/
def Along [DecidableEq T] (sp : Spec S D E Q) (m₀ : S sp.lock)
    (hist : List (T × E)) (tasks : List E) (q₀ : Q) (t : T)
    (th : Thread S D) : Prop :=
  ∃ n n' m q todo, Answered sp m₀ hist q₀ n th.out q
    ∧ n ≤ n' ∧ n' ≤ hist.length ∧ sp.after m₀ hist n' = some m
    ∧ Performs sp m q todo th.code ∧ tasks = mine hist t ++ todo

/-- The data is what the history leaves, and the threads are along. -/
structure History [DecidableEq T] (sp : Spec S D E Q) (m₀ : S sp.lock)
    (tasks : T → List E) (q₀ : T → Q) (hist : List (T × E))
    (s : State S D T) : Prop where
  data : sp.after m₀ hist hist.length = some (s.mem sp.lock)
  along : ∀ t, Along sp m₀ hist (tasks t) (q₀ t) t (s.thread t)

variable {sp : Spec S D E Q} {m₀ : S sp.lock} {hist : List (T × E)}
  {tasks : T → List E} {q₀ : T → Q}

/-- What comes later does not change what was there then. -/
theorem after_append (x : T × E) {n : Nat} (hn : n ≤ hist.length) :
    sp.after m₀ (hist ++ [x]) n = sp.after m₀ hist n := by
  rw [Spec.after, List.take_append_of_le_length hn, Spec.after]

/-- After one entry more the data is what that entry makes of it. -/
theorem after_snoc {t : T} {e : E} {m m' : S sp.lock}
    (h : sp.after m₀ hist hist.length = some m) (he : sp.on m e = some m') :
    sp.after m₀ (hist ++ [(t, e)]) (hist ++ [(t, e)]).length = some m' := by
  rw [Spec.after, List.take_length] at h ⊢
  rw [List.map_append, List.foldlM_append, h]
  show (sp.on m e).bind _ = _
  rw [he]
  rfl

/-- An answer given stays one, whatever is entered later. -/
theorem Answered.append {q₀ q : Q} {n : Nat} {out : List D}
    (h : Answered sp m₀ hist q₀ n out q) (x : T × E) :
    Answered sp m₀ (hist ++ [x]) q₀ n out q := by
  induction h with
  | nil => exact .nil
  | snoc _ later past saw right ih =>
      refine .snoc ih later ?_ ((after_append x past).trans saw) right
      rw [List.length_append]
      omega

variable [DecidableEq T]

/-- A thread's own entries grow by the one it makes. -/
theorem mine_append_self (t : T) (e : E) :
    mine (hist ++ [(t, e)]) t = mine hist t ++ [e] := by
  simp [mine]

/-- Another thread's entry is none of its own. -/
theorem mine_append_of_ne {t u : T} (h : t ≠ u) (e : E) :
    mine (hist ++ [(t, e)]) u = mine hist u := by
  simp [mine, h]

/-- Other threads' events leave a thread where it is. -/
theorem Along.append {t u : T} {es : List E} {q : Q} {th : Thread S D}
    (h : Along sp m₀ hist es q u th) (htu : t ≠ u) (e : E) :
    Along sp m₀ (hist ++ [(t, e)]) es q u th := by
  obtain ⟨n, n', m, q', todo, hans, hle, hpast, hsaw, hperf, htasks⟩ := h
  refine ⟨n, n', m, q', todo, hans.append _, hle, ?_,
    (after_append _ hpast).trans hsaw, hperf, ?_⟩
  · rw [List.length_append]
    omega
  · rw [mine_append_of_ne htu, htasks]

section

variable {s : State S D T}

/-- A thread goes on, and the history with it. -/
theorem History.update {hist' : List (T × E)} {m : ∀ l, S l}
    {th : Thread S D} {t : T}
    (hdata : sp.after m₀ hist' hist'.length = some (m sp.lock))
    (hself : Along sp m₀ hist' (tasks t) (q₀ t) t th)
    (hothers : ∀ u, t ≠ u →
      Along sp m₀ hist' (tasks u) (q₀ u) u (s.thread u)) :
    History sp m₀ tasks q₀ hist' ⟨m, Function.update s.thread t th⟩ := by
  refine ⟨hdata, fun u => ?_⟩
  by_cases hut : u = t
  · subst hut
    simpa using hself
  · simpa [Function.update_of_ne hut] using hothers u (Ne.symm hut)

end

variable [DecidableEq L] {s s' : State S D T}

/-- One instruction of one thread: it performs its next event, or none. -/
theorem History.step (h : History sp m₀ tasks q₀ hist s)
    (hstep : Step s s') :
    ∃ more, History sp m₀ tasks q₀ (hist ++ more) s' := by
  obtain ⟨t, does, free, -⟩ := hstep
  obtain ⟨n, n', m, q, todo, hans, hle, hpast, hsaw, hperf, htasks⟩ :=
    h.along t
  have hquiet : ∀ {mem : ∀ l, S l} {th : Thread S D},
      mem sp.lock = s.mem sp.lock →
      Along sp m₀ hist (tasks t) (q₀ t) t th → ∃ more,
        History sp m₀ tasks q₀ (hist ++ more)
          ⟨mem, Function.update s.thread t th⟩ := by
    intro mem th hmem hth
    refine ⟨[], ?_⟩
    rw [List.append_nil]
    exact .update (hmem ▸ h.data) hth fun u _ => h.along u
  generalize s.thread t = th at does free hans hperf
  cases does with
  | lock =>
      cases hperf with
      | lock rest =>
          exact hquiet rfl
            ⟨n, n', m, q, todo, hans, hle, hpast, hsaw, rest, htasks⟩
  | unlock =>
      cases hperf with
      | unlock rest =>
          exact hquiet rfl
            ⟨n, n', m, q, todo, hans, hle, hpast, hsaw, rest, htasks⟩
  | send =>
      cases hperf with
      | send right rest =>
          exact hquiet rfl ⟨n', n', m, _, todo,
            .snoc hans hle hpast hsaw right, Nat.le_refl _, hpast, hsaw,
            rest, htasks⟩
  | act hf =>
      cases hperf with
      | other apart rest =>
          exact hquiet (Function.update_of_ne apart.symm ..)
            ⟨n, n', m, q, todo, hans, hle, hpast, hsaw, rest _, htasks⟩
      | look same rest =>
          -- what it sees is the data after all events so far
          have hmem := same hf
          subst hmem
          exact hquiet (Function.update_self ..)
            ⟨n, hist.length, _, q, todo, hans, Nat.le_trans hle hpast,
              Nat.le_refl _, h.data, rest hf, htasks⟩
      | @change _ _ e es _ _ _ changes rest =>
          have hdata := after_snoc (t := t) h.data (changes hf)
          refine ⟨[(t, e)], .update (by simpa using hdata) ?_ fun u htu =>
            (h.along u).append htu e⟩
          refine ⟨n, (hist ++ [(t, e)]).length, _, q, es, hans.append _, ?_,
            Nat.le_refl _, hdata, rest hf, ?_⟩
          · rw [List.length_append]
            omega
          · rw [mine_append_self, List.append_assoc]
            exact htasks

/-- Runs: the data is what the events leave that the threads have
performed, in the order in which they did. -/
theorem History.reaches {hist : List (T × E)}
    (h : History sp m₀ tasks q₀ hist s)
    (hrun : Relation.ReflTransGen Step s s') :
    ∃ more, History sp m₀ tasks q₀ (hist ++ more) s' := by
  induction hrun with
  | refl => exact ⟨[], by rwa [List.append_nil]⟩
  | tail _ hstep ih =>
      obtain ⟨more, hmid⟩ := ih
      obtain ⟨more', hend⟩ := hmid.step hstep
      exact ⟨more ++ more', by rwa [← List.append_assoc]⟩

omit [DecidableEq L] in
/-- At first nothing is entered, and no task is begun. -/
theorem History.start {m : ∀ l, S l} {code : T → Prog S D Unit}
    (h : ∀ t, Performs sp (m sp.lock) (q₀ t) (tasks t) (code t)) :
    History sp (m sp.lock) tasks q₀ []
      ⟨m, fun t => Thread.start (code t)⟩ :=
  ⟨rfl, fun t => ⟨0, 0, _, _, _, .nil, Nat.le_refl 0, Nat.le_refl 0, rfl,
    h t, rfl⟩⟩

end Locks
