/-
The thread that keeps the router list up to date (router/router.c).

# The thread

An update asks the tracker until `parse_node_list` accepts an answer.
The parser adds the entries it reads to the list at `tmp` one by one,
and `set_routers` moves that list into the place of the old one, which
it frees. `tmp` is emptied when an update starts, not when an attempt
fails, so the entries of a rejected answer stay in it and come first in
the list of the next accepted one (`Update`, `updateStep_spec`).

`routers_lock` is held from each request to the end of the attempt, so
an attempt is one step.

# Two lists in one memory

`Keeping` says which nodes are on which list: the two have none in common,
so appending to the one and freeing the other are frames of each other.
The loop of `set_routers` follows the `next` pointer it saved before it
freed the node, which is why `clearLoop_spec` speaks about two nodes.
-/
import Psnet.Net.Dotted
import Psnet.Parse.Model
import Psnet.Router.Flood

namespace Psnet.Router

open Net Linked Jsmn Parse

-- ================================================================== the thread

def OUTDEGREE : Nat := 32

/-- The loop of `set_routers` over the old list, at `pos` with `n` the
node after it. -/
def clearLoop : Nat → Mem → Ptr → Ptr → Option Mem
  | 0, _, _, _ => none
  | k + 1, m, pos, n =>
      if pos = .routers then some m
      else do
        let m ← listDel m pos
        let m := m.free pos
        let next ← m.heap n
        clearLoop k m n next.next

/-- `set_routers`. -/
def setRouters (m : Mem) (new : Ptr) : Option Mem := do
  let h ← m.heap .routers
  let first ← m.heap h.next
  let m ← clearLoop (m.brk + 1) m h.next first.next
  if ← listEmpty m new then initListHead m .routers
  else do
    let h ← m.heap new
    let m ← m.write .routers fun n => { n with next := h.next }
    let m ← m.write .routers fun n => { n with prev := h.prev }
    let m ← m.write h.next fun n => { n with prev := .routers }
    m.write h.prev fun n => { n with next := .routers }

/-- What `psnet_raw_request_discover` returns: a negative code, or a
body, which is parsed on a stack that may hold anything. -/
inductive Answer
  | error (e : Nat)
  | body (msg : Text) (stack : Nat → JsmnTok)

/-- `psnet_request_discover`: its return code and the entries it adds to
the list it is given. -/
def psnetRequestDiscover (inet : Inet) (num : Nat) :
    Answer → Option (Int × List Sockaddr)
  | .error e => some (Int.negSucc e, [])
  | .body msg stack => parseNodeList inet msg num stack

/-- The thread's memory, and whether it is about to start an update. -/
structure Update where
  mem : Mem
  starting : Bool

/-- `INIT_LIST_HEAD(&tmp)`, where an update starts. -/
def Update.start (t : Update) : Option Mem :=
  if t.starting then initListHead t.mem .tmp else some t.mem

/-- `router_update_thread` up to the end of the attempt the answer
belongs to. -/
def updateStep (inet : Inet) (t : Update) (ans : Answer) :
    Option Update := do
  let m ← t.start
  let (rv, sas) ← psnetRequestDiscover inet OUTDEGREE ans
  let m ← addEntries m .tmp sas
  if rv = 0 then do
    let m ← setRouters m .tmp
    return ⟨m, true⟩
  else return ⟨m, false⟩

-- ============================================================== set_routers

variable {m : Mem} {as bs : List Ptr} {rs ts : List Sockaddr}

/-- The loop frees every entry, and leaves an empty list. -/
theorem clearLoop_spec :
    ∀ {k : Nat} {m : Mem} {rs : List Sockaddr} {n : Ptr},
      Holds m .routers as rs → as.length < k →
      (m.heap (as.head?.getD .routers)).map ListHead.next = some n →
      ∃ m', clearLoop k m (as.head?.getD .routers) n = some m'
        ∧ Holds m' .routers [] [] ∧ m'.brk = m.brk
        ∧ ∀ b, b ∉ Ptr.routers :: as → m'.heap b = m.heap b := by
  induction as with
  | nil =>
      intro k m rs n h hk _
      obtain ⟨k, rfl⟩ : ∃ j, k = j + 1 := ⟨k - 1, by simp at hk; omega⟩
      have hrs : rs = [] :=
        List.length_eq_zero_iff.mp (h.length_eq.symm.trans rfl)
      exact ⟨m, rfl, hrs ▸ h, rfl, fun _ _ => rfl⟩
  | cons a as ih =>
      intro k m rs n h hk hnext
      obtain ⟨k, rfl⟩ : ∃ j, k = j + 1 := ⟨k - 1, by simp at hk; omega⟩
      cases rs with
      | nil => simpa using h.length_eq
      | cons sa rs =>
          obtain ⟨m₁, hm₁, h₁, hb₁, hf₁⟩ := h.tail
          -- the node after the one freed was read before it was freed
          have hn : n = as.head?.getD .routers :=
            Option.some.inj (hnext.symm.trans h.ring.first.1)
          have hlive : (m₁.heap n).isSome := by
            rw [hn]
            apply h₁.ring.isSome
            cases as <;> simp
          obtain ⟨e, he⟩ := Option.isSome_iff_exists.mp hlive
          have hnext₁ : (m₁.heap (as.head?.getD .routers)).map ListHead.next
              = some e.next := by
            rw [← hn, he]
            rfl
          obtain ⟨m₂, hm₂, h₂, hb₂, hf₂⟩ := ih (k := k) h₁
            (by simp at hk; omega) hnext₁
          have hane : a ≠ .routers := fun hr =>
            (List.nodup_cons.mp h.ring.nodup).1 (hr ▸ List.mem_cons_self ..)
          refine ⟨m₂, ?_, h₂, hb₂.trans hb₁, fun b hb => ?_⟩
          · obtain ⟨m₀, hm₀, hfree⟩ := Option.map_eq_some_iff.mp hm₁
            simp only [List.head?_cons, Option.getD_some, clearLoop,
              if_neg hane, hm₀, bind, Option.bind_some, hfree, he]
            rw [hn]
            exact hm₂
          · rw [hf₂ b fun hmem => hb ?_, hf₁ b hb]
            rcases List.mem_cons.mp hmem with rfl | hmem
            · exact List.mem_cons_self ..
            · exact List.mem_cons_of_mem _ (List.mem_cons_of_mem _ hmem)

/-- The entries of the new list take the place of the old ones. -/
theorem setRouters_spec (hr : Holds m .routers as rs)
    (ht : Holds m .tmp bs ts) (hdis : ∀ b ∈ bs, b ∉ as) :
    ∃ m', setRouters m .tmp = some m' ∧ Holds m' .routers bs ts
      ∧ (m'.heap .tmp).isSome := by
  obtain ⟨h, hh, hnext⟩ := Option.map_eq_some_iff.mp hr.ring.ends.1
  have hlive : (m.heap h.next).isSome := by
    rw [hnext]
    apply hr.ring.isSome
    cases as <;> simp
  obtain ⟨first, hfirst⟩ := Option.isSome_iff_exists.mp hlive
  obtain ⟨m₁, hm₁, h₁, hb₁, hf₁⟩ := clearLoop_spec (k := m.brk + 1)
    (n := first.next) hr (Nat.lt_succ_of_le hr.length_le)
    (by rw [← hnext, hfirst]; rfl)
  -- the new list is untouched so far
  have hoff : ∀ b ∈ Ptr.tmp :: bs, b ∉ Ptr.routers :: as := by
    intro b hb hmem
    rcases List.mem_cons.mp hb with rfl | hb
    · rcases List.mem_cons.mp hmem with hmem | hmem
      · cases hmem
      · obtain ⟨n, hn, -⟩ := hr.entries _ hmem
        cases hn
    · rcases List.mem_cons.mp hmem with rfl | hmem
      · obtain ⟨n, hn, -⟩ := ht.entries _ hb
        cases hn
      · exact hdis b hb hmem
  have ht₁ : Holds m₁ .tmp bs ts :=
    ht.congr (fun b hb => hf₁ b (hoff b hb)) (Nat.le_of_eq hb₁.symm)
  obtain ⟨e, he, hen⟩ := Option.map_eq_some_iff.mp ht₁.ring.ends.1
  obtain ⟨e', he', hep⟩ := Option.map_eq_some_iff.mp ht₁.ring.ends.2
  rw [he, Option.some.injEq] at he'
  subst he'
  rw [← hnext] at hm₁
  -- what is left to do is to take the ring over, or to make an empty one
  have hset : setRouters m .tmp = (do
      if decide (e.next = .tmp) then initListHead m₁ .routers
      else do
        let m ← m₁.write .routers fun n => { n with next := e.next }
        let m ← m.write .routers fun n => { n with prev := e.prev }
        let m ← m.write e.next fun n => { n with prev := .routers }
        m.write e.prev fun n => { n with next := .routers }) := by
    simp only [setRouters, hh, hfirst, hm₁, listEmpty, he, bind,
      Option.bind_some, pure]
  have hrlive : (m₁.heap .routers).isSome :=
    h₁.ring.isSome (List.mem_cons_self ..)
  cases bs with
  | nil =>
      have hts : ts = [] :=
        List.length_eq_zero_iff.mp (ht.length_eq.symm.trans rfl)
      obtain ⟨r, hr₁⟩ := Option.isSome_iff_exists.mp hrlive
      obtain ⟨m₂, hm₂, h₂, -, hf₂⟩ := initListHead_spec hr₁
      refine ⟨m₂, ?_, hts ▸ h₂, ?_⟩
      · rw [hset, if_pos (by rw [hen]; rfl)]
        exact hm₂
      · rw [hf₂ .tmp (by simp), he]
        rfl
  | cons b bs =>
      have hne : e.next ≠ .tmp := by
        rw [hen]
        intro heq
        subst heq
        exact (List.nodup_cons.mp ht.ring.nodup).1 (List.mem_cons_self ..)
      obtain ⟨z, hz⟩ : ∃ z, (b :: bs).getLast? = some z :=
        Option.isSome_iff_exists.mp (by simp)
      have hzp : e.prev = z := by rw [hep, hz]; rfl
      obtain ⟨m₂, hm₂, h₂, s₂⟩ := ht₁.rehead .routers
        (a := e.next) (z := e.prev) (by rw [hen]; rfl) (by rw [hzp, hz])
        hrlive fun hmem => hoff _ (List.mem_cons_of_mem _ hmem)
          (List.mem_cons_self ..)
      refine ⟨m₂, ?_, h₂, ?_⟩
      · rw [hset, if_neg (by simpa using hne)]
        exact hm₂
      · rw [s₂.live, he]
        rfl

-- ================================================================ one attempt

/-- The list routers are looked up in holds `rs`; unless an update is
about to start, the list at `tmp` holds `ts` on other nodes. -/
structure Keeping (t : Update) (rs ts : List Sockaddr) : Prop where
  lists : ∃ as, Holds t.mem .routers as rs
    ∧ if t.starting then ts = [] ∧ (t.mem.heap .tmp).isSome
      else ∃ bs, Holds t.mem .tmp bs ts ∧ ∀ b ∈ bs, b ∉ as

/-- The attempt begins with the list at `tmp` in order. -/
theorem Keeping.begin {t : Update} (h : Keeping t rs ts) :
    ∃ m as bs, t.start = some m
      ∧ Holds t.mem .routers as rs ∧ Holds m .routers as rs
      ∧ Holds m .tmp bs ts ∧ ∀ b ∈ bs, b ∉ as := by
  obtain ⟨as, hr, hrest⟩ := h.lists
  split at hrest
  · next hst =>
    obtain ⟨rfl, hlive⟩ := hrest
    obtain ⟨n, hn⟩ := Option.isSome_iff_exists.mp hlive
    obtain ⟨m, hm, ht, hbrk, hf⟩ := initListHead_spec hn
    refine ⟨m, as, [], by rw [Update.start, if_pos hst, hm], hr, ?_, ht,
      by simp⟩
    refine hr.congr (fun a ha => hf a ?_) (Nat.le_of_eq hbrk.symm)
    intro heq
    subst heq
    rcases List.mem_cons.mp ha with ha | ha
    · cases ha
    · obtain ⟨n, hn, -⟩ := hr.entries _ ha
      cases hn
  · next hst =>
    obtain ⟨bs, ht, hdis⟩ := hrest
    exact ⟨t.mem, as, bs, by rw [Update.start, if_neg hst], hr, hr, ht,
      hdis⟩

/-- An accepted answer's entries become the list, behind what `tmp` held
before; a rejected one's only go to `tmp`. -/
theorem updateStep_spec {inet : Inet} {t : Update} {ans : Answer}
    {rv : Int} {sas : List Sockaddr} (h : Keeping t rs ts)
    (hans : psnetRequestDiscover inet OUTDEGREE ans = some (rv, sas)) :
    ∃ t', updateStep inet t ans = some t'
      ∧ if rv = 0 then Keeping t' (ts ++ sas) []
        else Keeping t' rs (ts ++ sas) ∧ ∀ as, Holds t.mem .routers as rs →
          Holds t'.mem .routers as rs := by
  obtain ⟨m, as, bs, hm, hr₀, hr, ht, hdis⟩ := h.begin
  obtain ⟨m₁, cs, hm₁, ht₁, hb₁, hcs, hf₁⟩ :=
    addEntries_spec (by simp) sas ht
  -- the entries are read into a list that shares no node with the router
  -- list
  have hoff : ∀ a ∈ Ptr.routers :: as, a ∉ Ptr.tmp :: (bs ++ cs) := by
    intro a ha hmem
    rcases List.mem_cons.mp hmem with rfl | hmem
    · rcases List.mem_cons.mp ha with ha | ha
      · cases ha
      · obtain ⟨n, hn, -⟩ := hr.entries _ ha
        cases hn
    · rcases List.mem_cons.mp ha with rfl | ha
      · obtain ⟨n, hn, -⟩ := ht₁.entries _ hmem
        cases hn
      · rcases List.mem_append.mp hmem with hmem | hmem
        · exact hdis a hmem ha
        · obtain ⟨n, rfl, hlt⟩ := hr.entries a ha
          obtain ⟨n', hn', hle⟩ := hcs _ hmem
          cases hn'
          exact absurd hlt (Nat.not_lt.mpr hle)
  have hr₁ : Holds m₁ .routers as rs :=
    hr.congr (fun a ha => hf₁ a (hoff a ha)) hb₁
  have hdis₁ : ∀ b ∈ bs ++ cs, b ∉ as := fun b hb ha =>
    hoff b (List.mem_cons_of_mem _ ha) (List.mem_cons_of_mem _ hb)
  simp only [updateStep, hm, hans, hm₁, bind, Option.bind_some]
  -- a rejected answer leaves its entries on the new list
  by_cases hrv : rv = 0
  · obtain ⟨m₂, hm₂, h₂, hlive⟩ := setRouters_spec hr₁ ht₁ hdis₁
    simp only [hrv, ↓reduceIte, hm₂, Option.bind_some]
    exact ⟨⟨m₂, true⟩, rfl, ⟨_, h₂, rfl, hlive⟩⟩
  · simp only [hrv, ↓reduceIte]
    refine ⟨⟨m₁, false⟩, rfl, ⟨as, hr₁, _, ht₁, hdis₁⟩, fun as' has' => ?_⟩
    rw [← (hr₀.unique has').1]
    exact hr₁

-- =================================================================== whole runs

/-- The thread when it starts. -/
def Update.boot : Update := ⟨Router.boot, true⟩

/-- The thread after some answers of the tracker. -/
def updates (inet : Inet) (answers : List Answer) : Option Update :=
  answers.foldlM (updateStep inet) Update.boot

/-- The entries rejected answers have left since the last update. -/
def leftover (inet : Inet) (answers : List Answer) : List Sockaddr :=
  answers.foldl (fun l ans =>
    match psnetRequestDiscover inet OUTDEGREE ans with
    | some (rv, sas) => if rv = 0 then [] else l ++ sas
    | none => l) []

/-- Every attempt gets done. One that finishes an update leaves the
router list with exactly the entries of its answer; any other leaves the
router list alone. -/
def FollowsTracker (inet : Inet) (answers : List Answer) : Prop :=
  ∀ pre ans, pre ++ [ans] <+: answers → ∃ t t' rv sas,
    updates inet pre = some t ∧ updateStep inet t ans = some t'
      ∧ psnetRequestDiscover inet OUTDEGREE ans = some (rv, sas)
      ∧ if rv = 0 then ∃ as, Holds t'.mem .routers as sas
        else ∃ as rs, Holds t.mem .routers as rs
          ∧ Holds t'.mem .routers as rs

theorem keeping_boot : Keeping Update.boot [] [] :=
  ⟨[], boot_holds, rfl, rfl⟩

private theorem updates_concat (inet : Inet) (answers : List Answer)
    (ans : Answer) :
    updates inet (answers ++ [ans])
      = (updates inet answers).bind fun t => updateStep inet t ans := by
  simp [updates, List.foldlM_append]

private theorem leftover_concat {inet : Inet} {answers : List Answer}
    {ans : Answer} {rv : Int} {sas : List Sockaddr}
    (h : psnetRequestDiscover inet OUTDEGREE ans = some (rv, sas)) :
    leftover inet (answers ++ [ans])
      = if rv = 0 then [] else leftover inet answers ++ sas := by
  simp [leftover, List.foldl_append, h]

/-- After some answers the list at `tmp` holds what rejected answers
left. -/
theorem updates_keeping {inet : Inet} {answers : List Answer}
    (h : ∀ ans ∈ answers,
      (psnetRequestDiscover inet OUTDEGREE ans).isSome) :
    ∃ t rs, updates inet answers = some t
      ∧ Keeping t rs (leftover inet answers) := by
  induction answers using List.reverseRecOn with
  | nil => exact ⟨_, [], rfl, keeping_boot⟩
  | append_singleton answers ans ih =>
      obtain ⟨t, rs, ht, hkeep⟩ := ih fun a ha =>
        h a (List.mem_append_left _ ha)
      obtain ⟨⟨rv, sas⟩, hans⟩ :=
        Option.isSome_iff_exists.mp (h ans (by simp))
      obtain ⟨t', ht', hkeep'⟩ := updateStep_spec hkeep hans
      have hrun : updates inet (answers ++ [ans]) = some t' := by
        rw [updates_concat, ht, Option.bind_some, ht']
      rw [leftover_concat hans]
      split at hkeep'
      · next hrv => exact ⟨t', _, hrun, by rw [if_pos hrv]; exact hkeep'⟩
      · next hrv => exact ⟨t', rs, hrun, by rw [if_neg hrv]; exact hkeep'.1⟩

/-- The answers of a run that gets done are read without fault. -/
private theorem answers_isSome {inet : Inet} {answers : List Answer}
    {t : Update} (h : updates inet answers = some t) :
    ∀ ans ∈ answers, (psnetRequestDiscover inet OUTDEGREE ans).isSome := by
  induction answers using List.reverseRecOn generalizing t with
  | nil => simp
  | append_singleton answers ans ih =>
      intro a ha
      rw [updates_concat, Option.bind_eq_some_iff] at h
      obtain ⟨t₀, ht₀, hstep⟩ := h
      rcases List.mem_append.mp ha with ha | ha
      · exact ih ht₀ a ha
      · rw [List.mem_singleton.mp ha]
        simp only [updateStep, bind, Option.bind_eq_some_iff] at hstep
        obtain ⟨m, -, r, hr, -⟩ := hstep
        rw [hr]
        rfl

/-- An accepted answer's entries are alone in the list only if nothing
was left over. -/
private theorem leftover_eq_nil {inet : Inet} {answers : List Answer}
    {ans : Answer} {t t' : Update} {as : List Ptr} {sas : List Sockaddr}
    (ht : updates inet answers = some t)
    (ht' : updateStep inet t ans = some t')
    (hans : psnetRequestDiscover inet OUTDEGREE ans = some (0, sas))
    (h : Holds t'.mem .routers as sas) : leftover inet answers = [] := by
  obtain ⟨t₁, rs, ht₁, hkeep⟩ := updates_keeping (answers_isSome ht)
  rw [ht, Option.some.injEq] at ht₁
  subst ht₁
  obtain ⟨t₂, ht₂, hkeep'⟩ := updateStep_spec hkeep hans
  rw [ht', Option.some.injEq] at ht₂
  subst ht₂
  rw [if_pos rfl] at hkeep'
  obtain ⟨as', hall, -⟩ := hkeep'.lists
  simpa using (h.unique hall).2

/-- The router list follows the tracker exactly when every answer is
read without fault and none is accepted while rejected ones have left
entries behind. -/
theorem router_list_follows_tracker (inet : Inet)
    (answers : List Answer) :
    FollowsTracker inet answers
      ↔ ∀ pre ans, pre ++ [ans] <+: answers → ∃ rv sas,
          psnetRequestDiscover inet OUTDEGREE ans = some (rv, sas)
            ∧ (rv = 0 → leftover inet pre = []) := by
  constructor
  · intro h pre ans hpre
    obtain ⟨t, t', rv, sas, ht, ht', hans, hlist⟩ := h pre ans hpre
    refine ⟨rv, sas, hans, ?_⟩
    intro heq
    subst heq
    rw [if_pos rfl] at hlist
    obtain ⟨as, has⟩ := hlist
    exact leftover_eq_nil ht ht' hans has
  · intro h pre ans hpre
    -- every answer before this one can be read as well
    have hsome : ∀ a ∈ pre,
        (psnetRequestDiscover inet OUTDEGREE a).isSome := by
      intro a ha
      obtain ⟨l₁, l₂, rfl⟩ := List.append_of_mem ha
      have hsub : l₁ ++ [a] <+: answers := by
        refine List.IsPrefix.trans ?_ hpre
        simp
      obtain ⟨rv, sas, hr, -⟩ := h l₁ a hsub
      rw [hr]
      rfl
    obtain ⟨t, rs, ht, hkeep⟩ := updates_keeping hsome
    obtain ⟨rv, sas, hans, hleft⟩ := h pre ans hpre
    obtain ⟨t', ht', hspec⟩ := updateStep_spec hkeep hans
    refine ⟨t, t', rv, sas, ht, ht', hans, ?_⟩
    split
    · next hrv =>
      rw [if_pos hrv, hleft hrv] at hspec
      obtain ⟨as, has, -⟩ := hspec.lists
      exact ⟨as, by simpa using has⟩
    · next hrv =>
      rw [if_neg hrv] at hspec
      obtain ⟨as, has, -⟩ := hkeep.lists
      exact ⟨as, rs, has, hspec.2 as has⟩

/-- A node of the list and a number; the number makes the parser reject
it. -/
def halfList : Answer :=
  .body (ascii ("[\x7b\"ip\":\"1.0.0.0\",\"port\":5557,\"ipv\":4\x7d,"
    ++ "7]")) fun _ => JsmnTok.zero

/-- The entry of a rejected answer turns up in the list of the next
update, although that answer is empty. -/
theorem rejected_entry_stays :
    ¬ FollowsTracker dotted
      [halfList, .body (ascii "[]") fun _ => JsmnTok.zero] := by
  have hhalf : (psnetRequestDiscover dotted OUTDEGREE halfList).any
      (fun r => r.1 ≠ 0 ∧ r.2 ≠ []) = true := by decide +kernel
  have hempty : psnetRequestDiscover dotted OUTDEGREE
      (.body (ascii "[]") fun _ => JsmnTok.zero) = some (0, []) := by
    decide +kernel
  intro h
  obtain ⟨t, t', rv, sas, ht, ht', hans, hlist⟩ :=
    h [halfList] _ (List.prefix_refl _)
  rw [hempty, Option.some.injEq, Prod.mk.injEq] at hans
  obtain ⟨rfl, rfl⟩ := hans
  obtain ⟨as, has⟩ := hlist
  have hnil := leftover_eq_nil ht ht' hempty has
  cases hr : psnetRequestDiscover dotted OUTDEGREE halfList with
  | none => simp [hr] at hhalf
  | some r =>
      obtain ⟨rv, sas⟩ := r
      simp only [hr, Option.any_some, decide_eq_true_eq] at hhalf
      rw [← List.nil_append [halfList], leftover_concat hr,
        if_neg hhalf.1] at hnil
      exact hhalf.2 (List.append_eq_nil_iff.mp hnil).2

end Psnet.Router
