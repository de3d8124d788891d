/-
Duplicate suppression: which broadcasts a router floods, over whole runs
of received datagrams and ticks of the message cache.

A broadcast whose hops allow it refreshes its id in the cache and is
flooded if the id was not there, so a run of the router is a run of the
cache's timed set on the ids (`history`). The delta list follows the
timed set unless the id refreshed is the newest of several
(`newestRepeats`), which takes the node off the list: no tick expires it
then, and its id stays blocked for good (`repeated_id_blocks`).

# The window

An id is refreshed by each broadcast that passes the hops test, flooded or
not, so it is known for `interval` ticks after the last of these
(`recent_iff`). The condition of the theorem is one on the run before each
datagram: the id is not the newest of several.
-/
import Psnet.Router.Broadcast
import Psnet.Router.Flood

namespace Psnet.Router

open Net Jsmn Parse Forest DeltaList Client TimedSet Server

/-- A received datagram that is a broadcast. -/
structure Datagram where
  mi : MsgInfo
  req : Request UdpMethod
  parsed : request udpCommands mi.msg JSMN_NTOK = some req
  broadcast : req.method = .broadcast

/-- The id of a datagram whose hops character is below the limit. -/
def Datagram.id (d : Datagram) : Option Text :=
  (eligible d.mi.msg d.req.kids).map Prod.snd

/-- What happens to a router. -/
inductive Event
  | datagram (d : Datagram)
  | tick

/-- An event handled, and whether the router flooded a message. -/
def onEvent (st : RouterState) : Event → Option (RouterState × Bool)
  | .datagram d => do
      let (st, sent) ← handleMessage st d.mi
      return (st, sent.isSome)
  | .tick => do
      let (msgCache, _) ← deltaTick cacheConf st.msgCache
      return ({ st with msgCache := msgCache }, false)

-- ========================================================= what it is to do

/-- How many ticks there are among the events. -/
def tickCount (evs : List Event) : Nat :=
  evs.countP fun e => match e with
    | .tick => true
    | .datagram _ => false

/-- After the events `pre`, a broadcast with this id that might have
been passed on was received within the last `interval` ticks. -/
def Recent (pre : List Event) (id : Text) : Prop :=
  ∃ before d since, pre = before ++ .datagram d :: since
    ∧ d.id = some id ∧ tickCount since < cacheConf.interval.toNat

/-- The router handles every event, and floods exactly the datagrams
below the hop limit whose id is not recent. -/
def SuppressesDuplicates (st : RouterState) (evs : List Event) : Prop :=
  ∃ st' flooded, Machine.run onEvent st evs = some (st', flooded)
    ∧ ∀ pre d post, evs = pre ++ .datagram d :: post →
        (flooded[pre.length]? = some true
          ↔ ∃ id, d.id = some id ∧ ¬ Recent pre id)

-- ================================================= events and the timed set

theorem cacheConf_lawful : Lawful cacheConf where
  equiv := by
    constructor
    · exact fun a => beq_iff_eq.mpr rfl
    · exact fun h => beq_iff_eq.mpr (beq_iff_eq.mp h).symm
    · exact fun h h' =>
        beq_iff_eq.mpr ((beq_iff_eq.mp h).trans (beq_iff_eq.mp h'))
  hash a b h := by rw [beq_iff_eq.mp h]
  interval := by decide

/-- What an event does to the cache. -/
def Event.op : Event → Option (Op Text)
  | .datagram d => d.id.map Op.update
  | .tick => some .tick

/-- What the events do to the cache. -/
def history (evs : List Event) : List (Op Text) := evs.filterMap Event.op

/-- The ids in the cache, with the ticks each has left. -/
abbrev Ids := Timed Text

/-- The ids after an event. -/
def Event.next (l : Ids) (e : Event) : Ids :=
  match e.op with
  | none => l
  | some o => apply cacheConf.equals cacheConf.interval.toNat l o

/-- Whether the event is to be flooded. -/
def Event.floods (l : Ids) : Event → Bool
  | .datagram d => d.id.any fun id => !has cacheConf.equals l id
  | .tick => false

/-- The event does not repeat the newest of several ids. -/
def Event.ok (l : Ids) : Event → Bool
  | .datagram d => d.id.all fun id => !isTail cacheConf l id
  | .tick => true

/-- No datagram below the hop limit repeats the newest of several ids in
the cache. -/
def newestNotRepeated (evs : List Event) : Bool :=
  Machine.allOk Event.next Event.ok [] evs

private theorem foldl_next (evs : List Event) :
    evs.foldl Event.next []
      = TimedSet.run cacheConf.equals cacheConf.interval.toNat
          (history evs) := by
  rw [TimedSet.run, history, List.foldl_filterMap]
  congr 1
  funext l e
  unfold Event.next
  cases e.op <;> rfl

private theorem ticks_history (evs : List Event) :
    ticks (history evs) = tickCount evs := by
  induction evs with
  | nil => rfl
  | cons e evs ih =>
      cases e with
      | tick => simpa [history, Event.op, ticks, Op.cost, tickCount,
          Nat.add_comm] using ih
      | datagram d =>
          cases hid : d.id <;>
            simpa [history, Event.op, ticks, Op.cost, tickCount, hid] using ih

private theorem not_removes {evs : List Event} {o : Op Text}
    (h : o ∈ history evs) (id : Text) :
    ¬ Removes cacheConf.equals o id := by
  obtain ⟨e, -, he⟩ := List.mem_filterMap.mp h
  cases e with
  | tick =>
      cases he
      simp [Removes]
  | datagram d =>
      obtain ⟨x, -, rfl⟩ := Option.map_eq_some_iff.mp he
      simp [Removes]

/-- An id is recent exactly when it is in the set. -/
private theorem recent_iff {evs : List Event} {id : Text} :
    Recent evs id
      ↔ has cacheConf.equals (evs.foldl Event.next []) id = true := by
  rw [foldl_next, present_iff cacheConf_lawful.equiv
    cacheConf_lawful.interval]
  constructor
  · intro h
    obtain ⟨before, d, since, rfl, hid, hticks⟩ := h
    refine ⟨history before, .update id, history since, ?_, ?_, ?_, ?_⟩
    · simp [history, Event.op, hid]
    · exact cacheConf_lawful.equiv.refl id
    · exact fun p hp => not_removes hp id
    · rwa [ticks_history]
  · intro h
    obtain ⟨pre, o, post, hsplit, href, -, hticks⟩ := h
    obtain ⟨before, rest, rfl, -, hrest⟩ :=
      List.filterMap_eq_append_iff.mp hsplit
    obtain ⟨quiet, e, since, rfl, -, he, rfl⟩ :=
      List.filterMap_eq_cons_iff.mp hrest
    cases e with
    | tick =>
        cases he
        exact href.elim
    | datagram d =>
        obtain ⟨x, hx, rfl⟩ := Option.map_eq_some_iff.mp he
        have hxid : x = id := by simpa [Refreshes, cacheConf] using href
        refine ⟨before ++ quiet, d, since, by simp, hxid ▸ hx, ?_⟩
        rwa [← ticks_history]

-- ============================================================== simulation

/-- The router's cache holds the ids, and its tail is live. -/
structure Follows (routers : List Sockaddr) (clients : List Sockaddr)
    (st : RouterState) (l : Ids) : Prop where
  routers : ∃ as, Holds st.routers .routers as routers
  clients : members st.clientTable = some clients
  cache : Sim cacheConf st.msgCache ⟨l, false⟩

/-- What `cache_msg` does with an id that is not the newest of
several. -/
theorem cacheMsg_spec {t : Table Text} {l : Ids} {id : Text}
    (h : Sim cacheConf t ⟨l, false⟩)
    (hok : isTail cacheConf l id = false) :
    ∃ t', cacheMsg t id
        = some (if has cacheConf.equals l id then 1 else 0, t')
      ∧ Sim cacheConf t'
          ⟨apply cacheConf.equals cacheConf.interval.toNat l (.update id),
            false⟩ := by
  have htail : tailOk cacheConf ⟨l, false⟩ (.update id) = true := by
    simp [tailOk, linkOk, hok]
  obtain ⟨t', ht', hsim⟩ := sim_step cacheConf_lawful h htail
  refine ⟨t', ?_, hsim⟩
  unfold cacheMsg
  cases hup : deltaUpdate cacheConf t id with
  | none => simp [step, hup] at ht'
  | some p =>
      obtain ⟨rc, t₁⟩ := p
      simp only [step, hup, bind, Option.bind_some, reply, pure,
        Option.some.injEq, Prod.mk.injEq] at ht'
      obtain ⟨rfl, hrc⟩ := ht'
      have hrc : rc = if has cacheConf.equals l id then 1 else 0 :=
        congrArg DeltaList.Reply.rc hrc
      rw [hrc]

/-- A tick of the cache is a tick of its set. -/
theorem deltaTick_ids {t : Table Text} {l : Timed Text}
    (h : Sim cacheConf t ⟨l, false⟩) :
    ∃ r, deltaTick cacheConf t = some r
      ∧ Sim cacheConf r.1 ⟨TimedSet.tick l, false⟩ := by
  obtain ⟨t', ht', hsim⟩ := sim_step cacheConf_lawful h (o := .tick) rfl
  obtain ⟨u, hu, heq⟩ := Option.bind_eq_some_iff.mp ht'
  have ht : u.1 = t' := congrArg Prod.fst (Option.some.inj heq)
  exact ⟨u, hu, ht ▸ hsim⟩

/-- An eligible broadcast is cached, and flooded if it was not. -/
theorem passOn_follows {routers clients : List Sockaddr}
    {st : RouterState} {l : Ids} (mi : MsgInfo) (p : Nat) {id : Text}
    (h : Follows routers clients st l)
    (hok : isTail cacheConf l id = false) :
    ∃ st' mi' sent, passOn st mi p id = some (st', mi', sent)
      ∧ sent.isSome = !has cacheConf.equals l id
      ∧ Follows routers clients st'
          (apply cacheConf.equals cacheConf.interval.toNat l
            (.update id)) := by
  obtain ⟨t', ht', hsim⟩ := cacheMsg_spec h.cache hok
  obtain ⟨as, hring⟩ := h.routers
  have hnext : Follows routers clients { st with msgCache := t' } _ :=
    ⟨⟨as, hring⟩, h.clients, hsim⟩
  simp only [passOn, ht', bind, Option.bind_some]
  cases has cacheConf.equals l id with
  | true => exact ⟨_, _, none, rfl, rfl, hnext⟩
  | false =>
      simp only [floodMessage_spec hring h.clients, Option.bind_some]
      exact ⟨_, _, some _, rfl, rfl, hnext⟩

/-- Every event that does not repeat the newest of several ids does what
it is to do. -/
private theorem onEvent_follows {routers clients : List Sockaddr}
    (st : RouterState) (l : Ids) (e : Event)
    (h : Follows routers clients st l) (hok : e.ok l = true) :
    ∃ st', onEvent st e = some (st', e.floods l)
      ∧ Follows routers clients st' (e.next l) := by
  cases e with
  | tick =>
      obtain ⟨t', ht', hsim⟩ := sim_step cacheConf_lawful h.cache
        (o := .tick) rfl
      cases hup : deltaTick cacheConf st.msgCache with
      | none => simp [step, hup] at ht'
      | some r =>
          obtain ⟨t₁, calls⟩ := r
          simp only [step, hup, bind, Option.bind_some, reply, pure,
            Option.some.injEq, Prod.mk.injEq] at ht'
          obtain ⟨rfl, -⟩ := ht'
          refine ⟨{ st with msgCache := t₁ }, ?_,
            h.routers, h.clients, hsim⟩
          simp [onEvent, hup, Event.floods]
  | datagram d =>
      have hmsg := handleMessage_broadcast st d.parsed d.broadcast
      -- a datagram that is not eligible leaves the cache as it is
      cases he : eligible d.mi.msg d.req.kids with
      | none =>
          rw [he] at hmsg
          refine ⟨st, ?_, ?_⟩
          · simp [onEvent, hmsg, Event.floods, Datagram.id, he]
          · simpa [Event.next, Event.op, Datagram.id, he] using h
      | some r =>
          obtain ⟨p, id⟩ := r
          rw [he] at hmsg
          have hid : d.id = some id := by simp [Datagram.id, he]
          have hnew : isTail cacheConf l id = false := by
            simpa [Event.ok, hid] using hok
          obtain ⟨st', mi', sent, hpass, hflood, hnext⟩ :=
            passOn_follows d.mi p h hnew
          refine ⟨st', ?_, ?_⟩
          · simp only [onEvent, hmsg, hpass, Option.map_some, bind,
              Option.bind_some, Event.floods, hid, Option.any_some, hflood]
            rfl
          · simpa only [Event.next, Event.op, hid, Option.map_some]
              using hnext

/-- As long as no broadcast repeats the newest of several ids, the
router floods exactly the broadcasts it is to flood. -/
theorem duplicate_suppression {st : RouterState} {as : List Ptr}
    {routers clients : List Sockaddr} {evs : List Event}
    (hr : Holds st.routers .routers as routers)
    (hc : members st.clientTable = some clients)
    (hempty : st.msgCache = Table.empty)
    (hok : newestNotRepeated evs = true) :
    SuppressesDuplicates st evs := by
  have hstart : Follows routers clients st [] :=
    ⟨⟨as, hr⟩, hc, hempty ▸ sim_init cacheConf⟩
  obtain ⟨st', hrun, -⟩ :=
    Machine.run_simulates onEvent_follows evs st [] hstart hok
  refine ⟨st', _, hrun, ?_⟩
  intro pre d post heq
  subst heq
  rw [Machine.outputs_at, Option.some.injEq, Event.floods]
  cases hid : d.id with
  | none => simp
  | some id => simp [recent_iff]

-- ============================================================== an example

/-- The datagram an IPv6 host sends with the text, if that is a
broadcast. -/
def Datagram.ofText (msg : Text) : Option Datagram :=
  match hq : request udpCommands msg JSMN_NTOK with
  | none => none
  | some q =>
      if hm : q.method = .broadcast then
        some ⟨⟨msg.length, host6 9, msg⟩, q, hq, hm⟩
      else none

/-- A broadcast with this id, and the ticks until the next one. -/
def received (id : String) (ticks : Nat) : List Event :=
  (Datagram.ofText (broadcastText id)).toList.map Event.datagram
    ++ List.replicate ticks .tick

/-- Two ids in turn, each repeated inside the window, and one of them
again just after it. -/
theorem duplicate_suppression_mixed :
    SuppressesDuplicates RouterState.boot
      (received "a" 2 ++ received "b" 0 ++ received "a" 9
        ++ received "b" 1 ++ received "a" 0) :=
  duplicate_suppression boot_holds rfl rfl (by decide +kernel)

/-- After a copy of the newest of two ids the id stays blocked: its node
is off the list, so it is not accepted again when the window is over. -/
theorem repeated_id_blocks :
    ¬ SuppressesDuplicates RouterState.boot
      (received "a" 0 ++ received "b" 0 ++ received "b" 10
        ++ received "b" 0) := by
  intro h
  obtain ⟨st, flooded, hrun, hfloods⟩ := h
  have hflooded : (Machine.run onEvent RouterState.boot
      (received "a" 0 ++ received "b" 0 ++ received "b" 10
        ++ received "b" 0)).map Prod.snd
      = some ([true, true] ++ List.replicate 12 false) := by
    decide +kernel
  rw [hrun, Option.map_some, Option.some.injEq] at hflooded
  have hid : (Datagram.ofText (broadcastText "b")).bind Datagram.id
      = some (ascii "b") := by decide +kernel
  obtain ⟨d, hd, hid⟩ := Option.bind_eq_some_iff.mp hid
  have hlast := hfloods
    (received "a" 0 ++ received "b" 0 ++ received "b" 10) d []
    (by simp [received, hd])
  have hnot : ¬ Recent
      (received "a" 0 ++ received "b" 0 ++ received "b" 10)
      (ascii "b") := by
    rw [recent_iff]
    decide +kernel
  have := hlast.mpr ⟨_, hid, hnot⟩
  rw [show flooded = _ from hflooded] at this
  revert this
  decide +kernel

end Psnet.Router
