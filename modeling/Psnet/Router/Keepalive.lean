/-
Routers that keep themselves listed.

Every router tells the tracker of itself again and again
(`router_keepalive_thread`), and the tracker forgets who has not been
heard of for an interval. The routers, the datagrams under way and the
tracker are a network in which time passes (`Step`). Its moments are as
short as one likes, `rate` of them to the second of the tracker's clock,
and no host starts in step with that clock. What the tracker has received
decides what its table holds, so a run of the network is one of
`Heartbeat` (`Step.beats`). A router that runs stays listed just where a
keepalive interval and the delay of a datagram are at most the interval of
the table less a second, and one that has stopped is dropped
(`keepalive_lists`).

# What is assumed of the network

A datagram is under way for `delay` moments at most, and then has arrived
or is lost; none is invented, so that what arrives is the connect datagram
its router sent, from an address that is stored whole. A run in which the
router's datagrams are lost promises nothing (`StaysListed`). Nothing is
assumed of how the phases of the clocks lie to one another, and the bounds
are those of the worst case: the first tick after a refresh may follow at
once, so that an entry lasts for a second less than its interval.
-/
import Psnet.Lib.Heartbeat
import Psnet.Protocol.Builders
import Psnet.Tracker.Registry

namespace Psnet.Keepalive

open Net Jsmn Parse DeltaList TimedSet Client Server Protocol

open Tracker (Peer peerOf Datagram Event onEvent registry tailKept)

/-- The seconds a router waits between two keepalives, unless it is built
with another number. -/
def DIR_KEEPALIVE_INTERVAL : Nat := 9

-- ================================================================= a keepalive

/-- A datagram `psnet_send_connect` sends for the router `p`, over
IPv4. -/
structure Connects (p : Peer) (d : Datagram) : Prop where
  bytes : d.bytes
    = (psnetSendConnect d.port).msg.take (psnetSendConnect d.port).len
  inet : d.sender.ssFamily = AF_INET
  peer : peerOf d.peer = p

/-- What the keepalive thread sends are the bytes of a connect request. -/
private theorem connect_bytes (port : UInt16) :
    (psnetSendConnect port).msg.take (psnetSendConnect port).len
      = (Asking.connect port).text := by
  have hport := length_port port
  have hwhole : PassedWhole (Asking.connect port).passed
      (Asking.connect port).text := by
    refine (passedWhole_iff (Asking.connect port).nul (by decide)).mpr ?_
    rw [Asking.length_text]
    simp only
    omega
  exact hwhole.2.1

/-- What the tracker receives of it. -/
private theorem connect_received (old : MsgInfo) (sender : Sockaddr)
    (port : UInt16) :
    (udpReceive old sender (Asking.connect port).text).msg
      = store old.msg (Asking.connect port).text := by
  rw [udpReceive, recvBytes_of_lt (Asking.length_lt _)]

/-- The tracker takes it for a connect. -/
theorem Connects.method {p : Peer} {d : Datagram} (h : Connects p d) :
    d.req.method = .connect := by
  have hreq := (Asking.connect d.port).request_eq d.old.msg
    (show named (ascii "connect") Tracker.udpCommands = some .connect by decide)
  have hparsed := d.parsed
  rw [h.bytes, connect_bytes, connect_received, hreq] at hparsed
  rw [← Option.some.inj hparsed]

/-- A connect datagram of a router refreshes it. -/
theorem Connects.op {p : Peer} {d : Datagram} (h : Connects p d) :
    (Event.datagram d).op = .update p := by
  simp only [Event.op, h.method, h.peer]

/-- A connect datagram of an IPv4 router is stored whole. -/
theorem Connects.whole {p : Peer} {d : Datagram} (h : Connects p d) :
    d.Whole := Or.inl h.inet

/-- Any IPv4 host can send one, whatever memory it is received in. -/
private theorem connects_exists (old : MsgInfo) {sender : Sockaddr}
    (hsender : sender.ssFamily = AF_INET) (port : UInt16) :
    ∃ d, Connects (peerOf (setInPort sender (htons port))) d
      ∧ d.old = old := by
  have hreq := (Asking.connect port).request_eq old.msg
    (show named (ascii "connect") Tracker.udpCommands = some .connect by decide)
  have hskip : (ascii "port").isPrefixOf (ascii "method") = false := by
    decide
  obtain ⟨q, hq, hv⟩ : Argument (store old.msg (Asking.connect port).text)
      (flatKids (Asking.connect port).members) (ascii "port")
      (.word (decimal port.toNat)) :=
    Asking.argument _ old.msg (by decide) (by
      simp [Asking.members, lookup_skip, hskip])
  rw [← connect_received old sender] at hreq hq
  refine ⟨⟨old, sender, _, _, q, port, Or.inl hsender, hreq, hq, ?_⟩,
    ⟨(connect_bytes port).symm, hsender, rfl⟩, rfl⟩
  rw [connect_received, valText_holds hv]
  exact Tracker.denotes_decimal _

-- ================================================================== the network

/-- What every router has left to sleep, where it runs; the datagrams under
way, with the moments they have been; the moments until the tracker's clock
ticks; and what the tracker has received. -/
structure State where
  sleep : Peer → Option Nat
  flight : List (Datagram × Nat)
  wait : Nat
  received : List Event

/-- Nobody runs, and the tracker has just been started. -/
def State.init (wait : Nat) : State := ⟨fun _ => none, [], wait, []⟩

section

variable (routers : Peer → Prop) (rate keepalive delay : Nat)

/-- The steps. A router that starts sends at once, and sleeps for
`keepalive` moments after it has sent; the tracker's table ticks once every
`rate` moments. Datagrams that do not get lost arrive within `delay`
moments, in any order. Anybody who is no router may send the tracker
connects and disconnects, as long as these are stored whole. -/
inductive Step (s : State) : Heartbeat.Label Peer → State → Prop
  | moment (awake : ∀ p, s.sleep p ≠ some 0)
      (quick : ∀ b ∈ s.flight, b.2 < delay) :
      Step s .moment {
        sleep p := (s.sleep p).map (· - 1)
        flight := s.flight.map fun b => (b.1, b.2 + 1)
        wait := Heartbeat.nextWait rate s.wait
        received :=
          if s.wait = 1 then s.received ++ [.tick] else s.received }
  | start {p : Peer} (known : routers p) (stopped : s.sleep p = none) :
      Step s (.start p)
        { s with sleep := Function.update s.sleep p (some 0) }
  | stop {p : Peer} (running : s.sleep p ≠ none) :
      Step s (.stop p) { s with sleep := Function.update s.sleep p none }
  | keepalive {p : Peer} {d : Datagram} (due : s.sleep p = some 0)
      (sent : Connects p d) :
      Step s (.beat p) { s with
        sleep := Function.update s.sleep p (some keepalive)
        flight := s.flight ++ [(d, 0)] }
  | arrive {d : Datagram} {a : Nat} {pre post : List (Datagram × Nat)}
      (under : s.flight = pre ++ (d, a) :: post) :
      Step s (.arrive (peerOf d.peer)) { s with
        flight := pre ++ post
        received := s.received ++ [.datagram d] }
  | lose {d : Datagram} {a : Nat} {pre post : List (Datagram × Nat)}
      (under : s.flight = pre ++ (d, a) :: post) :
      Step s (.lose (peerOf d.peer)) { s with flight := pre ++ post }
  | other {d : Datagram} (whole : d.Whole)
      (foreign : ¬ routers (peerOf d.peer)) :
      Step s (.other (Event.datagram d).op)
        { s with received := s.received ++ [.datagram d] }

/-- Runs, with their labels. -/
inductive Run : State → List (Heartbeat.Label Peer) → State → Prop
  | done (s : State) : Run s [] s
  | step {s s₁ s₂ : State} {l : Heartbeat.Label Peer}
      {ls : List (Heartbeat.Label Peer)}
      (first : Step routers rate keepalive delay s l s₁) (rest : Run s₁ ls s₂) :
      Run s (l :: ls) s₂

end

-- ============================================================ what is received

section

variable {routers : Peer → Prop} {rate keepalive delay : Nat} {s s' : State}
  {l : Heartbeat.Label Peer} {ls : List (Heartbeat.Label Peer)} {p : Peer}

/-- Only keepalives are under way, and all that arrives is stored whole. -/
structure Sent (s : State) : Prop where
  under : ∀ b ∈ s.flight, Connects (peerOf b.1.peer) b.1
  whole : ∀ d, .datagram d ∈ s.received → d.Whole

/-- At first nothing is on its way. -/
theorem Sent.init (wait : Nat) : Sent (State.init wait) :=
  ⟨fun _ h => absurd h List.not_mem_nil, fun _ h => absurd h List.not_mem_nil⟩

/-- One more datagram is received. -/
theorem Sent.receive (h : Sent s) {d : Datagram} (hd : d.Whole) (d' : Datagram)
    (hmem : .datagram d' ∈ s.received ++ [Event.datagram d]) : d'.Whole := by
  rcases List.mem_append.mp hmem with hmem | hmem
  · exact h.whole d' hmem
  · cases List.mem_singleton.mp hmem
    exact hd

/-- Every datagram on its way, or received, is one its router sent. -/
theorem Sent.step (h : Sent s) (hstep : Step routers rate keepalive delay s l s') :
    Sent s' := by
  cases hstep with
  | moment awake quick =>
      refine ⟨fun b hb => ?_, fun d hd => ?_⟩
      · obtain ⟨b', hb', rfl⟩ := List.mem_map.mp hb
        exact h.under b' hb'
      · dsimp only at hd
        split at hd
        · rcases List.mem_append.mp hd with hd | hd
          · exact h.whole d hd
          · cases List.mem_singleton.mp hd
        · exact h.whole d hd
  | start known stopped => exact ⟨h.under, h.whole⟩
  | stop running => exact ⟨h.under, h.whole⟩
  | @keepalive p d due sent =>
      refine ⟨fun b hb => ?_, h.whole⟩
      rcases List.mem_append.mp hb with hb | hb
      · exact h.under b hb
      · rw [List.mem_singleton.mp hb]
        exact ⟨sent.bytes, sent.inet, rfl⟩
  | @arrive d a pre post under =>
      have hd : (d, a) ∈ s.flight :=
        under ▸ List.mem_append_right _ List.mem_cons_self
      exact ⟨fun b hb => h.under b (under ▸ Heartbeat.mem_of_taken hb),
        h.receive (h.under _ hd).whole⟩
  | lose under =>
      exact ⟨fun b hb => h.under b (under ▸ Heartbeat.mem_of_taken hb), h.whole⟩
  | other whole foreign => exact ⟨h.under, h.receive whole⟩

/-- So it is after any number of steps. -/
theorem Sent.run (h : Sent s) (hrun : Run routers rate keepalive delay s ls s') :
    Sent s' := by
  induction hrun with
  | done s => exact h
  | step first _ ih => exact ih (h.step first)

-- ===================================================================== heartbeats

/-- Who is to be listed, and what is to arrive. -/
def State.beats (s : State) : Heartbeat.State Peer where
  sleep := s.sleep
  flight := s.flight.map fun b => (peerOf b.1.peer, b.2)
  wait := s.wait
  set := registry s.received

/-- The registry after one more event. -/
private theorem registry_snoc (evs : List Event) (e : Event) :
    registry (evs ++ [e])
      = apply (keyEq id) clientConf.interval.toNat (registry evs) e.op := by
  rw [registry, List.map_append, List.map_cons, List.map_nil, run_snoc]
  rfl

/-- A moment passes for the beats as it does for the network. -/
private theorem beats_moment (rate : Nat) (s : State) :
    State.beats ⟨fun p => (s.sleep p).map (· - 1),
        s.flight.map fun b => (b.1, b.2 + 1), Heartbeat.nextWait rate s.wait,
        if s.wait = 1 then s.received ++ [.tick] else s.received⟩
      = s.beats.later rate := by
  simp only [State.beats, Heartbeat.State.later, List.map_map]
  by_cases hw : s.wait = 1
  · simp only [hw, ↓reduceIte, registry_snoc]
    rfl
  · simp only [hw, ↓reduceIte]
    rfl

/-- The datagram that arrives is the beat at its place among those on their
way. -/
private theorem beats_under {d : Datagram} {a : Nat}
    {pre post : List (Datagram × Nat)} (h : s.flight = pre ++ (d, a) :: post) :
    s.beats.flight = pre.map (fun b => (peerOf b.1.peer, b.2))
      ++ (peerOf d.peer, a) :: post.map (fun b => (peerOf b.1.peer, b.2)) := by
  simp only [State.beats, h, List.map_append, List.map_cons]

/-- A step of the network is one of the heartbeats. -/
theorem Step.beats (hstep : Step routers rate keepalive delay s l s')
    (h : Sent s) :
    Heartbeat.Step routers rate keepalive delay clientConf.interval.toNat s.beats l
      s'.beats := by
  cases hstep with
  | moment awake quick =>
      rw [beats_moment]
      refine .moment awake fun b hb => ?_
      obtain ⟨b', hb', rfl⟩ := List.mem_map.mp hb
      exact quick b' hb'
  | start known stopped => exact .start known stopped
  | stop running => exact .stop running
  | @keepalive p d due sent =>
      have hstep : Heartbeat.Step routers rate keepalive delay
          clientConf.interval.toNat s.beats (.beat p) _ := .beat due
      simpa only [State.beats, List.map_append, List.map_cons, List.map_nil,
        sent.peer] using hstep
  | @arrive d a pre post under =>
      have hd := h.under (d, a)
        (under ▸ List.mem_append_right _ List.mem_cons_self)
      have hstep : Heartbeat.Step routers rate keepalive delay
          clientConf.interval.toNat s.beats (.arrive _) _ :=
        .arrive (beats_under under)
      simpa only [State.beats, List.map_append, registry_snoc, hd.op]
        using hstep
  | @lose d a pre post under =>
      have hstep : Heartbeat.Step routers rate keepalive delay
          clientConf.interval.toNat s.beats (.lose _) _ :=
        .lose (beats_under under)
      simpa only [State.beats, List.map_append] using hstep
  | @other d whole foreign =>
      have hop : Heartbeat.Foreign routers (Event.datagram d).op := by
        refine ⟨peerOf d.peer, foreign, ?_⟩
        cases hm : d.req.method <;> simp [Event.op, hm]
      have hstep : Heartbeat.Step routers rate keepalive delay
          clientConf.interval.toNat s.beats (.other _) _ := .other hop
      simpa only [State.beats, registry_snoc] using hstep

/-- A run of the network is a run of beats. -/
theorem Run.beats (hrun : Run routers rate keepalive delay s ls s')
    (h : Sent s) :
    Heartbeat.Run routers rate keepalive delay clientConf.interval.toNat s.beats ls
      s'.beats := by
  induction hrun with
  | done s => exact .done _
  | step first _ ih => exact .step (first.beats h) (ih (h.step first))

-- ============================================================ one router alone

/-- All that is received is time, or from `p`. -/
def Alone (p : Peer) (s : State) : Prop :=
  ∀ e ∈ s.received, e.op = .tick ∨ e.op = .update p

/-- A table of one router links no node behind a tail. -/
private theorem allOk_alone (ops : List (Op Peer)) (b : Abs Peer)
    (hops : ∀ o ∈ ops, o = .tick ∨ o = .update p)
    (hset : ∀ e ∈ b.set, e.1 = p) :
    Machine.allOk (next (ofKeys clientConf)) (tailOk (ofKeys clientConf)) b
      ops = true := by
  induction ops generalizing b with
  | nil => rfl
  | cons o ops ih =>
      rw [List.forall_mem_cons] at hops
      rw [Machine.allOk, Bool.and_eq_true]
      have herase : erase (keyEq id) b.set p = [] := by
        refine List.filter_eq_nil_iff.mpr fun e he => ?_
        simp [keyEq, hset e he]
      rcases hops.1 with rfl | rfl
      · refine ⟨rfl, ih _ hops.2 fun e he => ?_⟩
        obtain ⟨f, hf, rfl⟩ := List.mem_map.mp (List.mem_filter.mp he).1
        exact hset f hf
      · refine ⟨?_, ih _ hops.2 fun e he => ?_⟩
        · show linkOk (ofKeys clientConf) b p = true
          rw [linkOk, show (ofKeys clientConf).equals = keyEq (id : Peer → Peer)
            from rfl, herase]
          rfl
        · have he' : e ∈ refresh (keyEq id) clientConf.interval.toNat b.set p :=
            he
          rw [refresh, herase, List.nil_append] at he'
          rw [List.mem_singleton.mp he']
          exact key_stored id b.set p

/-- With one router there is no other behind it, so the tail is never left
pointing at a moved node. -/
private theorem tailKept_alone (h : Alone p s) :
    tailKept s.received = true := by
  refine allOk_alone (p := p) _ Abs.init (fun o ho => ?_)
    fun e he => absurd he List.not_mem_nil
  obtain ⟨e, he, rfl⟩ := List.mem_map.mp ho
  exact h e he

/-- A tick, or a connect of the one router, leaves it alone. -/
theorem Alone.snoc (h : Alone p s) {e : Event}
    (he : e.op = .tick ∨ e.op = .update p) :
    ∀ e' ∈ s.received ++ [e], e'.op = .tick ∨ e'.op = .update p := by
  intro e' hmem
  rcases List.mem_append.mp hmem with hmem | hmem
  · exact h e' hmem
  · exact List.mem_singleton.mp hmem ▸ he

/-- Heartbeats of a router alone are steps of the network. -/
private theorem lift_step {t : Heartbeat.State Peer} {d : Datagram}
    (hd : Connects p d) (hs : Sent s) (ha : Alone p s)
    (hstep : Heartbeat.Step routers rate keepalive delay clientConf.interval.toNat
      s.beats l t)
    (hl : l = .moment ∨ l = .beat p ∨ l = .start p ∨ l = .arrive p) :
    ∃ s', Step routers rate keepalive delay s l s' ∧ s'.beats = t
      ∧ Alone p s' := by
  rcases hl with rfl | rfl | rfl | rfl
  · cases hstep with
    | moment awake quick =>
        refine ⟨_, .moment awake fun b hb => ?_, beats_moment rate s, ?_⟩
        · exact quick _ (List.mem_map_of_mem hb)
        · unfold Alone
          dsimp only
          split
          · exact ha.snoc (Or.inl rfl)
          · exact ha
  · cases hstep with
    | beat due =>
        refine ⟨_, .keepalive due hd, ?_, ha⟩
        simp only [State.beats, List.map_append, List.map_cons, List.map_nil,
          hd.peer]
  · cases hstep with
    | start known stopped => exact ⟨_, .start known stopped, rfl, ha⟩
  · cases hstep with
    | arrive under =>
        obtain ⟨pre, rest, hflight, rfl, hrest⟩ :=
          List.map_eq_append_iff.mp under
        obtain ⟨⟨d', a'⟩, post, rfl, heq, rfl⟩ :=
          List.map_eq_cons_iff.mp hrest
        cases heq
        have hd' := hs.under (d', a')
          (hflight ▸ List.mem_append_right _ List.mem_cons_self)
        refine ⟨_, .arrive hflight, ?_, ha.snoc (Or.inr hd'.op)⟩
        simp only [State.beats, List.map_append, registry_snoc, hd'.op]

/-- A run of beats of one router is one the network can take. -/
private theorem lift_run {t u : Heartbeat.State Peer} {d : Datagram}
    (hd : Connects p d) (hs : Sent s) (ha : Alone p s) (ht : s.beats = t)
    (hrun : Heartbeat.Run routers rate keepalive delay clientConf.interval.toNat t ls
      u)
    (hls : ∀ l ∈ ls,
      l = .moment ∨ l = .beat p ∨ l = .start p ∨ l = .arrive p) :
    ∃ s', Run routers rate keepalive delay s ls s' ∧ s'.beats = u ∧ Alone p s' := by
  induction hrun generalizing s with
  | done t => exact ⟨s, .done s, ht, ha⟩
  | step first _ ih =>
      rw [List.forall_mem_cons] at hls
      subst ht
      obtain ⟨s₁, hstep, hs₁, ha₁⟩ := lift_step hd hs ha first hls.1
      obtain ⟨s₂, hrest, hs₂, ha₂⟩ := ih (hs.step hstep) ha₁ hs₁ hls.2
      exact ⟨s₂, .step hstep hrest, hs₂, ha₂⟩

-- =============================================================== who is listed

/-- Whom the tracker lists after all it has received. -/
def Lists (evs : List Event) (ps : List Peer) : Prop :=
  ∃ t clients, evs.foldlM onEvent Table.empty = some t
    ∧ members t = some clients ∧ clients.map peerOf = ps

/-- A table lists the routers in one way. -/
theorem Lists.unique {evs : List Event} {ps ps' : List Peer}
    (h : Lists evs ps) (h' : Lists evs ps') : ps = ps' := by
  obtain ⟨t, clients, ht, hm, rfl⟩ := h
  obtain ⟨t', clients', ht', hm', rfl⟩ := h'
  cases ht.symm.trans ht'
  cases hm.symm.trans hm'
  rfl

/-- A router is listed exactly while its key is in the set. -/
private theorem mem_registry {evs : List Event} :
    p ∈ (registry evs).map Prod.fst
      ↔ has (keyEq id) (registry evs) p = true := by simp [has, keyEq]

/-- The table lists what the registry holds. -/
theorem Sent.lists (h : Sent s) (hok : tailKept s.received = true) :
    Lists s.received ((registry s.received).map Prod.fst) := by
  obtain ⟨t, ht, -⟩ := Tracker.run_simKeys s.received Table.empty Abs.init
    (simKeys_init ..) h.whole hok
  obtain ⟨clients, hmem, hclients⟩ := Tracker.members_registry ht h.whole hok
  exact ⟨t, clients, ht, hmem, hclients⟩

end

/-- Whenever the tracker's clock ticks first, and whatever happens then: a
router is listed as long as it runs and no keepalive of it is lost, from
the first that arrives. -/
def StaysListed (routers : Peer → Prop) (rate keepalive delay : Nat) : Prop :=
  ∀ ⦃wait ls₁ ls₂ s s₁ s₂ p⦄, 0 < wait → wait ≤ rate →
    Run routers rate keepalive delay (.init wait) ls₁ s →
    Step routers rate keepalive delay s (.arrive p) s₁ → s₁.sleep p ≠ none →
    Run routers rate keepalive delay s₁ ls₂ s₂ →
    .stop p ∉ ls₂ → .lose p ∉ ls₂ →
    tailKept s₂.received = true → ∃ ps, Lists s₂.received ps ∧ p ∈ ps

/-- Whatever happens: a router that has stopped is not listed any more when
the table's interval and the delay have passed. -/
def DropsOut (routers : Peer → Prop) (rate keepalive delay : Nat) : Prop :=
  ∀ ⦃wait ls₁ ls₂ s s₁ s₂ p⦄, 0 < wait → wait ≤ rate →
    Run routers rate keepalive delay (.init wait) ls₁ s →
    Step routers rate keepalive delay s (.stop p) s₁ →
    Run routers rate keepalive delay s₁ ls₂ s₂ → .start p ∉ ls₂ →
    clientConf.interval.toNat * rate + delay ≤ Heartbeat.moments ls₂ →
    tailKept s₂.received = true → ∃ ps, Lists s₂.received ps ∧ p ∉ ps

section

variable {routers : Peer → Prop} {rate keepalive delay wait : Nat} {s : State}
  {ls : List (Heartbeat.Label Peer)}

/-- An entry lives for some ticks. -/
private theorem interval_pos : 0 < clientConf.interval.toNat := by decide

/-- What a run has made of the network is sound. -/
private theorem inv_run (hwait : 0 < wait) (hle : wait ≤ rate)
    (hrun : Run routers rate keepalive delay (.init wait) ls s) :
    Heartbeat.Inv routers rate keepalive delay clientConf.interval.toNat
      s.beats :=
  (Heartbeat.Inv.init hwait hle).run interval_pos (hrun.beats (.init wait))

/-- Where there is time enough, a router stays listed. -/
theorem staysListed
    (h : keepalive + delay ≤ (clientConf.interval.toNat - 1) * rate) :
    StaysListed routers rate keepalive delay := by
  intro wait ls₁ ls₂ s s₁ s₂ p hwait hle hrun hstep hrunning hrest hstop hlose
    hok
  have hs := (Sent.init wait).run hrun
  have hs₁ := hs.step hstep
  refine ⟨_, (hs₁.run hrest).lists hok, mem_registry.mpr ?_⟩
  exact Heartbeat.accurate (inv_run hwait hle hrun) interval_pos h
    (hstep.beats hs) hrunning (hrest.beats hs₁) hstop hlose

/-- One that has stopped drops out. -/
theorem dropsOut : DropsOut routers rate keepalive delay := by
  intro wait ls₁ ls₂ s s₁ s₂ p hwait hle hrun hstep hrest hstart hlong hok
  have hs := (Sent.init wait).run hrun
  have hs₁ := hs.step hstep
  refine ⟨_, (hs₁.run hrest).lists hok, fun hmem => ?_⟩
  have hout : has (keyEq id) (registry s₂.received) p = false :=
    Heartbeat.complete (inv_run hwait hle hrun) interval_pos (hstep.beats hs)
      (hrest.beats hs₁) hstart hlong
  rw [mem_registry.mp hmem] at hout
  cases hout

/-- Where the delay is too long, one that runs is dropped. -/
private theorem not_staysListed {p : Peer} {d : Datagram} (hp : routers p)
    (hd : Connects p d) (hpos : 0 < keepalive) (hrate : 0 < rate)
    (h : (clientConf.interval.toNat - 1) * rate < keepalive + delay) :
    ¬ StaysListed routers rate keepalive delay := by
  intro hstays
  obtain ⟨t, t₁, ls, t₂, hbeats, harrive, hrunning, hrest, hls, hout⟩ :=
    Heartbeat.forgotten hp hpos interval_pos hrate h
  obtain ⟨s, hrun, hs, ha⟩ := lift_run hd (Sent.init 1)
    (fun e he => absurd he List.not_mem_nil) rfl hbeats (by simp)
  subst hs
  obtain ⟨s₁, hstep, hs₁, ha₁⟩ := lift_step hd ((Sent.init 1).run hrun) ha
    harrive (by simp)
  subst hs₁
  have hsent₁ := ((Sent.init 1).run hrun).step hstep
  obtain ⟨s₂, hrun₂, hs₂, ha₂⟩ := lift_run hd hsent₁ ha₁ rfl hrest
    fun l hl => by rcases hls l hl with rfl | rfl <;> simp
  subst hs₂
  have hok := tailKept_alone ha₂
  have hnot : ∀ {l : Heartbeat.Label Peer}, l ≠ .moment → l ≠ .beat p →
      l ∉ ls := fun h₁ h₂ hl => (hls _ hl).elim h₁ h₂
  obtain ⟨ps, hps, hmem⟩ := hstays Nat.one_pos hrate hrun hstep hrunning hrun₂
    (hnot nofun nofun) (hnot nofun nofun) hok
  rw [hps.unique ((hsent₁.run hrun₂).lists hok), mem_registry] at hmem
  exact absurd (hmem.symm.trans hout) nofun

end

/-- Routers are kept in the tracker's table by their keepalives exactly where
a keepalive interval and the delay of a datagram are at most the interval of
the table less a second; and those that have stopped drop out of it. -/
theorem keepalive_lists {routers : Peer → Prop} {rate keepalive : Nat}
    (hrate : 0 < rate) (hpos : 0 < keepalive)
    (hany : ∃ p d, routers p ∧ Connects p d) (delay : Nat) :
    (StaysListed routers rate keepalive delay
        ↔ keepalive + delay ≤ (clientConf.interval.toNat - 1) * rate)
      ∧ DropsOut routers rate keepalive delay := by
  obtain ⟨p, d, hp, hd⟩ := hany
  refine ⟨⟨fun h => ?_, staysListed⟩, dropsOut⟩
  by_contra hle
  exact not_staysListed hp hd hpos hrate (Nat.lt_of_not_le hle) h

/-- As built, a keepalive that takes a tenth of a second may come too
late. -/
theorem keepalive_lists_default :
    StaysListed (fun _ => True) 10 (DIR_KEEPALIVE_INTERVAL * 10) 0
      ∧ ¬ StaysListed (fun _ => True) 10 (DIR_KEEPALIVE_INTERVAL * 10) 1 := by
  obtain ⟨d, hd, -⟩ := connects_exists Router.zeroInfo
    (show (host4 1).ssFamily = AF_INET from rfl) 5557
  have hany : ∃ p d, True ∧ Connects p d := ⟨_, d, trivial, hd⟩
  have hrate : 0 < 10 := by decide
  have hpos : 0 < DIR_KEEPALIVE_INTERVAL * 10 := by decide
  exact ⟨(keepalive_lists hrate hpos hany 0).1.mpr (by decide),
    fun h => absurd ((keepalive_lists hrate hpos hany 1).1.mp h) (by decide)⟩

end Psnet.Keepalive
