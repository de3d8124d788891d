/-
A network of routers, and the copies of one datagram in it.

# The network

A router handles a datagram when it is delivered, in whatever order the
network likes, and the datagrams it floods are in flight then. The
network may lose a datagram; it duplicates none. Between deliveries a
router's tables may become anything (`Step.change`): other messages,
ticks and the update thread are all covered by that, and so is every
interleaving of the worker threads, since nothing of the tables but the
answer of the cache and the list of destinations matters.

# Why flooding terminates

Each forwarding bumps the hops character of the copy (`Hopped`), which
is all it changes: the copy is parsed into the same tokens, so the next
router finds the same character and bumps it again, until it is at the
limit. The copies of one datagram are thus items of a pool that spread
three generations deep (`Spread`), the generation of a copy being the
number of routers on its path.
-/
import Psnet.Lib.Spread
import Psnet.Router.Broadcast
import Psnet.Router.Flood
import Psnet.Server.Receive

namespace Psnet.Router

open Net Jsmn Parse DeltaList Client Server Spread

-- ================================================================ the network

/-- A datagram in flight, with the routers that forwarded it. -/
structure Packet (N : Type) where
  dst : Sockaddr
  payload : List UInt8
  path : List N
  deriving DecidableEq

/-- `flood_message` has at most `F` destinations. -/
def Fanout (F : Nat) (st : RouterState) : Prop :=
  ∀ mi sent, floodMessage st.routers st.clientTable mi = some sent →
    sent.length ≤ F

/-- The state of the network: its routers, the datagrams in flight, how
many the routers sent so far and how many were delivered or lost. -/
structure Network (N : Type) (F : Nat) where
  router : N → RouterState
  fanout : ∀ n, Fanout F (router n)
  flight : List (Packet N)
  sent : Nat
  done : Nat

variable {N : Type} {F : Nat}

/-- The datagrams a router's calls of `udp_send` put on the wire. -/
def emit (path : List N) : List UdpSend → Option (List (Packet N))
  | [] => some []
  | s :: sends => do
      let payload ← s.payload
      let packets ← emit path sends
      return ⟨s.addr, payload, path⟩ :: packets

variable [DecidableEq N]

/-- One step of the network. `host` is who listens at an address. -/
inductive Step (host : Sockaddr → Option N) :
    Network N F → Network N F → Prop
  | deliver {router fanout pre post sent done} {p : Packet N} {n : N}
      {old : MsgInfo} {sender : Sockaddr} {st : RouterState}
      {sends : Option (List UdpSend)} {packets : List (Packet N)}
      (here : host p.dst = some n) (fresh : old.msg.length = MSG_MAX)
      (handled : handleMessage (router n)
        (udpReceive old sender p.payload) = some (st, sends))
      (emitted : emit (p.path ++ [n]) (sends.getD []) = some packets)
      (fanout' : ∀ m, Fanout F (Function.update router n st m)) :
      Step host ⟨router, fanout, pre ++ p :: post, sent, done⟩
        ⟨Function.update router n st, fanout', pre ++ post ++ packets,
          sent + (sends.getD []).length, done + 1⟩
  | lose {router fanout pre post sent done} {p : Packet N} :
      Step host ⟨router, fanout, pre ++ p :: post, sent, done⟩
        ⟨router, fanout, pre ++ post, sent, done + 1⟩
  | change {router fanout flight sent done} (router' : N → RouterState)
      (fanout' : ∀ n, Fanout F (router' n)) :
      Step host ⟨router, fanout, flight, sent, done⟩
        ⟨router', fanout', flight, sent, done⟩

-- ============================================================= what is copied

/-- The message a router reads when the bytes `c` arrive. -/
def Reads (c : List UInt8) (msg : List UInt8) : Prop :=
  ∃ old sender, old.msg.length = MSG_MAX
    ∧ msg = (udpReceive old sender c).msg

/-- The first character of a message's hops token. -/
def hopsPos (msg : List UInt8) : Option Int :=
  (argument msg (ascii "hops")).map Prod.fst

/-- The id `process_broadcast` looks up. -/
def idText (msg : List UInt8) : Option Text :=
  (argument msg (ascii "id")).map Prod.snd

/-- The bytes `c` are the bytes `d` but for the first character of the
hops token, and whatever routers they arrive at read the same tokens and
the same id. -/
structure CopyOf (d c : List UInt8) : Prop where
  length : c.length = d.length
  bytes : ∀ i : Nat, hopsPos d ≠ some (i : Int) → (c)[i]? = d[i]?
  tokens : ∀ msg msg', Reads c msg → Reads d msg' →
    parseMessage msg zeroTokens JSMN_NTOK
      = parseMessage msg' zeroTokens JSMN_NTOK
  id : ∀ msg msg', Reads c msg → Reads d msg' → idText msg = idText msg'

variable {d c : List UInt8}

/-- The message read is the C string that arrived. -/
theorem Reads.cstr_eq {msg : List UInt8} (h : Reads c msg)
    (hc : c.length < MSG_MAX) : cstr msg = cstr c := by
  obtain ⟨old, sender, -, rfl⟩ := h
  rw [udpReceive, recvBytes_of_lt hc]
  exact cstr_store old.msg c

/-- Bytes alike in what the handler reads. -/
structure Same (d c : List UInt8) : Prop where
  length : c.length = d.length
  hops : hopsPos c = hopsPos d
  bytes : ∀ i : Nat, hopsPos d ≠ some (i : Int) → (c)[i]? = d[i]?
  tokens : parseMessage c zeroTokens JSMN_NTOK
    = parseMessage d zeroTokens JSMN_NTOK
  id : idText c = idText d

theorem Same.refl (d : List UInt8) : Same d d :=
  ⟨rfl, rfl, fun _ _ => rfl, rfl, rfl⟩

/-- The edit of a router. -/
theorem Same.bump (h : Same d c) {p : Nat} {id : Text}
    (hpass : passable c = some (p, id)) : Same d (bump c p) := by
  obtain ⟨h₁, h₂, h₃⟩ := argument_bump hpass
  obtain ⟨-, hok⟩ := passable_lt hpass
  have halike : Alike udpKeys (Router.bump c p) c :=
    .of_mask (bump_mask hok) (by decide)
  refine ⟨(length_bump c p).trans h.length, ?_, fun i hi => ?_,
    (parse_alike halike).trans h.tokens, ?_⟩
  · rw [← h.hops, hopsPos, hopsPos, h₁, h₂]
  · have hne : p ≠ i := by
      intro heq
      subst heq
      exact hi (h.hops.symm.trans h₁)
    rw [Router.bump, List.getElem?_set_ne hne, h.bytes i hi]
  · rw [← h.id, idText, idText, h₃]

/-- Bytes alike are copies. -/
theorem Same.copyOf (h : Same d c) (hd : d.length < MSG_MAX) :
    CopyOf d c where
  length := h.length
  bytes := h.bytes
  tokens msg msg' hmsg hmsg' := by
    have hc := hmsg.cstr_eq (h.length ▸ hd)
    rw [parse_alike (.of_cstr hc (by decide)), h.tokens,
      parse_alike (.of_cstr (hmsg'.cstr_eq hd) (by decide))]
  id msg msg' hmsg hmsg' := by
    have hid := h.id
    unfold idText at *
    rw [argument_congr (hmsg.cstr_eq (h.length ▸ hd)) (by decide), hid,
      argument_congr (hmsg'.cstr_eq hd) (by decide)]

/-- A copy that was forwarded `n` times: its hops character is at least
`n`. -/
structure Hopped (d c : List UInt8) (n : Nat) : Prop extends Same d c where
  char : ∀ p id, passable c = some (p, id) → 48 + n ≤ (byteAt c p).toNat

theorem Hopped.zero (d : List UInt8) : Hopped d d 0 where
  toSame := .refl d
  char _ _ h := (hopsOk_iff.mp (passable_lt h).2).1

/-- Only three forwardings leave the hops character below the limit. -/
theorem Hopped.lt {n p : Nat} {id : Text} (h : Hopped d c n)
    (hpass : passable c = some (p, id)) : n < 3 := by
  have := h.char p id hpass
  have := (hopsOk_iff.mp (passable_lt hpass).2).2
  omega

theorem Hopped.bump {n p : Nat} {id : Text} (h : Hopped d c n)
    (hpass : passable c = some (p, id)) :
    Hopped d (bump c p) (n + 1) where
  toSame := h.toSame.bump hpass
  char p' id' h' := by
    have hok := (passable_lt hpass).2
    have hlim := (hopsOk_iff.mp hok).2
    have hchar := h.char p id hpass
    rw [passable_bump hpass] at h'
    split at h'
    · cases h'
      rw [byteAt_bump hok, if_pos rfl, UInt8.toNat_add, Nat.mod_eq_of_lt
        (by simp; omega)]
      exact Nat.succ_le_succ hchar
    · cases h'

-- ========================================================= what a router sends

omit [DecidableEq N] in
theorem emit_spec {path : List N} {sends : List UdpSend}
    {packets : List (Packet N)} (h : emit path sends = some packets) :
    packets.length = sends.length ∧ ∀ p ∈ packets, p.path = path
      ∧ ∃ s ∈ sends, s.payload = some p.payload := by
  induction sends generalizing packets with
  | nil =>
      cases h
      simp
  | cons s sends ih =>
      simp only [emit, bind, Option.bind_eq_some_iff] at h
      obtain ⟨payload, hpay, rest, hrest, h⟩ := h
      cases h
      obtain ⟨hlen, hall⟩ := ih hrest
      refine ⟨by simp [hlen], fun p hp => ?_⟩
      rcases List.mem_cons.mp hp with rfl | hp
      · exact ⟨rfl, s, List.mem_cons_self .., hpay⟩
      · obtain ⟨hpath, s', hs', hpay'⟩ := hall p hp
        exact ⟨hpath, s', List.mem_cons_of_mem _ hs', hpay'⟩

omit [DecidableEq N] in
theorem emit_total {sends : List UdpSend} (path : List N)
    (h : ∀ s ∈ sends, ∃ d, s.payload = some d) :
    ∃ packets, emit path sends = some packets := by
  induction sends with
  | nil => exact ⟨[], rfl⟩
  | cons s sends ih =>
      obtain ⟨d, hd⟩ := h s (List.mem_cons_self ..)
      obtain ⟨packets, hp⟩ := ih fun s hs => h s (List.mem_cons_of_mem _ hs)
      exact ⟨_, by simp only [emit, hd, hp, bind, Option.bind_some]; rfl⟩

/-- Every datagram a router floods is the one it received with the hops
character bumped. -/
theorem flooded_payload {st st' : RouterState} {old : MsgInfo}
    {sender : Sockaddr} {sent : List UdpSend}
    (hold : old.msg.length = MSG_MAX) (hc : c.length < MSG_MAX)
    (h : handleMessage st (udpReceive old sender c)
      = some (st', some sent)) :
    ∃ p id, passable c = some (p, id)
      ∧ ∀ s ∈ sent, s.payload = some (bump c p) := by
  obtain ⟨p, id, hpass, hflood, -⟩ := handleMessage_flood h
  have hreads : Reads c (udpReceive old sender c).msg :=
    ⟨old, sender, hold, rfl⟩
  rw [passable_congr (hreads.cstr_eq hc)] at hpass
  refine ⟨p, id, hpass, fun s hs => ?_⟩
  obtain ⟨hlen, hmsg⟩ := floodMessage_sends hflood s hs
  have hp : p < c.length :=
    Nat.lt_of_lt_of_le (passable_lt hpass).1 (cstr_length_le c)
  have hle : c.length ≤ old.msg.length := Nat.le_of_lt (hold ▸ hc)
  simp only [udpReceive, recvBytes_of_lt hc] at hlen hmsg
  -- the edit is inside the bytes received, and `len` counts just these
  have hbump : bump (store old.msg c) p = store old.msg (bump c p) := by
    rw [bump, byteAt_store hp, set_store hp]
    rfl
  rw [UdpSend.payload, hlen, hmsg, hbump, if_pos]
  · conv_lhs => rw [← length_bump c p]
    rw [take_store]
  · rw [length_store (by rw [length_bump]; omega)]
    omega

-- ================================================================== all of it

/-- The copies in flight form a pool. -/
def Network.pool (s : Network N F) : Pool (Packet N) where
  items := s.flight
  made := s.sent
  used := s.done

/-- What holds of the network while a datagram `d` spreads in it. -/
structure Spreads (d : List UInt8) (s : Network N F) : Prop where
  pool : Spread.Inv (fun p : Packet N => p.path.length) F 3 s.pool
  copies : ∀ p ∈ s.flight, Hopped d p.payload p.path.length

theorem Spreads.step {host : Sockaddr → Option N} {s t : Network N F}
    (hd : d.length < MSG_MAX) (h : Spreads d s) (hstep : Step host s t) :
    Spreads d t := by
  obtain ⟨hpool, hcopies⟩ := h
  cases hstep with
  | change => exact ⟨hpool, hcopies⟩
  | @lose router fanout pre post sent done p =>
      refine ⟨?_, fun q hq => hcopies q ?_⟩
      · have := hpool.step (@Spread.Step.use _ _ _ _ _ _ pre post [] p
          (by simp) (by simp) (by simp))
        simpa [Network.pool] using this
      · exact (List.mem_append.mp hq).elim
          (fun h => List.mem_append_left _ h)
          (fun h => List.mem_append_right _ (List.mem_cons_of_mem _ h))
  | @deliver router fanout pre post sent done p n old sender st sends
      packets here fresh handled emitted fanout' =>
      have hp := hcopies p (by simp)
      have hlen : p.payload.length < MSG_MAX := by rw [hp.length]; exact hd
      obtain ⟨hcount, hall⟩ := emit_spec emitted
      -- what is known of each of the new packets
      have hnew : ∀ q ∈ packets, q.path.length = p.path.length + 1
          ∧ p.path.length < 3
          ∧ Hopped d q.payload (p.path.length + 1) := by
        intro q hq
        obtain ⟨hpath, s, hs, hpay⟩ := hall q hq
        cases sends with
        | none => simp at hs
        | some sends =>
            obtain ⟨pos, id, hpass, hsent⟩ :=
              flooded_payload fresh hlen handled
            rw [hsent s hs, Option.some.injEq] at hpay
            exact ⟨by simp [hpath], hp.lt hpass, hpay ▸ hp.bump hpass⟩
      have hfew : packets.length ≤ F := by
        rw [hcount]
        cases sends with
        | none => simp
        | some sends =>
            obtain ⟨pos, id, -, hflood, -⟩ := handleMessage_flood handled
            exact fanout n _ _ hflood
      refine ⟨?_, fun q hq => ?_⟩
      · have := hpool.step (@Spread.Step.use _ _ _ _ _ _ pre post packets p
          hfew (fun q hq => (hnew q hq).1) fun hne => by
            obtain ⟨q, hq⟩ := List.exists_mem_of_ne_nil _ hne
            exact (hnew q hq).2.1)
        simpa [Network.pool, hcount] using this
      · rcases List.mem_append.mp hq with hq | hq
        · exact hcopies q ((List.mem_append.mp hq).elim
            (fun h => List.mem_append_left _ h)
            (fun h => List.mem_append_right _ (List.mem_cons_of_mem _ h)))
        · obtain ⟨hgen, -, hhop⟩ := hnew q hq
          rw [hgen]
          exact hhop

/-- However the network behaves, one datagram leads to a bounded number
of others, each of which is a copy of it that at most three routers
forwarded. -/
theorem flooding_terminates {host : Sockaddr → Option N}
    {s t : Network N F} {dst : Sockaddr} (hd : d.length < MSG_MAX)
    (hflight : s.flight = [⟨dst, d, []⟩]) (hsent : s.sent = 0)
    (hdone : s.done = 0)
    (hrun : Relation.ReflTransGen (Step host) s t) :
    t.sent ≤ F + F ^ 2 + F ^ 3
      ∧ t.done + t.flight.length = 1 + t.sent
      ∧ ∀ p ∈ t.flight, p.path.length ≤ MAX_HOPS.toNat - 1
          ∧ CopyOf d p.payload := by
  have hinv : Spreads d t := by
    induction hrun with
    | refl =>
        refine ⟨?_, fun p hp => ?_⟩
        · rw [Network.pool, hflight, hsent, hdone]
          exact .init rfl
        · rw [hflight, List.mem_singleton] at hp
          subst hp
          exact .zero d
    | tail _ hstep ih => exact ih.step hd hstep
  refine ⟨?_, hinv.pool.count, fun p hp => ⟨hinv.pool.depth p hp, ?_⟩⟩
  · have := hinv.pool.made_le
    simp only [budget, Network.pool] at this
    calc t.sent ≤ F * (1 + F * (1 + F * (1 + 0))) := this
      _ = F + F ^ 2 + F ^ 3 := by ring
  · exact (hinv.copies p hp).toSame.copyOf hd

-- ============================================================== an example

/-- The destinations are the routers and the clients. -/
private theorem fanout_of_holds {st : RouterState} {as : List Ptr}
    {routers clients : List Sockaddr}
    (hr : Holds st.routers .routers as routers)
    (hc : members st.clientTable = some clients) :
    Fanout (routers.length + clients.length) st := by
  intro mi sent h
  rw [floodMessage_spec hr hc, Option.some.injEq] at h
  rw [← h, List.length_map, List.length_append]
  exact Nat.add_le_add_right (List.length_filter_le _ _) _

/-- A router that knows two others. -/
def hub : RouterState :=
  { RouterState.boot with
    routers := (addEntries boot .routers [host6 1, host6 2]).getD boot }

private theorem hub_fanout : Fanout 2 hub := by
  obtain ⟨m, as, hm, h, -⟩ := addEntries_spec (by simp)
    [host6 1, host6 2] boot_holds
  have hr : Holds hub.routers .routers as [host6 1, host6 2] := by
    rw [hub, hm]
    exact h
  have hc : members hub.clientTable = some [] := rfl
  exact fanout_of_holds hr hc

/-- A broadcast reaches the hub, which sends it on to both. -/
theorem flooding_terminates_hub :
    ∃ (s t : Network Unit 2),
      Relation.ReflTransGen (Step fun _ => some ()) s t ∧ t.sent = 2
        ∧ t.sent ≤ 2 + 2 ^ 2 + 2 ^ 3
        ∧ t.done + t.flight.length = 1 + t.sent
        ∧ ∀ p ∈ t.flight, p.path.length ≤ MAX_HOPS.toNat - 1
          ∧ CopyOf (broadcastText "a") p.payload := by
  let old : MsgInfo := ⟨0, Sockaddr.zero, List.replicate MSG_MAX 0⟩
  have hsent : (handleMessage hub
      (udpReceive old (host6 9) (broadcastText "a"))).map
        (fun r => (r.2.getD []).length) = some 2 := by decide +kernel
  obtain ⟨⟨st, sends⟩, hhandled, hlen⟩ := Option.map_eq_some_iff.mp hsent
  cases sends with
  | none => cases hlen
  | some sends =>
      obtain ⟨-, -, -, -, hrouters, hclients⟩ := handleMessage_flood hhandled
      obtain ⟨p, id, -, hpayload⟩ :=
        flooded_payload List.length_replicate (by decide) hhandled
      obtain ⟨packets, hemit⟩ := emit_total [()] fun s hs =>
        ⟨_, hpayload s hs⟩
      have hst : ∀ m : Unit,
          Fanout 2 (Function.update (fun _ => hub) () st m) := by
        intro m
        rw [Function.update_self, Fanout, hrouters, hclients]
        exact hub_fanout
      have hstep := @Step.deliver _ _ _ (fun _ => some ()) _
        (fun _ => hub_fanout) [] [] 0 0 ⟨host6 3, broadcastText "a", []⟩ _ _
        _ _ _ _ rfl
        List.length_replicate hhandled hemit hst
      have hrun := Relation.ReflTransGen.single hstep
      refine ⟨_, _, hrun, (Nat.zero_add _).trans hlen, ?_⟩
      exact flooding_terminates (by decide) rfl rfl rfl hrun

end Psnet.Router
