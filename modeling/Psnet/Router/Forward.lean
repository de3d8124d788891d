/-
What a forwarded message is, on the two ways a broadcast may arrive.

`flood_message` sends `len` bytes of the buffer. Over UDP `len` is what
`recvfrom` stored, so the datagrams are the message with its hops
character bumped. Over TCP nobody writes `len`: it is whatever the
memory of the connection's `msg_info` held before.

# The two ways

Over UDP and over TCP the request is dispatched by the same function, so
what is flooded is `processBroadcast_pass` on either. The difference is in
the `msg_info` it is called with: `forwarding_fidelity` has one disjunct
for each way, and the second asks for `len` what nothing provides.
-/
import Psnet.Router.Connection
import Psnet.Router.Network

namespace Psnet.Router

open Net Jsmn Parse Forest DeltaList Client Server

/-- How a message arrives. -/
inductive Path
  | udp
  | tcp
  deriving DecidableEq

/-- The router floods a message of which the bytes `m` arrived in the
fresh memory of `old`: it makes the calls `sent`. -/
inductive Floods (inet : Inet) (old : MsgInfo) (m : List UInt8)
    (sent : List UdpSend) : Path → Prop
  | udp {d : List UInt8} {sender : Sockaddr} {st st' : RouterState}
      (bytes : m = recvBytes d)
      (handled : handleMessage st (udpReceive old sender d)
        = some (st', some sent)) : Floods inet old m sent .udp
  | tcp {peer : Sockaddr} {c c' : Conn} {s buf rest : List UInt8} {n : Nat}
      {st st' : RouterState} {r : Server.Reply Method}
      (serves : (service inet).Serves old peer c)
      (read : tcpReadMsg s c.mi.msg = (n, buf, rest)) (pos : 0 < n)
      (bytes : m = s.take n)
      (handled : (service inet).handleRequest st (c.read buf)
        = some (st', c', r))
      (flood : r.flood = some sent) : Floods inet old m sent .tcp

/-- The datagram is the message with the first character of its hops
token increased. -/
def Forwards (m : List UInt8) (s : UdpSend) : Prop :=
  ∃ p id, passable m = some (p, id) ∧ s.payload = some (bump m p)

-- ========================================================== the two dispatchers

/-- Both dispatchers read the same messages as broadcasts. -/
private theorem command_broadcast {msg : List UInt8} {v : Lab} :
    command msg v udpCommands = some .broadcast
      ↔ command msg v commands = some .broadcast := by
  have hconnect : valEq msg v (ascii "broadcast") = true →
      valEq msg v (ascii "connect") = false := by
    intro h
    simp only [valEq, Bool.and_eq_true, decide_eq_true_eq] at h
    simp only [valEq, Bool.and_eq_false_imp, decide_eq_true_eq]
    intro hlen
    have : (ascii "broadcast").length = (ascii "connect").length := by
      omega
    exact absurd this (by decide)
  cases hb : valEq msg v (ascii "broadcast") with
  | true =>
      simp [command, udpCommands, commands, hb, hconnect hb]
  | false =>
      simp only [command, udpCommands, commands, List.find?_cons, hb,
        List.find?_nil]
      constructor
      · intro h
        cases hc : valEq msg v (ascii "connect") <;> simp [hc] at h
      · intro h
        repeat' split at h
        all_goals simp at h

/-- A message whose text is a broadcast is dispatched as one, when its
tokens fit. -/
private theorem passable_request {msg : List UInt8} {p : Nat} {id : Text}
    (h : passable msg = some (p, id)) (n : Nat) :
    (∃ q, request commands msg n = some q ∧ q.method = .broadcast
        ∧ eligible msg q.kids = some (p, id))
      ∨ ∃ e, zipParse msg n = .error e := by
  obtain ⟨q, hq, hm, he⟩ := passable_some h
  obtain ⟨hz, ha, k, hk, hcmd⟩ := request_some hq
  have hless := zipParse_less n hz
  split at hless
  · refine Or.inl ⟨⟨.broadcast, q.obj, q.kids, q.rest⟩, ?_, rfl, he⟩
    rw [hm] at hcmd
    simp only [request, hless, ha, ↓reduceIte, hk, bind, Option.bind_some,
      command_broadcast.mp hcmd]
    rfl
  · exact Or.inr hless

/-- The broadcast handler floods the message with the hops character of
its own text bumped. -/
theorem handleRequest_flood {inet : Inet} {st st' : RouterState}
    {c c' : Conn} {r : Server.Reply Method} {sent : List UdpSend} {p : Nat} {id : Text}
    (hn : c.ntok ≤ c.tok.length)
    (hpass : passable c.mi.msg = some (p, id))
    (h : (service inet).handleRequest st c = some (st', c', r))
    (hsent : r.flood = some sent) :
    floodMessage st.routers st.clientTable
      { c.mi with msg := bump c.mi.msg p } = some sent := by
  rcases passable_request hpass c.ntok with ⟨q, hq, hm, he⟩ | ⟨e, he⟩
  · obtain ⟨_, tok, n, hr⟩ := handleRequest_request (service inet) st hn hq
    have hgood := zipParse_good (request_some hq).1
    rw [hr, hm, Option.map_eq_some_iff] at h
    obtain ⟨⟨st₁, mi₁, wire, sent₁⟩, hproc, heq⟩ := h
    cases heq
    cases hsent
    simp only [service, process, processBroadcast_spec hgood.2.2.1 hgood.1.2.1, he,
      bind, Option.bind_eq_some_iff] at hproc
    obtain ⟨⟨st₂, mi₂, sent₂⟩, hpo, hproc⟩ := hproc
    cases hproc
    simp only [passOn, bind, Option.bind_eq_some_iff] at hpo
    obtain ⟨⟨cached, t'⟩, -, hpo⟩ := hpo
    split at hpo
    · cases hpo
    · obtain ⟨sent₃, hflood, hpo⟩ := Option.bind_eq_some_iff.mp hpo
      cases hpo
      exact hflood
  · rw [handleRequest_refused (parseMessage_error hn he)] at h
    cases h
    cases hsent

-- =================================================================== the bytes

/-- The bytes that leave a buffer `m` was stored in. -/
theorem payload_iff {s : UdpSend} {buf m : List UInt8} {p : Nat}
    (hm : m.length ≤ buf.length) (hp : p < m.length)
    (hmsg : s.msg = bump (store buf m) p) :
    s.payload = some (bump m p) ↔ s.len = m.length := by
  have hbump : bump (store buf m) p = store buf (bump m p) := by
    rw [bump, byteAt_store hp, set_store hp]
    rfl
  have hsize : (store buf (bump m p)).length = buf.length :=
    length_store (by rwa [length_bump])
  rw [UdpSend.payload, hmsg, hbump, hsize]
  constructor
  · intro h
    split at h
    · next hle =>
      rw [Option.some.injEq] at h
      have := congrArg List.length h
      rw [List.length_take, hsize, length_bump] at this
      omega
    · cases h
  · intro h
    rw [h, if_pos hm]
    conv_lhs => rw [← length_bump m p]
    rw [take_store]

/-- A datagram sent for a message is that message with its hops
character bumped exactly when the message has the tokens it is read by
and, over TCP, the uninitialised `len` happens to be its length. -/
theorem forwarding_fidelity {inet : Inet} {old : MsgInfo}
    {m : List UInt8} {sent : List UdpSend} {path : Path}
    (hold : old.msg.length = MSG_MAX) (h : Floods inet old m sent path)
    {s : UdpSend} (hs : s ∈ sent) :
    Forwards m s
      ↔ (∃ e, passable m = some e) ∧ (path = .udp ∨ old.len = m.length) := by
  -- on either path the buffer holds `m`, and `flood_message` is called
  -- on it with the hops character bumped
  have key : ∀ (mi : MsgInfo) (st : RouterState), m.length ≤ MSG_MAX →
      mi.msg.length = MSG_MAX →
      (∀ p id, passable m = some (p, id) →
        floodMessage st.routers st.clientTable
          { mi with msg := bump (store mi.msg m) p } = some sent) →
      (Forwards m s ↔ (∃ e, passable m = some e) ∧ mi.len = m.length) := by
    intro mi st hm hmi hflood
    have hiff : ∀ p id, passable m = some (p, id) →
        (s.payload = some (bump m p) ↔ mi.len = m.length) := by
      intro p id hpass
      obtain ⟨hlen, hmsg⟩ := floodMessage_sends (hflood p id hpass) s hs
      rw [payload_iff (hmi ▸ hm) (Nat.lt_of_lt_of_le (passable_lt hpass).1
        (cstr_length_le m)) hmsg, hlen]
    constructor
    · intro h
      obtain ⟨p, id, hpass, hpay⟩ := h
      exact ⟨⟨_, hpass⟩, (hiff p id hpass).mp hpay⟩
    · intro h
      obtain ⟨⟨⟨p, id⟩, hpass⟩, hlen⟩ := h
      exact ⟨p, id, hpass, (hiff p id hpass).mpr hlen⟩
  cases h with
  | @udp d sender st st' bytes handled =>
      obtain ⟨p, id, hpass, hflood, -⟩ := handleMessage_flood handled
      have hm : m.length ≤ MSG_MAX :=
        bytes ▸ Nat.le_trans (recvBytes_length d) (by decide)
      have hread : passable (udpReceive old sender d).msg = passable m := by
        rw [bytes]
        exact passable_congr (cstr_store old.msg _)
      have hudp := key ⟨m.length, recvAddr old.addr sender, old.msg⟩ st
        hm hold
        fun p' id' hp' => by
          rw [hread, hp'] at hpass
          cases hpass
          rw [← hflood, bytes]
          rfl
      rw [hudp]
      simp
  | @tcp peer c c' s' buf rest n st st' r serves read pos bytes handled flood =>
      obtain ⟨⟨hlen, -, hsize⟩, htok, hroom⟩ := serves.isOpen
        (service_lawful inet)
      obtain ⟨h₁, h₂, h₃⟩ := tcpReadMsg_pos read pos
      have hmi : c.mi.msg.length = MSG_MAX := hsize.trans hold
      rw [← bytes] at h₁ h₃
      have htcp := key c.mi st (by omega) hmi
        fun p id hp => by
          have hread : passable (c.read buf).mi.msg = some (p, id) := by
            rw [← hp, Conn.read, h₃]
            exact passable_congr (cstr_store _ _)
          rw [← h₃]
          exact handleRequest_flood (c := c.read buf) (htok ▸ hroom) hread
            handled flood
      rw [htcp]
      have hlen : c.mi.len = old.len := hlen
      simp [hlen]

-- ============================================================== two examples

/-- A translation that knows no address; none is printed here. -/
def noInet : Inet where
  ntop4 _ := []
  ntop6 _ := []
  pton4 _ := none
  pton6 _ := none

/-- A `msg_info` in zero-filled memory. -/
def zeroInfo : MsgInfo := ⟨0, Sockaddr.zero, List.replicate MSG_MAX 0⟩

/-- Over UDP the hub sends the message on in full. -/
theorem forwarding_fidelity_udp :
    ∃ sent s, Floods noInet zeroInfo (broadcastText "a") sent .udp
      ∧ s ∈ sent ∧ Forwards (broadcastText "a") s := by
  have hsent : (handleMessage hub
      (udpReceive zeroInfo (host6 9) (broadcastText "a"))).map
        (fun r => (r.2.getD []).length) = some 2 := by decide +kernel
  obtain ⟨⟨st, sends⟩, hhandled, hlen⟩ := Option.map_eq_some_iff.mp hsent
  cases sends with
  | none => cases hlen
  | some sends =>
      obtain ⟨s, hs⟩ : ∃ s, s ∈ sends :=
        List.exists_mem_of_length_pos (by rw [show sends.length = 2 from hlen]
                                          decide)
      have hfloods : Floods noInet zeroInfo (broadcastText "a") sends .udp :=
        .udp (by decide) hhandled
      have hpass : ∃ e, passable (broadcastText "a") = some e :=
        Option.isSome_iff_exists.mp (by decide +kernel)
      exact ⟨sends, s, hfloods, hs,
        (forwarding_fidelity List.length_replicate hfloods hs).mpr
          ⟨hpass, Or.inl rfl⟩⟩

/-- Over TCP, in the same memory, it sends nothing but empty
datagrams. -/
theorem tcp_flood_is_empty :
    ∃ sent s, Floods noInet zeroInfo (broadcastText "a" ++ delim) sent .tcp
      ∧ s ∈ sent ∧ s.payload = some []
      ∧ ¬ Forwards (broadcastText "a" ++ delim) s := by
  let text := broadcastText "a" ++ delim
  let c : Conn := .fresh zeroInfo (host6 9) zeroTokens
  have hserves : (service noInet).Serves zeroInfo (host6 9) c :=
    .accept _ List.length_replicate
  have hread : tcpReadMsg text c.mi.msg
      = (text.length, store c.mi.msg text, []) := by decide +kernel
  have hflood : ((service noInet).handleRequest hub
      (c.read (store c.mi.msg text))).map
        (fun r => (r.2.2.flood.getD []).map UdpSend.payload)
      = some [some [], some []] := by decide +kernel
  obtain ⟨⟨st, c', r⟩, hhandled, hpay⟩ := Option.map_eq_some_iff.mp hflood
  cases hsent : r.flood with
  | none => simp [hsent] at hpay
  | some sent =>
      simp only [hsent, Option.getD_some] at hpay
      cases sent with
      | nil => cases hpay
      | cons s sent =>
          have hs : s.payload = some [] := (List.cons.inj hpay).1
          refine ⟨s :: sent, s, ?_, List.mem_cons_self .., hs, ?_⟩
          · exact .tcp hserves hread (by decide) (List.take_length).symm
              hhandled hsent
          · intro h
            obtain ⟨p, id, -, hfull⟩ := h
            rw [hs, Option.some.injEq] at hfull
            have := congrArg List.length hfull
            rw [length_bump] at this
            revert this
            decide

end Psnet.Router
