/-
The threads of a router, step by step.

A thread that handles a broadcast holds the lock of the message cache in
`cache_msg` and `routers_lock` in `flood_message`, and none in between:
other threads run between the two. So the handlers come in two steps
here. `accept_*` is a handler up to its call of `flood_message`, which
gives the message it is to be called with; the flood is a step of its
own. Run at once the two are the handler (`handleMessage_accept`,
`handleRequest_accept`).

# What a step may see

Between the two steps of a handler the router list, the client table and
the cache may change; the message may not, since a worker's `msg_info` is
its own. So `accept_*` returns the message and the state, and the flood
takes the message and the state of its own moment.
-/
import Psnet.Router.Broadcast
import Psnet.Router.Connection
import Psnet.Router.Listing
import Psnet.Router.Update
import Psnet.Tracker.Registry

namespace Psnet.Router

open Net Jsmn Parse Forest DeltaList Client Server

-- ================================================================= the handlers

/-- `process_broadcast` up to `flood_message`: the tables, and the message
to be flooded. -/
def acceptBroadcast (st : RouterState) (mi : MsgInfo)
    (tok : List JsmnTok) : Option (RouterState × Option MsgInfo) := do
  let (rc, is) ← jsmnGetValues mi.msg tok [ascii "hops", ascii "id"]
  if rc = -1 then return (st, none)
  else do
    let hops ← is[0]? >>= tokenAt tok
    let id ← is[1]? >>= tokenAt tok
    let v ← charAt mi.msg hops.start
    if !hopsOk v then return (st, none)
    else do
      let msg ← setChar mi.msg hops.start (v + 1)
      let mi := { mi with msg := msg }
      let msgid ← jsmnTokdup msg id
      let (cached, msgCache) ← cacheMsg st.msgCache msgid
      let st := { st with msgCache := msgCache }
      if cached ≠ 0 then return (st, none)
      else return (st, some mi)

/-- `handle_message` up to `flood_message`. -/
def acceptMessage (st : RouterState) (mi : MsgInfo) :
    Option (RouterState × Option MsgInfo) := do
  let (method, tok, _) ← parseMessage mi.msg zeroTokens JSMN_NTOK
  if method = -1 then return (st, none)
  else do
    let t ← tokenAt tok method
    match ← cmdEqual mi.msg t udpCommands with
    | none => return (st, none)
    | some .connect => do
        let st ← processConnect st mi tok
        return (st, none)
    | some .broadcast => acceptBroadcast st mi tok

/-- The loop body of `handle_connection` up to `flood_message`. -/
def acceptRequest (inet : Inet) (st : RouterState) (c : Conn) :
    Option (RouterState × Option MsgInfo) := do
  let (method, tok, _) ← parseMessage c.mi.msg c.tok c.ntok
  if method = -1 then return (st, none)
  else do
    let t ← tokenAt tok method
    match ← cmdEqual c.mi.msg t commands with
    | none => return (st, none)
    | some .broadcast => acceptBroadcast st c.mi tok
    | some m => do
        let (st, _) ← process inet st c.mi tok m
        return (st, none)

/-- What a message asks of a router, with the arguments of the calls it
leads to. -/
inductive Call
  | nothing
  | subscribe (client : Sockaddr)
  | publish (mi : MsgInfo) (id : Text)

def connectCall (mi : MsgInfo) (kids : Forest Lab) : Call :=
  match findPair mi.msg (ascii "port") kids with
  | none => .nothing
  | some p =>
      match makeClient mi.addr (valText mi.msg p.val) with
      | none => .nothing
      | some client => .subscribe client

def broadcastCall (mi : MsgInfo) (kids : Forest Lab) : Call :=
  match eligible mi.msg kids with
  | none => .nothing
  | some (p, id) => .publish { mi with msg := bump mi.msg p } id

/-- The call of a datagram. -/
def messageCall (mi : MsgInfo) : Call :=
  match request udpCommands mi.msg JSMN_NTOK with
  | none => .nothing
  | some q =>
      match q.method with
      | .connect => connectCall mi q.kids
      | .broadcast => broadcastCall mi q.kids

/-- The call of a message over TCP. -/
def requestCall (c : Conn) : Call :=
  match request commands c.mi.msg c.ntok with
  | none => .nothing
  | some q =>
      if q.method = .broadcast then broadcastCall c.mi q.kids else .nothing

section

variable {st : RouterState} {mi : MsgInfo} {a : Lab} {kids rest : Forest Lab}
  {num : Nat}

end

-- ================================================================== the steps

/-- A datagram: the memory it is received in, where it comes from, and
what it says. -/
structure Arrival where
  old : MsgInfo
  sender : Sockaddr
  bytes : List UInt8
  size : old.msg.length = MSG_MAX
  inet : sender.IsInet

/-- What the server makes of it. -/
def Arrival.mi (d : Arrival) : MsgInfo :=
  udpReceive d.old d.sender d.bytes

/-- The bytes `recvfrom` leaves out of the address are the sender's, by
chance, or are not part of it. -/
def Arrival.Whole (d : Arrival) : Prop :=
  d.sender.ssFamily = AF_INET
    ∨ ∀ i : Fin 16, 8 ≤ i.val →
      d.old.addr.sin6Addr.get i = d.sender.sin6Addr.get i

/-- A message read over TCP, on a connection in any state. It is not
blank: what a blank one leads to is up to the tokens that earlier messages
have left. -/
structure Asked where
  c : Conn
  room : c.ntok ≤ c.tok.length
  filled : ¬ Layout (cstr c.mi.msg)

/-- A step of one of the threads. Every step starts a thread if it is a
message; `flood` is that of thread `n`. -/
inductive Act
  | datagram (d : Arrival)
  | request (q : Asked)
  | flood (n : Nat)
  | clientTick
  | cacheTick
  | answer (ans : Answer)

/-- The router, the start of its update thread's loop, the messages
accepted whose threads have yet to flood them, and the number of steps
so far. -/
structure Threads where
  state : RouterState
  starting : Bool
  waiting : Nat → Option MsgInfo
  started : Nat

/-- The router after its start. -/
def Threads.boot : Threads := ⟨.boot, true, fun _ => none, 0⟩

/-- A handler has come to its call of `flood_message`, or to its end. -/
def Threads.accept (s : Threads) (r : RouterState × Option MsgInfo) :
    Threads where
  state := r.1
  starting := s.starting
  waiting := match r.2 with
    | none => s.waiting
    | some mi => Function.update s.waiting s.started (some mi)
  started := s.started + 1

/-- The datagram a call of `udp_send` puts on the wire, and to whom. -/
def UdpSend.delivery (s : UdpSend) : Tracker.Peer × Option (List UInt8) :=
  (Tracker.peerOf s.addr, s.payload)

/-- A step, and the datagrams sent. -/
def Threads.step (inet : Inet) (s : Threads) : Act →
    Option (Threads × List (Tracker.Peer × Option (List UInt8)))
  | .datagram d => do
      let r ← acceptMessage s.state d.mi
      return (s.accept r, [])
  | .request q => do
      let r ← acceptRequest inet s.state q.c
      return (s.accept r, [])
  | .flood n =>
      match s.waiting n with
      | none => some ({ s with started := s.started + 1 }, [])
      | some mi => do
          let sent ← floodMessage s.state.routers s.state.clientTable mi
          return ({ s with
            waiting := Function.update s.waiting n none
            started := s.started + 1 }, sent.map UdpSend.delivery)
  | .clientTick => do
      let (t, _) ← deltaTick clientConf s.state.clientTable
      return (s.accept ({ s.state with clientTable := t }, none), [])
  | .cacheTick => do
      let (t, _) ← deltaTick cacheConf s.state.msgCache
      return (s.accept ({ s.state with msgCache := t }, none), [])
  | .answer ans => do
      let u ← updateStep inet ⟨s.state.routers, s.starting⟩ ans
      return ({ s with
        state := { s.state with routers := u.mem }
        starting := u.starting
        started := s.started + 1 }, [])

end Psnet.Router
