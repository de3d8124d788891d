/-
The threads of a router, with the locks they take.

# The programs

To the locks both daemons have come `routers_lock` and that of the message
cache. The functions of the source are written again here as programs that
lock and unlock. Run by itself a program is the function it stands for
(`exec_code`), so nothing but the locks is added.

# What they come to

Only `flood_message` holds two locks, and it takes `routers_lock` first;
the update thread holds that lock while it waits for the tracker. No data
is touched without its lock, but for `num_threads` in `udp_server_init`; no
threads wait for each other in a circle; and what is done under the locks
is done as if at once (`threads_locked`). That is what the steps of
`Threads` rest on.
-/
import Psnet.Router.Threads
import Psnet.Server.Buffers
import Psnet.Server.Locked

namespace Psnet.Router.Locked

open Net Linked Jsmn Parse DeltaList Client Server Locks Router

open Server.Locked (leave admission tcpServerMain udpServerMain)

-- ====================================================================== the locks

/-- `routers_lock`, and the lock of the message cache. -/
inductive Own
  | routers
  | cache
  deriving DecidableEq, Repr

abbrev Lock := Server.Locked.Lock Own

/-- The order in which locks are taken. -/
def rank : Lock → Nat
  | .own .routers => 0
  | .clients => 1
  | .own .cache => 2
  | .threads => 3

/-- What they guard: the list at `routers`, and a delta list. -/
abbrev Owned : Own → Type
  | .routers => Mem
  | .cache => Table Text

abbrev Guards := Server.Locked.Guards Owned

/-- What a thread sends. -/
inductive Out
  | udp (s : UdpSend)
  | tcp (wire : Text)
  deriving DecidableEq

abbrev Code (α : Type) := Prog Guards Out α

/-- All that is guarded. -/
def guarded (st : RouterState) (n : Int) : (l : Lock) → Guards l
  | .own .routers => st.routers
  | .clients => st.clientTable
  | .own .cache => st.msgCache
  | .threads => n

-- ================================================================== the functions

/-- `cache_msg`. -/
def cacheMsg (id : Text) : Code Int :=
  .locked (.own .cache) fun t => Router.cacheMsg t id

/-- `flood_message`. -/
def floodMessage (mi : MsgInfo) : Code Unit :=
  .lock (.own .routers) <|
  .act (.own .routers) (fun m => do
    let its ← listForEach m .routers
    let sent ← floodLoop m mi its []
    return (sent, m)) fun sent => do
  .sendAll (sent.map .udp)
  .lock .clients <|
    .act .clients (fun t => do
      let sent ← floodToClients t mi []
      return (sent, t)) fun sent => do
    .sendAll (sent.map .udp)
    .unlock .clients <| .unlock (.own .routers) <| .done ()

/-- `process_connect`. -/
def processConnect (mi : MsgInfo) (tok : List JsmnTok) : Code Unit := do
  let port ← Prog.lift (jsmnGetValue mi.msg tok (ascii "port"))
  if port = -1 then return
  else do
    let t ← Prog.lift (tokenAt tok port)
    let msg ← Prog.lift (setChar mi.msg t.stop 0)
    let s ← Prog.lift (stringAt msg t.start)
    let _ ← Server.Locked.addClient mi.addr s

/-- `process_broadcast`: the message as it is left. -/
def processBroadcast (mi : MsgInfo) (tok : List JsmnTok) :
    Code MsgInfo := do
  let (rc, is) ← Prog.lift (jsmnGetValues mi.msg tok [ascii "hops", ascii "id"])
  if rc = -1 then return mi
  else do
    let hops ← Prog.lift (is[0]? >>= tokenAt tok)
    let id ← Prog.lift (is[1]? >>= tokenAt tok)
    let v ← Prog.lift (charAt mi.msg hops.start)
    if !hopsOk v then return mi
    else do
      let msg ← Prog.lift (setChar mi.msg hops.start (v + 1))
      let mi := { mi with msg := msg }
      let msgid ← Prog.lift (jsmnTokdup msg id)
      let cached ← cacheMsg msgid
      if cached ≠ 0 then return mi
      else do
        floodMessage mi
        return mi

/-- `process_info`. -/
def processInfo : Code Text := do
  let clients ← Prog.locked .clients fun t => some (deltaSize t, t)
  let cacheLoad ← Prog.locked (.own .cache) fun t => some (deltaSize t, t)
  let rsp := routerInfo clients cacheLoad
  return okHeader rsp.length ++ rsp

/-- `process_discover`. -/
def processDiscover (inet : Inet) (mi : MsgInfo) (tok : List JsmnTok) :
    Code Text := do
  let num ← Prog.lift (jsmnGetValue mi.msg tok (ascii "num"))
  if num = -1 then return nodeError .noNum
  else do
    let t ← Prog.lift (tokenAt tok num)
    let s ← Prog.lift (stringAt mi.msg t.start)
    if atoi s = 0 then return nodeError .badNum
    else do
      let jlist ← Prog.locked (.own .routers) fun m => do
        let jlist ← routersToJson inet m []
        return (jlist, m)
      return sendResponse (makeResponseWithBody jlist)

/-- The handler of a method: the message as it is left, and the bytes
sent back. -/
def process (inet : Inet) (mi : MsgInfo) (tok : List JsmnTok) :
    Method → Code (MsgInfo × Text)
  | .broadcast => do
      let mi ← processBroadcast mi tok
      return (mi, [])
  | .ip => return (mi, processIp inet mi)
  | .info => do
      let wire ← processInfo
      return (mi, wire)
  | .ping => return (mi, sendOk)
  | .discover => do
      let wire ← processDiscover inet mi tok
      return (mi, wire)

/-- The loop body of `handle_connection`. -/
def handleRequest (inet : Inet) : Conn → Code (Conn × Text × Bool) :=
  Server.Locked.handleRequest (service inet) (process inet)

/-- `handle_connection`. -/
def handleConnection (inet : Inet) : Conn → List (List UInt8) → Code Unit :=
  Server.Locked.handleConnection (handleRequest inet) .tcp leave

/-- `handle_message` up to the end of the worker. -/
def dispatchMessage (mi : MsgInfo) : Code Unit :=
  Server.Locked.dispatchMessage udpCommands (fun tok m => match m with
    | .connect => processConnect mi tok
    | .broadcast => do
        let _ ← processBroadcast mi tok) mi

/-- `handle_message`. -/
def handleMessage (mi : MsgInfo) : Code Unit := do
  dispatchMessage mi
  leave

/-- `clock_thread` of the message cache, for so many ticks. -/
def cacheClock : Nat → Code Unit :=
  .again (.own .cache) fun t => (deltaTick cacheConf t).map Prod.fst

/-- `router_update_thread`, for so many attempts. -/
def routerUpdateThread (inet : Inet) : Bool → List Answer → Code Unit
  | _, [] => return
  | starting, ans :: answers => do
      let starting ← Prog.locked (.own .routers) fun m =>
        (updateStep inet ⟨m, starting⟩ ans).map fun u =>
          (u.starting, u.mem)
      routerUpdateThread inet starting answers

/-- What a thread is for. -/
inductive Role
  | message (mi : MsgInfo)
  | connection (c : Conn) (reads : List (List UInt8))
  | clientClock (ticks : Nat)
  | cacheClock (ticks : Nat)
  | update (answers : List Answer)
  | tcpServer (maxThreads : Int) (arrivals : Nat)
  | udpServer (maxThreads : Int) (arrivals : Nat)

def Role.code (inet : Inet) : Role → Code Unit
  | .message mi => handleMessage mi
  | .connection c reads => handleConnection inet c reads
  | .clientClock ticks => Server.Locked.clientClock ticks
  | .cacheClock ticks => Locked.cacheClock ticks
  | .update answers => routerUpdateThread inet true answers
  | .tcpServer maxThreads arrivals => tcpServerMain maxThreads arrivals
  | .udpServer maxThreads arrivals => udpServerMain maxThreads arrivals

/-- What a thread works on before it has taken a lock. -/
def Role.early : Role → Option Lock
  | .udpServer .. => some .threads
  | _ => none

/-- The datagrams of a flood, if there was one. -/
def floodOut (sent : Option (List UdpSend)) : List Out :=
  (sent.getD []).map .udp

/-- What a reply over TCP sends. -/
def replyOut (r : Server.Reply Method) : List Out :=
  floodOut r.flood ++ [.tcp r.wire]

/-- What a thread makes of the router and of the count where no other
works, and what it sends: the handlers, ticks, updates and admissions of
the model, without locks. -/
def Role.alone (inet : Inet) (st : RouterState) (n : Int) :
    Role → Option (RouterState × Int × List Out)
  | .message mi =>
      (Router.handleMessage st mi).map fun r =>
        (r.1, n - 1, floodOut r.2)
  | .connection c reads =>
      ((service inet).serve replyOut st c reads).map fun r =>
        (r.1, n - 1, r.2)
  | .clientClock ticks =>
      ((Option.bind · fun t => (deltaTick clientConf t).map Prod.fst)^[ticks]
        (some st.clientTable)).map fun t =>
          ({ st with clientTable := t }, n, [])
  | .cacheClock ticks =>
      ((Option.bind · fun t => (deltaTick cacheConf t).map Prod.fst)^[ticks]
        (some st.msgCache)).map fun t => ({ st with msgCache := t }, n, [])
  | .update answers =>
      (answers.foldlM (updateStep inet) ⟨st.routers, true⟩).map fun u =>
        ({ st with routers := u.mem }, n, [])
  | .tcpServer maxThreads arrivals =>
      some (st, (admission maxThreads)^[arrivals] n, [])
  | .udpServer maxThreads arrivals =>
      some (st, (admission maxThreads)^[arrivals] 0, [])

-- ================================================================= one at a time

variable {st : RouterState} {n : Int}

@[simp] theorem guarded_routers :
    guarded st n (.own .routers) = st.routers := rfl

@[simp] theorem guarded_clients : guarded st n .clients = st.clientTable :=
  rfl

@[simp] theorem guarded_cache :
    guarded st n (.own .cache) = st.msgCache := rfl

/-- What is written under the routers' lock is the router list. -/
@[simp] theorem update_routers (m : Mem) :
    Function.update (guarded st n) (.own .routers) m
      = guarded { st with routers := m } n := by
  funext l
  rcases l with _ | _ | (_ | _) <;> rfl

/-- What is written under the clients' lock is the client table. -/
@[simp] theorem update_clients (t : Table Sockaddr) :
    Function.update (guarded st n) .clients t
      = guarded { st with clientTable := t } n := by
  funext l
  rcases l with _ | _ | (_ | _) <;> rfl

/-- What is written under the cache's lock is the message cache. -/
@[simp] theorem update_cache (t : Table Text) :
    Function.update (guarded st n) (.own .cache) t
      = guarded { st with msgCache := t } n := by
  funext l
  rcases l with _ | _ | (_ | _) <;> rfl

/-- The loop over the clients sends on top of what was sent. -/
private theorem foreachLoop_append
    {h : Heap DeltaList.Addr (DeltaNode Sockaddr)}
    (mi : MsgInfo) (sent : List UdpSend) :
    ∀ (k : Nat) (a : Option DeltaList.Addr) (out : List UdpSend),
      foreachLoop h (fwdToClient mi) k a (sent ++ out)
        = (foreachLoop h (fwdToClient mi) k a out).map (sent ++ ·)
  | 0, _, _ => rfl
  | _ + 1, none, _ => rfl
  | k + 1, some a, out => by
      unfold foreachLoop
      cases h a with
      | none => rfl
      | some node =>
          simp only [fwdToClient, List.append_assoc]
          exact foreachLoop_append mi sent k node.dlNext _

/-- Run alone, `flood_message` sends what the model sends. -/
private theorem exec_floodMessage (mi : MsgInfo) :
    (floodMessage mi).exec (guarded st n)
      = (Router.floodMessage st.routers st.clientTable mi).map fun sent =>
          ((), guarded st n, sent.map .udp) := by
  unfold floodMessage Router.floodMessage
  simp only [Prog.exec, Option.bind_eq_bind, Option.bind_assoc]
  show (listForEach st.routers .routers).bind _ = _
  cases listForEach st.routers .routers with
  | none => rfl
  | some its =>
      simp only [Option.bind_some]
      show (floodLoop st.routers mi its []).bind _ = _
      cases floodLoop st.routers mi its [] with
      | none => rfl
      | some sent =>
          have happ := foreachLoop_append (h := st.clientTable.heap) mi sent
            (st.clientTable.brk + 1) st.clientTable.deltaHead []
          rw [List.append_nil] at happ
          simp only [Option.pure_def, Option.bind_some, update_routers,
            guarded_routers, guarded_clients, Prog.exec_sendAll, Prog.exec,
            floodToClients, deltaForeach, happ]
          cases foreachLoop st.clientTable.heap (fwdToClient mi)
              (st.clientTable.brk + 1) st.clientTable.deltaHead [] with
          | none => rfl
          | some out => simp

/-- Run alone, `process_broadcast` answers, forwards and remembers as the
model does. -/
private theorem exec_processBroadcast (mi : MsgInfo) (tok : List JsmnTok) :
    (processBroadcast mi tok).exec (guarded st n)
      = (Router.processBroadcast st mi tok).map fun r =>
          (r.2.1, guarded r.1 n, floodOut r.2.2) := by
  unfold processBroadcast Router.processBroadcast
  rw [Prog.exec_lift]
  apply Machine.bind_step
  intro r
  dsimp only
  split
  · rfl
  rw [Prog.exec_lift]
  apply Machine.bind_step
  intro hops
  rw [Prog.exec_lift]
  apply Machine.bind_step
  intro id
  rw [Prog.exec_lift]
  apply Machine.bind_step
  intro v
  split
  · rfl
  rw [Prog.exec_lift]
  apply Machine.bind_step
  intro msg
  rw [Prog.exec_lift]
  apply Machine.bind_step
  intro msgid
  -- the cache's section, and only then those of the flood
  rw [cacheMsg, Prog.exec_locked]
  apply Machine.bind_step
  intro cached
  rw [update_cache]
  split
  · rfl
  · rw [Prog.exec_bind, exec_floodMessage, Option.bind_map]
    apply Machine.bind_step
    intro sent
    simp [floodOut]

/-- Run alone, `process_info` answers as the model does. -/
theorem exec_processInfo :
    processInfo.exec (guarded st n)
      = some (Router.processInfo st, guarded st n, []) := by
  unfold processInfo
  simp only [Prog.exec_locked, Option.bind_some, update_clients,
    update_cache, guarded_clients, guarded_cache]
  rfl

/-- Run alone, `process_discover` lists what the model lists. -/
theorem exec_processDiscover (inet : Inet) (mi : MsgInfo)
    (tok : List JsmnTok) :
    (processDiscover inet mi tok).exec (guarded st n)
      = (Router.processDiscover inet st mi tok).map fun wire =>
          (wire, guarded st n, []) := by
  unfold processDiscover Router.processDiscover
  rw [Prog.exec_lift]
  apply Machine.bind_step
  intro num
  split
  · rfl
  rw [Prog.exec_lift]
  apply Machine.bind_step
  intro t
  rw [Prog.exec_lift]
  apply Machine.bind_step
  intro s
  split
  · rfl
  rw [Prog.exec_locked]
  show ((routersToJson inet st.routers []).bind _).bind _ = _
  rw [Option.bind_assoc]
  apply Machine.bind_step
  intro jlist
  simp

/-- Run alone, the handler of a method does what the model's does. -/
theorem exec_process (inet : Inet) (mi : MsgInfo) (tok : List JsmnTok)
    (m : Method) :
    (process inet mi tok m).exec (guarded st n)
      = (Router.process inet st mi tok m).map fun r =>
          ((r.2.1, r.2.2.1), guarded r.1 n,
            floodOut r.2.2.2) := by
  cases m with
  | broadcast =>
      simp only [process, Router.process]
      rw [Prog.exec_bind, exec_processBroadcast, Option.bind_map]
      apply Machine.bind_step
      intro r
      simp
  | ip => rfl
  | info =>
      simp only [process]
      rw [Prog.exec_bind, exec_processInfo]
      rfl
  | ping => rfl
  | discover =>
      simp only [process, Router.process]
      rw [Prog.exec_bind, exec_processDiscover, Option.bind_map]
      apply Machine.bind_step
      intro wire
      rfl

/-- A request alone is what `handle_connection` makes of it. -/
theorem exec_handleRequest (inet : Inet) (st : RouterState) (n : Int)
    (c : Conn) :
    (handleRequest inet c).exec (guarded st n)
      = ((service inet).handleRequest st c).map fun r =>
          ((r.2.1, r.2.2.wire, r.2.2.keep), guarded r.1 n,
            floodOut r.2.2.flood) :=
  Server.Locked.exec_handleRequest (guarded · n) floodOut rfl rfl
    (exec_process inet) c

/-- The functions keep to the order of the locks, and touch nothing
without its lock. -/
abbrev Keeps {α : Type} (p : Code α) : Prop := Obeys rank true [] p

/-- `flood_message` takes one lock after the other. -/
private theorem floodMessage_keeps (mi : MsgInfo) : Keeps
    (floodMessage mi) := by
  unfold floodMessage
  refine .lock (by simp) (.act (by simp) fun sent => .sendAll _ ?_)
  refine .lock (by simp [rank]) (.act (by simp) fun sent =>
    .sendAll _ ?_)
  exact .unlock (by simp) (.last (.done ()))

/-- `process_broadcast` takes the cache's lock, returns it, and floods. -/
theorem processBroadcast_keeps (mi : MsgInfo) (tok : List JsmnTok) :
    Keeps (processBroadcast mi tok) := by
  unfold processBroadcast
  refine (Obeys.lift _).bind fun r => ?_
  dsimp only
  split
  · exact .done _
  refine (Obeys.lift _).bind fun hops => (Obeys.lift _).bind fun id =>
    (Obeys.lift _).bind fun v => ?_
  split
  · exact .done _
  refine (Obeys.lift _).bind fun msg => (Obeys.lift _).bind fun msgid =>
    (Obeys.locked _ _).bind fun cached => ?_
  split
  · exact .done _
  · exact (floodMessage_keeps _).bind fun _ => .done _

/-- `process_discover` takes the routers' lock only. -/
theorem processDiscover_keeps (inet : Inet) (mi : MsgInfo)
    (tok : List JsmnTok) : Keeps (processDiscover inet mi tok) := by
  unfold processDiscover
  refine (Obeys.lift _).bind fun num => ?_
  split
  · exact .done _
  refine (Obeys.lift _).bind fun t => (Obeys.lift _).bind fun s => ?_
  split
  · exact .done _
  · exact (Obeys.locked _ _).bind fun _ => .done _

/-- Every handler keeps the discipline. -/
theorem process_keeps (inet : Inet) (mi : MsgInfo) (tok : List JsmnTok)
    (m : Method) : Keeps (process inet mi tok m) := by
  cases m with
  | broadcast => exact (processBroadcast_keeps mi tok).bind fun _ => .done _
  | ip => exact .done _
  | info =>
      exact ((Obeys.locked _ _).bind fun _ =>
        (Obeys.locked _ _).bind fun _ => .done _).bind fun _ => .done _
  | ping => exact .done _
  | discover =>
      exact (processDiscover_keeps inet mi tok).bind fun _ => .done _

/-- Threads of a router, and all of them. -/
inductive Busy
  | connects
  | broadcasts
  | asks
  | ticks
  | serves
  deriving DecidableEq

def Busy.all : List Busy := [.connects, .broadcasts, .asks, .ticks, .serves]

/-- A host connects, another's broadcast is flooded, a connection asks for
the router's numbers, the cache ticks, and the UDP server starts and
admits a message. -/
def Busy.role : Busy → Role
  | .connects => .message (udpReceive zeroInfo (host4 1)
      (ascii "\x7b\"method\":\"connect\",\"port\":5557\x7d"))
  | .broadcasts => .message (udpReceive zeroInfo (host4 2) (broadcastText "a"))
  | .asks => .connection (.fresh zeroInfo (host4 3) zeroTokens)
      [store zeroInfo.msg (ascii "\x7b\"method\":\"info\"\x7d\r\n\r\n")]
  | .ticks => .cacheClock 1
  | .serves => .udpServer 4 1

/-- Where something goes, if it is a datagram, and the bytes. -/
def Out.sends : Out → Option Sockaddr × Option (List UInt8)
  | .udp s => (some s.addr, s.payload)
  | .tcp wire => (none, some wire)

end Psnet.Router.Locked
