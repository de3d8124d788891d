/-
The router's request handlers (router/service.c).

A handler is given the tables the router's threads share, the message
and the tokens of the request, and returns what it leaves of them with
what it sends. Logging (`PSNETLOG`) is left out.
-/
import Psnet.Router.Model
import Psnet.Server.Model

namespace Psnet.Router

open Net Jsmn Parse DeltaList Client Server

def MAX_HOPS : UInt8 := 4

/-- What the threads of a router share. -/
structure RouterState where
  routers : Mem
  clientTable : Table Sockaddr
  msgCache : Table Text

/-- The router after its start. -/
def RouterState.boot : RouterState where
  routers := Router.boot
  clientTable := Table.empty
  msgCache := Table.empty

/-- `enum input_errors`. -/
inductive InputError
  | noMethod
  | noNum
  | badMethod
  | badNum
  deriving DecidableEq, Repr

/-- The code of an error. -/
def InputError.code : InputError → Nat
  | noMethod => 0
  | noNum => 1
  | badMethod => 2
  | badNum => 3

/-- `psnode_strerror`. -/
def InputError.strerror : InputError → Text
  | noMethod => ascii "no method given"
  | noNum => ascii "missing argument 'num'"
  | badMethod => ascii "unrecognized method"
  | badNum => ascii "invalid argument 'num'"

/-- `node_error`. -/
def nodeError (no : InputError) : Text := sendError no.code no.strerror

/-- `process_ip`. -/
def processIp (inet : Inet) (mi : MsgInfo) : Text :=
  let rsp := ascii "\x7b\"ip\":\"" ++ inet.ntop mi.addr
    ++ ascii "\"\x7d\r\n\r\n"
  okHeader rsp.length ++ rsp

/-- The value an `unsigned int` has when `%d` prints it. -/
def signed32 (n : UInt32) : Int := toInt32 n.toNat

/-- `process_info`. -/
def processInfo (st : RouterState) : Text :=
  let rsp := ascii "\x7b\"name\":\"generic psnet router\",\"clients\":"
    ++ decimal (signed32 (deltaSize st.clientTable))
    ++ ascii ",\"cache-load\":"
    ++ decimal (signed32 (deltaSize st.msgCache)) ++ ascii "\x7d\r\n\r\n"
  okHeader rsp.length ++ rsp

/-- `process_connect`. -/
def processConnect (st : RouterState) (mi : MsgInfo)
    (tok : List JsmnTok) : Option RouterState := do
  let port ← jsmnGetValue mi.msg tok (ascii "port")
  if port = -1 then return st
  else do
    let t ← tokenAt tok port
    let msg ← setChar mi.msg t.stop 0
    let s ← stringAt msg t.start
    let (_, clientTable) ← addClient st.clientTable mi.addr s
    return { st with clientTable := clientTable }

/-- The first character of a hops token lets the message pass. -/
def hopsOk (v : UInt8) : Bool := 48 ≤ v && v < 48 + MAX_HOPS - 1

/-- `process_broadcast`: the tables, the message, and the datagrams sent
where `flood_message` is called. -/
def processBroadcast (st : RouterState) (mi : MsgInfo)
    (tok : List JsmnTok) :
    Option (RouterState × MsgInfo × Option (List UdpSend)) := do
  let (rc, is) ← jsmnGetValues mi.msg tok [ascii "hops", ascii "id"]
  if rc = -1 then return (st, mi, none)
  else do
    let hops ← is[0]? >>= tokenAt tok
    let id ← is[1]? >>= tokenAt tok
    let v ← charAt mi.msg hops.start
    if !hopsOk v then return (st, mi, none)
    else do
      let msg ← setChar mi.msg hops.start (v + 1)
      let mi := { mi with msg := msg }
      let msgid ← jsmnTokdup msg id
      let (cached, msgCache) ← cacheMsg st.msgCache msgid
      let st := { st with msgCache := msgCache }
      if cached ≠ 0 then return (st, mi, none)
      else do
        let sent ← floodMessage st.routers st.clientTable mi
        return (st, mi, some sent)

/-- `routers_to_json`; its second argument is not used. -/
def routersToJson (inet : Inet) (m : Mem) (head : List ResponseNode) :
    Option (List ResponseNode) := do
  let its ← listForEach m .routers
  let sas ← its.mapM (listEntryAddr m)
  let nodes := sas.map fun sa => ResponseNode.ofText (elementText inet sa)
  return trimLast (head ++ openNode :: nodes) ++ [closeNode]

/-- `process_discover`. -/
def processDiscover (inet : Inet) (st : RouterState) (mi : MsgInfo)
    (tok : List JsmnTok) : Option Text := do
  let num ← jsmnGetValue mi.msg tok (ascii "num")
  if num = -1 then return nodeError .noNum
  else do
    let t ← tokenAt tok num
    let s ← stringAt mi.msg t.start
    if atoi s = 0 then return nodeError .badNum
    else do
      let jlist ← routersToJson inet st.routers []
      return sendResponse (makeResponseWithBody jlist)

-- ================================================================= dispatching

/-- The requests a connection may make. -/
inductive Method
  | broadcast
  | ip
  | info
  | ping
  | discover
  deriving DecidableEq, Repr

/-- The commands of `handle_connection`, in the order they are
tested. -/
def commands : List (String × Method) :=
  [("broadcast", .broadcast), ("ip", .ip), ("info", .info),
    ("ping", .ping), ("discover", .discover)]

/-- The handler of a method. -/
def process (inet : Inet) (st : RouterState) (mi : MsgInfo)
    (tok : List JsmnTok) :
    Method → Option (RouterState × MsgInfo × Text × Option (List UdpSend))
  | .broadcast => do
      let (st, mi, sent) ← processBroadcast st mi tok
      return (st, mi, [], sent)
  | .ip => some (st, mi, processIp inet mi, none)
  | .info => some (st, mi, processInfo st, none)
  | .ping => some (st, mi, sendOk, none)
  | .discover => do
      let wire ← processDiscover inet st mi tok
      return (st, mi, wire, none)

/-- The router as `handle_connection` serves it. -/
def service (inet : Inet) : Service RouterState Method where
  commands := commands
  noMethod := nodeError .noMethod
  badMethod := nodeError .badMethod
  process := process inet

/-- The commands of `handle_message`. -/
inductive UdpMethod
  | connect
  | broadcast
  deriving DecidableEq, Repr

def udpCommands : List (String × UdpMethod) :=
  [("connect", .connect), ("broadcast", .broadcast)]

/-- `handle_message`: the tables, and the datagrams sent where the
message is flooded. -/
def handleMessage (st : RouterState) (mi : MsgInfo) :
    Option (RouterState × Option (List UdpSend)) := do
  let (method, tok, _) ← parseMessage mi.msg zeroTokens JSMN_NTOK
  if method = -1 then return (st, none)
  else do
    let t ← tokenAt tok method
    match ← cmdEqual mi.msg t udpCommands with
    | none => return (st, none)
    | some .connect => do
        let st ← processConnect st mi tok
        return (st, none)
    | some .broadcast => do
        let (st, _, sent) ← processBroadcast st mi tok
        return (st, sent)

end Psnet.Router
