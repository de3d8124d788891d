/-
The tracker's request handlers (tracker/service.c).

The clients of a tracker are routers. A handler is given the client
table, the message and the tokens of the request, and returns what it
leaves of them with what it sends. Logging is left out.
-/
import Psnet.Server.Model

namespace Psnet.Tracker

open Net Jsmn Parse DeltaList Client Server

/-- `enum input_errors`. -/
inductive InputError
  | noMethod
  | noNum
  | noPort
  | badMethod
  | badNum
  | badPort
  deriving DecidableEq, Repr

/-- The code of an error. -/
def InputError.code : InputError → Nat
  | noMethod => 0
  | noNum => 1
  | noPort => 2
  | badMethod => 3
  | badNum => 4
  | badPort => 5

/-- `psdir_strerror`. -/
def InputError.strerror : InputError → Text
  | noMethod => ascii "no method given"
  | noNum => ascii "missing argument 'num'"
  | noPort => ascii "missing argument 'port'"
  | badMethod => ascii "unrecognized method"
  | badNum => ascii "invalid argument 'num'"
  | badPort => ascii "invalid argument 'port'"

/-- `dir_error`. -/
def dirError (no : InputError) : Text := sendError no.code no.strerror

/-- `process_info`. -/
def processInfo (clientTable : Table Sockaddr) : Text :=
  let rsp := ascii "\x7b\"name\":\"generic psnet tracker\",\"routers\":"
    ++ decimal (toInt32 (deltaSize clientTable).toNat)
    ++ ascii "\x7d\r\n\r\n"
  okHeader rsp.length ++ rsp

/-- `process_connect` and `process_disconnect` read the port alike;
`act` is what they then call. -/
def processPort
    (act : Table Sockaddr → Sockaddr → Text → Option (Int × Table Sockaddr))
    (clientTable : Table Sockaddr) (mi : MsgInfo) (tok : List JsmnTok) :
    Option (Table Sockaddr) := do
  let port ← jsmnGetValue mi.msg tok (ascii "port")
  if port = -1 then return clientTable
  else do
    let t ← tokenAt tok port
    let msg ← setChar mi.msg t.stop 0
    let s ← stringAt msg t.start
    let (_, clientTable) ← act clientTable mi.addr s
    return clientTable

/-- `process_connect`. -/
def processConnect : Table Sockaddr → MsgInfo → List JsmnTok →
    Option (Table Sockaddr) := processPort addClient

/-- `process_disconnect`. -/
def processDisconnect : Table Sockaddr → MsgInfo → List JsmnTok →
    Option (Table Sockaddr) := processPort removeClient

/-- What `process_list` and `process_discover` send: the routers, or the
error for a `num` that `clients_to_json` rejects. -/
def sendClients (inet : Inet) (clientTable : Table Sockaddr)
    (ign : Option Sockaddr) (n : Text) : Option Text := do
  let (rc, jlist) ← clientsToJson inet clientTable [] ign n
  if rc ≠ CL_OK then return dirError .badNum
  else return sendResponse (makeResponseWithBody jlist)

/-- `process_list`. -/
def processList (inet : Inet) (clientTable : Table Sockaddr)
    (mi : MsgInfo) (tok : List JsmnTok) : Option (MsgInfo × Text) := do
  let num ← jsmnGetValue mi.msg tok (ascii "num")
  if num = -1 then return (mi, dirError .noNum)
  else do
    let t ← tokenAt tok num
    let msg ← setChar mi.msg t.stop 0
    let s ← stringAt msg t.start
    let wire ← sendClients inet clientTable none s
    return ({ mi with msg := msg }, wire)

/-- The port `process_discover` reads from a text; `none` is a port it
rejects. -/
def discoverPort (s : Text) : Option UInt16 :=
  let iport := atoi s
  if iport < PORT_MIN ∨ PORT_MAX < iport then none
  else some (UInt16.ofInt iport)

/-- `process_discover`. -/
def processDiscover (inet : Inet) (clientTable : Table Sockaddr)
    (mi : MsgInfo) (tok : List JsmnTok) : Option (MsgInfo × Text) := do
  let num ← jsmnGetValue mi.msg tok (ascii "num")
  if num = -1 then return (mi, dirError .noNum)
  else do
    let tnum ← tokenAt tok num
    let msg ← setChar mi.msg tnum.stop 0
    let port ← jsmnGetValue msg tok (ascii "port")
    if port = -1 then return ({ mi with msg := msg }, dirError .noPort)
    else do
      let tport ← tokenAt tok port
      let msg ← setChar msg tport.stop 0
      let s ← stringAt msg tport.start
      match discoverPort s with
      | none => return ({ mi with msg := msg }, dirError .badPort)
      | some iport => do
          let mi := { mi with
            msg := msg
            addr := setInPort mi.addr (htons iport) }
          let s ← stringAt msg tnum.start
          let wire ← sendClients inet clientTable (some mi.addr) s
          return (mi, wire)

-- ================================================================= dispatching

/-- The requests a connection may make. -/
inductive Method
  | list
  | discover
  | info
  deriving DecidableEq, Repr

/-- The commands of `handle_connection`, in the order they are
tested. -/
def commands : List (String × Method) :=
  [("list", .list), ("discover", .discover), ("info", .info)]

/-- The handler of a method. None of them floods anything. -/
def process (inet : Inet) (clientTable : Table Sockaddr) (mi : MsgInfo)
    (tok : List JsmnTok) : Method →
    Option (Table Sockaddr × MsgInfo × Text × Option (List UdpSend))
  | .list => do
      let (mi, wire) ← processList inet clientTable mi tok
      return (clientTable, mi, wire, none)
  | .discover => do
      let (mi, wire) ← processDiscover inet clientTable mi tok
      return (clientTable, mi, wire, none)
  | .info => some (clientTable, mi, processInfo clientTable, none)

/-- The tracker as `handle_connection` serves it. -/
def service (inet : Inet) : Service (Table Sockaddr) Method where
  commands := commands
  noMethod := dirError .noMethod
  badMethod := dirError .badMethod
  process := process inet

/-- The commands of `handle_message`. -/
inductive UdpMethod
  | connect
  | disconnect
  deriving DecidableEq, Repr

def udpCommands : List (String × UdpMethod) :=
  [("connect", .connect), ("disconnect", .disconnect)]

/-- `handle_message`. -/
def handleMessage (clientTable : Table Sockaddr) (mi : MsgInfo) :
    Option (Table Sockaddr) := do
  let (method, tok, _) ← parseMessage mi.msg zeroTokens JSMN_NTOK
  if method = -1 then return clientTable
  else do
    let t ← tokenAt tok method
    match ← cmdEqual mi.msg t udpCommands with
    | none => return clientTable
    | some .connect => processConnect clientTable mi tok
    | some .disconnect => processDisconnect clientTable mi tok

end Psnet.Tracker
