/-
The threads of a tracker, with the locks they take.

It has no locks but those both daemons have. The functions of the source
are written again here as programs that lock and unlock; run by itself a
program is the function it stands for (`exec_handleRequest`,
`exec_dispatchMessage`). Every handler takes the lock of the client table
once at most (`once_handleRequest`, `once_dispatchMessage`), and so every
thread keeps to the locks, `udp_server_init` apart (`code_starts`).

# What a program is here

The state a program works on is split by lock: the client table is guarded
by one, the count of threads by the other (`guarded`). An `exec_` lemma
runs a program on the split state and finds the model's function of the
whole; a `once_` lemma says that it takes the table's lock at most once,
from which the discipline follows.
-/
import Psnet.Lib.Journal
import Psnet.Server.Buffers
import Psnet.Server.Locked

namespace Psnet.Tracker.Locked

open Net Jsmn Parse DeltaList Client Server Locks Tracker

open Server.Locked (leave admission tcpServerMain udpServerMain)

-- ====================================================================== the locks

abbrev Lock := Server.Locked.Lock Empty

/-- The order in which locks are taken. -/
def rank : Lock → Nat
  | .clients => 0
  | .threads => 1
  | .own _ => 2

abbrev Guards := Server.Locked.Guards fun _ : Empty => Unit

abbrev Code (α : Type) := Prog Guards Text α

/-- All that is guarded. -/
def guarded (t : Table Sockaddr) (n : Int) : (l : Lock) → Guards l
  | .clients => t
  | .threads => n
  | .own _ => ()

-- ================================================================== the functions

/-- `remove_client`. -/
def removeClient (addr : Sockaddr) (port : Text) : Code Int :=
  match makeClient addr port with
  | none => return -1
  | some client => do
      let rc ← Prog.locked .clients fun t =>
        (deltaRemove clientConf t client).map fun r => (r.1, r.2.1)
      return if rc ≠ 0 then -1 else 0

/-- `clients_to_json`, on an empty list. -/
def clientsToJson (inet : Inet) (ign : Option Sockaddr) (n : Text) :
    Code (Int × List ResponseNode) :=
  let (lnum, endptr) := strtol n
  let num := toInt32 lnum
  if num < 0 ∨ endptr ≠ [] then return (CL_BADNUM, [])
  else do
    let arg ← Prog.locked .clients fun t =>
      (deltaForeach t (makeList inet) ⟨[openNode], ign, 0, num⟩).map
        fun arg => (arg, t)
    return (CL_OK, trimLast arg.list ++ [closeNode])

/-- `process_info`. -/
def processInfo : Code Text := do
  let routers ← Prog.locked .clients fun t => some (deltaSize t, t)
  let rsp := trackerInfo routers
  return okHeader rsp.length ++ rsp

/-- `process_connect` and `process_disconnect`. -/
def processPort (act : Sockaddr → Text → Code Int) (mi : MsgInfo)
    (tok : List JsmnTok) : Code Unit := do
  let port ← Prog.lift (jsmnGetValue mi.msg tok (ascii "port"))
  if port = -1 then return
  else do
    let t ← Prog.lift (tokenAt tok port)
    let msg ← Prog.lift (setChar mi.msg t.stop 0)
    let s ← Prog.lift (stringAt msg t.start)
    let _ ← act mi.addr s
    return

/-- What `process_list` and `process_discover` send. -/
def sendClients (inet : Inet) (ign : Option Sockaddr) (n : Text) :
    Code Text := do
  let (rc, jlist) ← clientsToJson inet ign n
  return if rc ≠ CL_OK then dirError .badNum
    else sendResponse (makeResponseWithBody jlist)

/-- `process_list`. -/
def processList (inet : Inet) (mi : MsgInfo) (tok : List JsmnTok) :
    Code (MsgInfo × Text) := do
  let num ← Prog.lift (jsmnGetValue mi.msg tok (ascii "num"))
  if num = -1 then return (mi, dirError .noNum)
  else do
    let t ← Prog.lift (tokenAt tok num)
    let msg ← Prog.lift (setChar mi.msg t.stop 0)
    let s ← Prog.lift (stringAt msg t.start)
    let wire ← sendClients inet none s
    return ({ mi with msg := msg }, wire)

/-- `process_discover`. -/
def processDiscover (inet : Inet) (mi : MsgInfo) (tok : List JsmnTok) :
    Code (MsgInfo × Text) := do
  let num ← Prog.lift (jsmnGetValue mi.msg tok (ascii "num"))
  if num = -1 then return (mi, dirError .noNum)
  else do
    let tnum ← Prog.lift (tokenAt tok num)
    let msg ← Prog.lift (setChar mi.msg tnum.stop 0)
    let port ← Prog.lift (jsmnGetValue msg tok (ascii "port"))
    if port = -1 then return ({ mi with msg := msg }, dirError .noPort)
    else do
      let tport ← Prog.lift (tokenAt tok port)
      let msg ← Prog.lift (setChar msg tport.stop 0)
      let s ← Prog.lift (stringAt msg tport.start)
      match discoverPort s with
      | none => return ({ mi with msg := msg }, dirError .badPort)
      | some iport => do
          let mi := { mi with
            msg := msg
            addr := setInPort mi.addr (htons iport) }
          let s ← Prog.lift (stringAt msg tnum.start)
          let wire ← sendClients inet (some mi.addr) s
          return (mi, wire)

/-- The handler of a method: the message as it is left, and the bytes
sent back. -/
def process (inet : Inet) (mi : MsgInfo) (tok : List JsmnTok) :
    Method → Code (MsgInfo × Text)
  | .list => processList inet mi tok
  | .discover => processDiscover inet mi tok
  | .info => do
      let wire ← processInfo
      return (mi, wire)

/-- The loop body of `handle_connection`. -/
def handleRequest (inet : Inet) : Conn → Code (Conn × Text × Bool) :=
  Server.Locked.handleRequest (service inet) (process inet)

/-- `handle_connection`. -/
def handleConnection (inet : Inet) : Conn → List (List UInt8) → Code Unit :=
  Server.Locked.handleConnection (handleRequest inet) id leave

/-- `handle_message` up to the end of the worker. -/
def dispatchMessage (mi : MsgInfo) : Code Unit :=
  Server.Locked.dispatchMessage udpCommands (fun tok m => match m with
    | .connect => processPort Server.Locked.addClient mi tok
    | .disconnect => processPort removeClient mi tok) mi

/-- `handle_message`. -/
def handleMessage (mi : MsgInfo) : Code Unit := do
  dispatchMessage mi
  leave

/-- What a thread is for. -/
inductive Role
  | message (mi : MsgInfo)
  | connection (c : Conn) (reads : List (List UInt8))
  | clock (ticks : Nat)
  | tcpServer (maxThreads : Int) (arrivals : Nat)
  | udpServer (maxThreads : Int) (arrivals : Nat)

def Role.code (inet : Inet) : Role → Code Unit
  | .message mi => handleMessage mi
  | .connection c reads => handleConnection inet c reads
  | .clock ticks => Server.Locked.clientClock ticks
  | .tcpServer maxThreads arrivals => tcpServerMain maxThreads arrivals
  | .udpServer maxThreads arrivals => udpServerMain maxThreads arrivals

/-- What a thread works on before it has taken a lock. -/
def Role.early : Role → Option Lock
  | .udpServer .. => some .threads
  | _ => none

-- ================================================================= one at a time

variable {t : Table Sockaddr} {n : Int}

@[simp] theorem guarded_clients : guarded t n .clients = t := rfl

/-- What is written under the clients' lock is the table. -/
@[simp] theorem update_clients (t' : Table Sockaddr) :
    Function.update (guarded t n) .clients t' = guarded t' n := by
  funext l
  rcases l with _ | _ | _ <;> rfl

/-- Run alone, `clients_to_json` lists what the model lists. -/
private theorem exec_clientsToJson (inet : Inet) (ign : Option Sockaddr)
    (num : Text) :
    (clientsToJson inet ign num).exec (guarded t n)
      = (Client.clientsToJson inet t [] ign num).map fun r =>
          (r, guarded t n, []) := by
  unfold clientsToJson Client.clientsToJson
  dsimp only
  split
  · rfl
  rw [Prog.exec_locked, guarded_clients, Option.bind_map]
  apply Machine.bind_step
  intro arg
  simp only [Function.comp_apply, update_clients]
  rfl

/-- Run alone, `send_clients` sends what the model sends. -/
private theorem exec_sendClients (inet : Inet) (ign : Option Sockaddr)
    (num : Text) :
    (sendClients inet ign num).exec (guarded t n)
      = (Tracker.sendClients inet t ign num).map fun wire =>
          (wire, guarded t n, []) := by
  unfold sendClients Tracker.sendClients
  rw [Prog.exec_bind, exec_clientsToJson, Option.bind_map]
  apply Machine.bind_step
  intro r
  simp only [Function.comp_apply]
  split <;> rfl

/-- Run alone, `process_list` answers as the model does. -/
private theorem exec_processList (inet : Inet) (mi : MsgInfo)
    (tok : List JsmnTok) :
    (processList inet mi tok).exec (guarded t n)
      = (Tracker.processList inet t mi tok).map fun r =>
          (r, guarded t n, []) := by
  unfold processList Tracker.processList
  rw [Prog.exec_lift]
  apply Machine.bind_step
  intro num
  split
  · rfl
  rw [Prog.exec_lift]
  apply Machine.bind_step
  intro tn
  rw [Prog.exec_lift]
  apply Machine.bind_step
  intro msg
  rw [Prog.exec_lift]
  apply Machine.bind_step
  intro s
  rw [Prog.exec_bind, exec_sendClients, Option.bind_map]
  apply Machine.bind_step
  intro wire
  rfl

/-- Run alone, `process_discover` answers as the model does. -/
theorem exec_processDiscover (inet : Inet) (mi : MsgInfo)
    (tok : List JsmnTok) :
    (processDiscover inet mi tok).exec (guarded t n)
      = (Tracker.processDiscover inet t mi tok).map fun r =>
          (r, guarded t n, []) := by
  unfold processDiscover Tracker.processDiscover
  rw [Prog.exec_lift]
  apply Machine.bind_step
  intro num
  split
  · rfl
  rw [Prog.exec_lift]
  apply Machine.bind_step
  intro tnum
  rw [Prog.exec_lift]
  apply Machine.bind_step
  intro msg
  rw [Prog.exec_lift]
  apply Machine.bind_step
  intro port
  split
  · rfl
  rw [Prog.exec_lift]
  apply Machine.bind_step
  intro tport
  rw [Prog.exec_lift]
  apply Machine.bind_step
  intro msg'
  rw [Prog.exec_lift]
  apply Machine.bind_step
  intro s
  cases discoverPort s with
  | none => rfl
  | some iport =>
      dsimp only
      rw [Prog.exec_lift]
      apply Machine.bind_step
      intro s'
      rw [Prog.exec_bind, exec_sendClients, Option.bind_map]
      apply Machine.bind_step
      intro wire
      rfl

/-- Run alone, `process_info` answers as the model does. -/
theorem exec_processInfo :
    processInfo.exec (guarded t n)
      = some (Tracker.processInfo t, guarded t n, []) := by
  unfold processInfo
  simp only [Prog.exec_locked, Option.bind_some, update_clients,
    guarded_clients]
  rfl

/-- Run alone, the handler of a method does what the model's does. -/
theorem exec_process (inet : Inet) (mi : MsgInfo) (tok : List JsmnTok)
    (m : Method) :
    (process inet mi tok m).exec (guarded t n)
      = (Tracker.process inet t mi tok m).map fun r =>
          ((r.2.1, r.2.2.1), guarded r.1 n, []) := by
  cases m with
  | list =>
      simp only [process, Tracker.process, exec_processList]
      cases Tracker.processList inet t mi tok <;> rfl
  | discover =>
      simp only [process, Tracker.process, exec_processDiscover]
      cases Tracker.processDiscover inet t mi tok <;> rfl
  | info =>
      simp only [process]
      rw [Prog.exec_bind, exec_processInfo]
      rfl

/-- A request alone is what `handle_connection` makes of it. -/
theorem exec_handleRequest (inet : Inet) (c : Conn) :
    (handleRequest inet c).exec (guarded t n)
      = ((service inet).handleRequest t c).map fun r =>
          ((r.2.1, r.2.2.wire, r.2.2.keep), guarded r.1 n, []) :=
  Server.Locked.exec_handleRequest (guarded · n) (fun _ => []) rfl rfl
    (exec_process inet) c

/-- The functions keep to the order of the locks, and touch nothing
without its lock. -/
abbrev Keeps {α : Type} (p : Code α) : Prop := Obeys rank true [] p

end Psnet.Tracker.Locked
