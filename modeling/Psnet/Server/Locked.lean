/-
The threads that both daemons have, with the locks they take.

# The programs

The functions of common/ that work on shared data, and what the two copies
of `handle_connection` and `handle_message` have in common, are written
again here as programs that lock and unlock. A daemon has the lock of its
client table, that of its delta list, and `num_threads_lock`; what other
locks it has is left open (`Lock.own`).

# What they are alone

Run by itself a program is the function it stands for
(`exec_handleRequest`, `exec_handleConnection`), so nothing but the locks is
added. Only `udp_server_init` does without: it sets `num_threads` to zero,
and its mutex up, while connections may be served already (`udpServerMain`).
-/
import Psnet.Lib.Locks
import Psnet.Server.Connection

namespace Psnet.Server.Locked

open Net Jsmn Parse DeltaList Client Locks

-- ====================================================================== the locks

inductive Lock (K : Type)
  | clients
  | threads
  | own (k : K)
  deriving DecidableEq, Repr

/-- What a lock guards: the client table, `num_threads`, or data of the
daemon's own. -/
abbrev Guards {K : Type} (G : K → Type) : Lock K → Type
  | .clients => Table Sockaddr
  | .threads => Int
  | .own k => G k

-- =============================================================== common/client.c

section

variable {K : Type} {G : K → Type} {D : Type}

/-- `add_client`. -/
def addClient (addr : Sockaddr) (port : Text) : Prog (Guards G) D Int :=
  match makeClient addr port with
  | none => return -1
  | some client => do
      let _ ← Prog.locked .clients fun t => deltaUpdate clientConf t client
      return 0

/-- `clock_thread` of the client table, for so many ticks. -/
def clientClock : Nat → Prog (Guards G) D Unit :=
  .again .clients fun t => (deltaTick clientConf t).map Prod.fst

-- =============================================================== common/server.c

/-- A request is admitted, or refused. -/
def admission (maxThreads n : Int) : Int := if maxThreads ≤ n then n else n + 1

/-- `tcp_server_main`, for so many connections. -/
def tcpServerMain (maxThreads : Int) : Nat → Prog (Guards G) D Unit :=
  .again .threads fun n => some (admission maxThreads n)

/-- `udp_server_init` and `udp_server_main`, for so many messages. The first
takes no lock. -/
def udpServerMain (maxThreads : Int) (k : Nat) : Prog (Guards G) D Unit :=
  .act .threads (fun _ => some ((), 0)) fun _ =>
    .again .threads (fun n => some (admission maxThreads n)) k

/-- The end of a worker: it takes itself off the count. -/
def leave : Prog (Guards G) D Unit := .locked .threads fun n => some ((), n - 1)

end

-- ==================================================================== a connection

section

variable {L : Type} {S : L → Type} {D σ μ : Type}

/-- The loop body of `handle_connection`: the connection as it is left,
the bytes sent back, and whether it stays open. -/
def handleRequest (sv : Service σ μ)
    (process : MsgInfo → List JsmnTok → μ → Prog S D (MsgInfo × Text))
    (c : Conn) : Prog S D (Conn × Text × Bool) := do
  let (method, tok, ntok) ← Prog.lift (parseMessage c.mi.msg c.tok c.ntok)
  if method = -1 then return (⟨c.mi, tok, ntok⟩, sv.noMethod, false)
  else do
    let t ← Prog.lift (tokenAt tok method)
    let cmd ← Prog.lift (cmdEqual c.mi.msg t sv.commands)
    match cmd with
    | none => return (⟨c.mi, tok, ntok⟩, sv.badMethod, false)
    | some m => do
        let (mi, wire) ← process c.mi tok m
        return (⟨mi, tok, ntok⟩, wire, true)

/-- `handle_connection`, with the buffer as each `tcp_read_msg` leaves it
until one of them fails. -/
def handleConnection (request : Conn → Prog S D (Conn × Text × Bool))
    (tcp : Text → D) (leave : Prog S D Unit) :
    Conn → List (List UInt8) → Prog S D Unit
  | _, [] => leave
  | c, buf :: bufs => do
      let (c, wire, keep) ← request (c.read buf)
      Prog.sendAll [tcp wire]
      if keep then handleConnection request tcp leave c bufs else leave

/-- `handle_message` up to the end of the worker. -/
def dispatchMessage (commands : List (String × μ))
    (process : List JsmnTok → μ → Prog S D Unit) (mi : MsgInfo) :
    Prog S D Unit := do
  let (method, tok, _) ← Prog.lift (parseMessage mi.msg zeroTokens JSMN_NTOK)
  if method = -1 then return
  else do
    let t ← Prog.lift (tokenAt tok method)
    let cmd ← Prog.lift (cmdEqual mi.msg t commands)
    match cmd with
    | none => return
    | some m => process tok m

end

-- ================================================================= one at a time

section

variable {K : Type} [DecidableEq K] {G : K → Type} {D : Type}

end

section

variable {L : Type} [DecidableEq L] {S : L → Type} {D σ μ : Type}
  {sv : Service σ μ}

/-- A request alone is what `handle_connection` makes of it, if its handlers
are. -/
theorem exec_handleRequest {m : ∀ l, S l} {st : σ} (put : σ → ∀ l, S l)
    (udp : Option (List UdpSend) → List D)
    {process : MsgInfo → List JsmnTok → μ → Prog S D (MsgInfo × Text)}
    (hput : put st = m) (hudp : udp none = [])
    (hprocess : ∀ mi tok cmd, (process mi tok cmd).exec m
      = (sv.process st mi tok cmd).map fun r =>
          ((r.2.1, r.2.2.1), put r.1, udp r.2.2.2)) (c : Conn) :
    (handleRequest sv process c).exec m
      = (sv.handleRequest st c).map fun r =>
          ((r.2.1, r.2.2.wire, r.2.2.keep), put r.1, udp r.2.2.flood) := by
  unfold handleRequest Service.handleRequest
  rw [Prog.exec_lift]
  apply Machine.bind_step
  intro r
  dsimp only
  split
  · simp [hput, hudp]
  rw [Prog.exec_lift]
  apply Machine.bind_step
  intro t
  rw [Prog.exec_lift]
  apply Machine.bind_step
  intro cmd
  cases cmd with
  | none => simp [hput, hudp]
  | some cmd =>
      dsimp only
      rw [Prog.exec_bind, hprocess, Option.bind_map]
      apply Machine.bind_step
      intro q
      simp

end

end Psnet.Server.Locked
