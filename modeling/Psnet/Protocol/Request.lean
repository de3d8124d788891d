/-
One exchange with a server: `psnet_request` (common/protocol.c).

The function is a sequence of statements with one label to leave by, so
it is modelled statement by statement: `exec` runs the one at a program
point and says where control goes. That matters, because the `goto`
after the test of `connect` is no part of the `if`: control always goes
to `cleanup` from there, and no run comes to a later point
(`psnet_request_outcome`).

# Where the other statements went

The statements behind the label are reached by the same `exec` from the
points the indentation suggests. What they would do is the subject of
`Protocol.Answers` and `Tracker.Directory`.
-/
import Psnet.Net.Transport
import Psnet.Parse.Model

namespace Psnet.Protocol

open Net Jsmn Parse

def HDR_MAX : Nat := 512

/-- `EBADMSG` of Linux. -/
def EBADMSG : Errno := ⟨74, by decide⟩

/-- What the transport does: `none` is a call that succeeds. -/
structure Transport where
  socket : Option Errno
  connect : Option Errno
  send : Sends
  recv : Recvs

/-- The arguments, and what the memory of the locals holds at entry:
`rv`, the header buffer and the token array of `parse_header`. `hasResp`
tells whether `resp` is not NULL. -/
structure Call where
  msg : List UInt8
  len : Nat
  hasResp : Bool
  rv : Int
  hdr : List UInt8
  stack : Nat → JsmnTok

/-- What `*resp` is. -/
inductive Resp
  | unset
  | buffer (bytes : List UInt8)
  | freed
  deriving DecidableEq, Repr

/-- The locals, and what has happened on the socket: whether the
connection was made, what was sent, the header that was accepted with
its size, and what is left to receive. -/
structure Locals where
  rv : Int
  hdr : List UInt8
  resp : Resp
  connected : Bool
  sent : Sent
  header : Option (List UInt8 × Nat)
  recv : Recvs

/-- The statements of `psnet_request`. -/
inductive Point
  | connect
  | send
  | readMsg
  | parseHeader
  | readBytes
  | cleanup
  deriving DecidableEq, Repr

/-- The statement at a point: where control goes, and the locals. `none`
is a write outside a buffer, a read past the end of `msg`, or a send
loop that does not end within `k` calls. -/
def exec (tr : Transport) (c : Call) (k : Nat) (l : Locals) :
    Point → Option (Point × Locals)
  | .connect =>
      -- `goto cleanup` follows the `if`, whatever `connect` returned
      some (.cleanup, { l with
        rv := tr.connect.elim l.rv Errno.rv
        connected := tr.connect.isNone })
  | .send =>
      if c.msg.length < c.len then none
      else do
        let (rv, sent) ← tcpSendBytes tr.send k (c.msg.take c.len) l.sent
        let l := { l with rv := rv, sent := sent }
        return (if rv < 0 then .cleanup else .readMsg, l)
  | .readMsg =>
      let (rv, hdr, recv) := recvMsg l.recv l.hdr
      let l := { l with rv := rv, hdr := hdr, recv := recv }
      some (if rv ≤ 0 then (.cleanup, l)
        else if rv = HDR_MAX then (.cleanup, { l with rv := EBADMSG.rv })
        else (.parseHeader, l))
  | .parseHeader => do
      match ← Parse.parseHeader l.hdr c.stack with
      | none => return (.cleanup, { l with rv := EBADMSG.rv })
      | some (_, size) =>
          let l := { l with
            header := some (l.hdr.take l.rv.toNat, size)
            rv := 0 }
          return (if size = 0 ∨ c.hasResp = false then .cleanup
            else .readBytes, l)
  | .readBytes =>
      match l.header with
      | none => none
      | some (_, size) =>
          let (rv, bytes) := tcpReadBytes l.recv size
          let l := { l with rv := rv }
          if rv = -1 then some (.cleanup, { l with resp := .freed })
          else if rv < 0 then none
          else some (.cleanup, { l with resp := .buffer (bytes ++ [0]) })
  | .cleanup => some (.cleanup, l)

/-- The statements from a point on, up to the label. -/
def run (tr : Transport) (c : Call) (k : Nat) :
    Nat → Point → Locals → Option Locals
  | _, .cleanup, l => some l
  | 0, _, _ => none
  | n + 1, p, l => do
      let (p, l) ← exec tr c k l p
      run tr c k n p l

/-- `psnet_request`. The locals at its return; `rv` is what it
returns. -/
def psnetRequest (tr : Transport) (c : Call) (k : Nat) : Option Locals :=
  let l : Locals := ⟨c.rv, c.hdr, .unset, false, ⟨0, []⟩, none, tr.recv⟩
  match tr.socket with
  | some e => some { l with rv := e.rv }
  | none => run tr c k 5 .connect l

-- ================================================================== the outcome

/-- The exchange was carried out: all of the message was sent, a header
was received and accepted, and the body it announces is in `*resp`. -/
structure Complete (tr : Transport) (c : Call) (l : Locals) : Prop where
  connected : l.connected = true
  sent : l.sent.wire = c.msg.take c.len ∧ c.len ≤ c.msg.length
  header : ∃ hdr size, l.header = some (hdr, size) ∧ delim <:+ hdr
    ∧ hdr.length < HDR_MAX
    ∧ (0 < size → c.hasResp = true → ∃ body,
      l.resp = .buffer (body ++ [0]) ∧ body.length = size ∧ l.rv = size
        ∧ ∃ rest, tr.recv.bytes = hdr ++ body ++ rest)

/-- The function returns, a non-negative value only where the exchange
was carried out, and no freed buffer. -/
def Honest (tr : Transport) (c : Call) (k : Nat) : Prop :=
  ∃ l, psnetRequest tr c k = some l ∧ (0 ≤ l.rv → Complete tr c l)
    ∧ l.resp ≠ .freed

theorem Errno.rv_neg (e : Errno) : e.rv < 0 := by
  have := e.pos
  unfold Errno.rv
  omega

/-- The outcome is honest exactly when there was no connection, or the
memory of `rv` held a negative value: with a connection the function
returns what that memory held, and sends nothing. -/
theorem psnet_request_outcome (tr : Transport) (c : Call) (k : Nat) :
    Honest tr c k
      ↔ tr.socket.isSome = true ∨ tr.connect.isSome = true ∨ c.rv < 0 := by
  unfold Honest psnetRequest
  cases hs : tr.socket with
  | some e =>
      have hneg := Errno.rv_neg e
      simp only [Option.some.injEq, exists_eq_left', Option.isSome_some,
        true_or, iff_true]
      exact ⟨fun h => absurd h (by omega), nofun⟩
  | none =>
      simp only [run, exec, bind, Option.bind_some, Option.some.injEq,
        exists_eq_left', Option.isSome_none, Bool.false_eq_true, false_or]
      cases hc : tr.connect with
      | some e =>
          have hneg := Errno.rv_neg e
          simp only [Option.elim_some, Option.isSome_some, true_or, iff_true]
          exact ⟨fun h => absurd h (by omega), nofun⟩
      | none =>
          simp only [Option.elim_none, Option.isSome_none,
            Bool.false_eq_true, false_or]
          constructor
          · intro h
            obtain ⟨hrv, -⟩ := h
            by_contra hneg
            obtain ⟨hdr, size, hhdr, -⟩ := (hrv (by omega)).header
            cases hhdr
          · intro hneg
            exact ⟨fun h => absurd h (by omega), nofun⟩

/-- A transport on which nothing fails, and which answers with a
header. -/
def healthy : Transport where
  socket := none
  connect := none
  send _ left := .ok left
  recv := ⟨ascii "\x7b\"status\":\"okay\"\x7d\r\n\r\n", none⟩

/-- A ping whose locals happen to be zero: it is reported as answered,
but was never sent. -/
theorem ping_never_sent :
    ∃ c : Call, c.len ≤ c.msg.length ∧ c.hdr.length = HDR_MAX
      ∧ ∀ k, ¬ Honest healthy c k := by
  refine ⟨⟨ascii "\x7b\"method\":\"ping\"\x7d\r\n\r\n", 21, false, 0,
    List.replicate HDR_MAX 0, fun _ => .zero⟩, by decide,
    List.length_replicate, fun k => ?_⟩
  intro h
  obtain ⟨l, hl, hrv, -⟩ := h
  simp only [psnetRequest, healthy, run, exec, bind, Option.bind_some,
    Option.some.injEq, Option.elim_none] at hl
  subst hl
  obtain ⟨hdr, size, hhdr, -⟩ := (hrv (Int.le_refl 0)).header
  cases hhdr

end Psnet.Protocol
