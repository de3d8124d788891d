/-
Sending and receiving on a socket (common/network.c).

What the other end and the network do is given beforehand: what every
call of `send` accepts, the bytes to be received, and how the stream of
them ends. How they are split over calls of `recv` makes no difference
to the loops that read them and is left out.
-/
import Psnet.Net.Response

namespace Psnet.Net

/-- The value of `errno` after a call that failed. -/
structure Errno where
  code : Nat
  pos : 0 < code
  deriving DecidableEq, Repr

/-- `-errno`. -/
def Errno.rv (e : Errno) : Int := -e.code

/-- The `i`-th call of `send` on a socket, with so many bytes to send:
how many it accepts. -/
abbrev Sends := Nat → Nat → Except Errno Nat

/-- No call fails, and each accepts at least one byte and no more than
it is given. -/
def Sends.Accepts (send : Sends) : Prop :=
  ∀ i left, 0 < left → ∃ n, send i left = .ok n ∧ 0 < n ∧ n ≤ left

/-- What a sender has done: the calls of `send` made, and the bytes
accepted. -/
structure Sent where
  calls : Nat
  wire : List UInt8
  deriving DecidableEq, Repr

/-- The loop of `tcp_send_bytes` on the bytes left: the error, if a call
fails, and what was sent. `none` is a loop that does not end within `k`
calls. -/
def sendLoop (send : Sends) :
    Nat → List UInt8 → Sent → Option (Option Errno × Sent)
  | 0, _, _ => none
  | _ + 1, [], out => some (none, out)
  | k + 1, c :: left, out =>
      match send out.calls (left.length + 1) with
      | .error e => some (some e, { out with calls := out.calls + 1 })
      | .ok n => sendLoop send k ((c :: left).drop n)
          ⟨out.calls + 1, out.wire ++ (c :: left).take n⟩

/-- `tcp_send_bytes` on the bytes of the buffer: the return value and
what was sent. -/
def tcpSendBytes (send : Sends) (k : Nat) (buf : List UInt8) (out : Sent) :
    Option (Int × Sent) :=
  (sendLoop send k buf out).map fun (err, out) =>
    (err.elim (buf.length : Int) Errno.rv, out)

/-- What is received: the bytes, and how the stream ends after them. -/
structure Recvs where
  bytes : List UInt8
  fin : Option Errno
  deriving DecidableEq, Repr

/-- What a reader returns at the end of the stream: `eof` where it was
closed. -/
def Recvs.atEnd (r : Recvs) (eof : Int) : Int := r.fin.elim eof Errno.rv

/-- `tcp_read_msg` into a buffer: the return value, the buffer and what
is left to receive. -/
def recvMsg (r : Recvs) (buf : List UInt8) : Int × List UInt8 × Recvs :=
  match readLoop buf.length 0 r.bytes with
  | none => (r.atEnd 0, r.bytes ++ buf.drop r.bytes.length,
      { r with bytes := [] })
  | some n => (n, store buf (r.bytes.take n),
      { r with bytes := r.bytes.drop n })

/-- `tcp_read_bytes`: the return value and the bytes stored. -/
def tcpReadBytes (r : Recvs) (bytes : Nat) : Int × List UInt8 :=
  if bytes ≤ r.bytes.length then (bytes, r.bytes.take bytes)
  else (r.atEnd r.bytes.length, r.bytes)

end Psnet.Net
