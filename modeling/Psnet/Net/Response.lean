/-
What a request is answered with (common/protocol.c) and how a message is
read from a connection (`tcp_read_msg` of common/network.c).

A response is the bytes handed to `tcp_send_bytes`, in order.
-/
import Psnet.Client.Model

namespace Psnet.Net

open Client

/-- `psnet_send_error`. -/
def sendError (no : Int) (str : Text) : Text :=
  ascii "\x7b\"status\":\"error\",\"code\":" ++ decimal no
    ++ ascii ",\"reason\":\"" ++ str ++ ascii "\"\x7d\r\n\r\n"

/-- `psnet_send_ok`. -/
def sendOk : Text := ascii "\x7b\"status\":\"okay\"\x7d\r\n\r\n"

/-- `{"status":"okay","size":%d}` and the delimiter. -/
def okHeader (size : Nat) : Text :=
  ascii "\x7b\"status\":\"okay\",\"size\":" ++ decimalNat size
    ++ ascii "\x7d\r\n\r\n"

/-- `make_response_with_body` on an empty `head`. -/
def makeResponseWithBody (body : List ResponseNode) : List ResponseNode :=
  .ofText (okHeader (body.map ResponseNode.len).sum) :: body

/-- `psnet_send_response`. -/
def sendResponse (head : List ResponseNode) : Text := nodesText head

-- ===================================================== reading a connection

/-- The delimiter `tcp_read_msg` looks for. -/
def delim : List UInt8 := [13, 10, 13, 10]

/-- The loop of `tcp_read_msg` on the bytes to come: how many it takes;
`none` when the stream ends first. `pos` is how much of the delimiter is
matched, `room` how much of the buffer is left. -/
def readLoop : Nat → Nat → List UInt8 → Option Nat
  | 0, _, _ => some 0
  | room + 1, pos, s =>
      if delim.length ≤ pos then some 0
      else match s with
        | [] => none
        | c :: s =>
            (readLoop room (if c = delim.getD pos 0 then pos + 1 else 0) s).map
              (· + 1)

/-- The buffer after the bytes `m` are stored at its start, with a NUL
after them where there is room. -/
def store (buf m : List UInt8) : List UInt8 :=
  if m.length < buf.length then m ++ 0 :: buf.drop (m.length + 1)
  else m

theorem length_store {buf m : List UInt8} (h : m.length ≤ buf.length) :
    (store buf m).length = buf.length := by
  unfold store
  split
  · simp
    omega
  · omega

/-- `tcp_read_msg`: the number of bytes read, the buffer and the rest of
the stream. A stream that ends inside a message reads as 0 bytes. -/
def tcpReadMsg (s buf : List UInt8) : Nat × List UInt8 × List UInt8 :=
  match readLoop buf.length 0 s with
  | none => (0, s ++ buf.drop s.length, [])
  | some n => (n, store buf (s.take n), s.drop n)

end Psnet.Net
