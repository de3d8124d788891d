/-
The loop of a TCP connection, which the router and the tracker have in
common.

Both copies of `handle_connection` read a message, parse it into the
token array they keep for the whole connection, and dispatch it by its
method; they differ in the commands and in the texts of their errors.
Clearing up after the loop is in `Server.Workers`.
-/
import Psnet.Client.Model
import Psnet.Net.Response
import Psnet.Parse.Model

namespace Psnet.Server

open Net Jsmn Parse Client

/-- What a connection's thread keeps between requests. -/
structure Conn where
  mi : MsgInfo
  tok : List JsmnTok
  ntok : Nat

/-- What one request does: the handler it is dispatched to, the bytes
sent back, the datagrams sent where it is flooded, and whether the
connection stays open. -/
structure Reply (μ : Type) where
  method : Option μ
  wire : Text
  flood : Option (List UdpSend)
  keep : Bool
  deriving DecidableEq, Repr

/-- A server: its commands in the order they are tested, its answers to
a request without a method and to one with an unknown method, and its
handlers. -/
structure Service (σ μ : Type) where
  commands : List (String × μ)
  noMethod : Text
  badMethod : Text
  process : σ → MsgInfo → List JsmnTok → μ →
    Option (σ × MsgInfo × Text × Option (List UdpSend))

/-- The loop body of `handle_connection`, after a message was read into
the buffer. -/
def Service.handleRequest {σ μ : Type} (sv : Service σ μ) (st : σ)
    (c : Conn) : Option (σ × Conn × Reply μ) := do
  let (method, tok, ntok) ← parseMessage c.mi.msg c.tok c.ntok
  if method = -1 then
    return (st, ⟨c.mi, tok, ntok⟩, ⟨none, sv.noMethod, none, false⟩)
  else do
    let t ← tokenAt tok method
    match ← cmdEqual c.mi.msg t sv.commands with
    | none =>
        return (st, ⟨c.mi, tok, ntok⟩, ⟨none, sv.badMethod, none, false⟩)
    | some m => do
        let (st, mi, wire, sent) ← sv.process st c.mi tok m
        return (st, ⟨mi, tok, ntok⟩, ⟨some m, wire, sent, true⟩)

/-- The token array of a handler, zero-filled. -/
def zeroTokens : List JsmnTok := List.replicate JSMN_NTOK JsmnTok.zero

end Psnet.Server
