/-
One request on a connection, in terms of the parse of its text, and what
a connection keeps between requests.

`Service.Lawful` is what a server's handlers must satisfy for that: they
leave the peer and the size of the buffer alone, and answer from the
tokens of the request and the C string in the buffer.

# What is kept

`Open` says of a connection that it is one `handle_connection` has at the
top of its loop: its peer, the size of its buffer and of its array are as
accepted, and it has no more tokens left than the array has. A request
that is served keeps it, whatever it is.
-/
import Psnet.Parse.Message
import Psnet.Server.Model
import Psnet.Server.Receive

namespace Psnet.Server

open Net Jsmn Parse Forest Client

variable {σ μ : Type} {sv : Service σ μ} {st st' : σ} {c c' : Conn}
  {r : Reply μ}

-- ================================================================= one request

/-- A request that was read is handed the tokens of its text. -/
theorem handleRequest_request (sv : Service σ μ) (st : σ)
    {q : Request μ} (hn : c.ntok ≤ c.tok.length)
    (hq : request sv.commands c.mi.msg c.ntok = some q) :
    ∃ r tok n, sv.handleRequest st c
      = (sv.process st c.mi (tokens (tree q.obj q.kids) ++ r)
          q.method).map fun p => (p.1, ⟨p.2.1, tok, n⟩,
            ⟨some q.method, p.2.2.1, p.2.2.2, true⟩) := by
  obtain ⟨i, t, r, hi, hparse, ht, hc⟩ := request_dispatch _ hn hq
  refine ⟨r, tokens (tree q.obj q.kids) ++ r,
    (Forest.node q.obj q.kids q.rest).count, ?_⟩
  simp only [Service.handleRequest, hparse, bind, Option.bind_some,
    if_neg hi, ht, hc]
  cases sv.process st c.mi _ q.method <;> rfl

/-- A message that `parse_message` refuses ends the connection. -/
theorem handleRequest_refused {tok : List JsmnTok} {n : Nat}
    (h : parseMessage c.mi.msg c.tok c.ntok = some (-1, tok, n)) :
    sv.handleRequest st c
      = some (st, ⟨c.mi, tok, n⟩, ⟨none, sv.noMethod, none, false⟩) := by
  simp only [Service.handleRequest, h, bind, Option.bind_some, ↓reduceIte]
  rfl

/-- So does one whose method is no command. -/
theorem handleRequest_unknown {i : Int} {tok : List JsmnTok} {n : Nat}
    {t : JsmnTok} (h : parseMessage c.mi.msg c.tok c.ntok = some (i, tok, n))
    (hi : i ≠ -1) (ht : tokenAt tok i = some t)
    (hc : cmdEqual c.mi.msg t sv.commands = some none) :
    sv.handleRequest st c
      = some (st, ⟨c.mi, tok, n⟩, ⟨none, sv.badMethod, none, false⟩) := by
  simp only [Service.handleRequest, h, bind, Option.bind_some, if_neg hi, ht,
    hc]
  rfl

-- ============================================================= lawful handlers

/-- What a handler leaves of the message: its length, its sender's host
and the size of its buffer. -/
structure Keeps (mi mi' : MsgInfo) : Prop where
  len : mi'.len = mi.len
  host : SameHost mi'.addr mi.addr
  size : mi'.msg.length = mi.msg.length

theorem Keeps.refl (mi : MsgInfo) : Keeps mi mi := ⟨rfl, .refl _, rfl⟩

/-- Two messages a handler must not tell apart, when it is given the
tokens of `kids`: the same host sent them, and the buffers hold the same
C string, in which the values of `kids` stand. -/
structure ReadsAlike (kids : Forest Lab) (mi mi' : MsgInfo) : Prop where
  host : SameHost mi.addr mi'.addr
  text : cstr mi.msg = cstr mi'.msg
  written : All (Written mi.msg) kids ∧ All (Written mi'.msg) kids
  spans : ∃ lo hi, LabSpans lo kids hi ∧ hi ≤ (cstr mi.msg).length

/-- A server whose handlers keep what a connection needs, and answer
from what they are to read. -/
structure Service.Lawful (sv : Service σ μ) : Prop where
  names : ∀ cmd ∈ sv.commands, ∀ b ∈ ascii cmd.1, b ≠ 0
  errors : sv.noMethod ≠ sv.badMethod
  keeps : ∀ {st st' : σ} {mi mi' : MsgInfo} {tok : List JsmnTok} {m : μ}
    {wire : Text} {sent : Option (List UdpSend)},
    sv.process st mi tok m = some (st', mi', wire, sent) → Keeps mi mi'
  reads : ∀ (st : σ) {mi mi' : MsgInfo} {a : Lab} {kids : Forest Lab}
    (r r' : List JsmnTok) (m : μ), ReadsAlike kids mi mi' →
    (sv.process st mi (tokens (tree a kids) ++ r) m).map (·.2.2.1)
      = (sv.process st mi' (tokens (tree a kids) ++ r') m).map (·.2.2.1)

-- =================================================================== connections

/-- What a connection keeps from request to request. -/
structure Open (mi : MsgInfo) (c : Conn) : Prop where
  mi : Keeps mi c.mi
  tok : c.tok.length = JSMN_NTOK
  room : c.ntok ≤ JSMN_NTOK

theorem Open.request (hsv : sv.Lawful) {mi : MsgInfo} (h : Open mi c)
    (hr : sv.handleRequest st c = some (st', c', r)) : Open mi c' := by
  obtain ⟨⟨hlen, hhost, hsize⟩, htok, hroom⟩ := h
  simp only [Service.handleRequest, bind, Option.bind_eq_some_iff] at hr
  obtain ⟨⟨method, tok, ntok⟩, hparse, hr⟩ := hr
  obtain ⟨htok', hroom'⟩ := parseMessage_keeps (htok ▸ hroom) hparse
  have hbase : Open mi ⟨c.mi, tok, ntok⟩ :=
    ⟨⟨hlen, hhost, hsize⟩, htok'.trans htok, Nat.le_trans hroom' hroom⟩
  split at hr
  · cases hr
    exact hbase
  · simp only [Option.bind_eq_some_iff] at hr
    obtain ⟨t, -, m, -, hr⟩ := hr
    cases m with
    | none =>
        cases hr
        exact hbase
    | some m =>
        simp only [Option.bind_eq_some_iff] at hr
        obtain ⟨⟨st₁, mi₁, wire, sent⟩, hp, hr⟩ := hr
        cases hr
        obtain ⟨h₁, h₂, h₃⟩ := hsv.keeps hp
        exact ⟨⟨h₁.trans hlen, h₂.trans hhost, h₃.trans hsize⟩,
          hbase.tok, hbase.room⟩

/-- The connection with the next message in its buffer. -/
def Conn.read (c : Conn) (buf : List UInt8) : Conn :=
  { c with mi := { c.mi with msg := buf } }

/-- A connection at its start, in the memory of `old`. -/
def Conn.fresh (old : MsgInfo) (peer : Sockaddr) (tok : List JsmnTok) :
    Conn := ⟨tcpAccept old peer, tok, JSMN_NTOK⟩

/-- The loop of `handle_connection`, with the buffer as each `tcp_read_msg`
leaves it until one of them fails: the state it leaves where no other thread
works, and what `out` says its answers send. -/
def Service.serve {δ : Type} (sv : Service σ μ) (out : Reply μ → List δ) :
    σ → Conn → List (List UInt8) → Option (σ × List δ)
  | st, _, [] => some (st, [])
  | st, c, buf :: bufs => do
      let (st, c, r) ← sv.handleRequest st (c.read buf)
      let (st, sent) ← if r.keep then sv.serve out st c bufs else some (st, [])
      return (st, out r ++ sent)

/-- The connections a server serves for a peer: a fresh one, and what
requests that keep it open leave of it. Between requests the tables may
become anything. -/
inductive Service.Serves (sv : Service σ μ) (old : MsgInfo)
    (peer : Sockaddr) : Conn → Prop
  | accept (tok : List JsmnTok) (h : tok.length = JSMN_NTOK) :
      Serves sv old peer (.fresh old peer tok)
  | request {c c' : Conn} {st st' : σ} {s buf rest : List UInt8} {n : Nat}
      {r : Reply μ} (serves : Serves sv old peer c)
      (read : tcpReadMsg s c.mi.msg = (n, buf, rest)) (pos : 0 < n)
      (handled : sv.handleRequest st (c.read buf) = some (st', c', r))
      (keep : r.keep = true) : Serves sv old peer c'

theorem Open.read {mi : MsgInfo} {buf : List UInt8} (h : Open mi c)
    (hsize : buf.length = c.mi.msg.length) : Open mi (c.read buf) :=
  ⟨⟨h.mi.len, h.mi.host, hsize.trans h.mi.size⟩, h.tok, h.room⟩

theorem Service.Serves.isOpen (hsv : sv.Lawful) {old : MsgInfo}
    {peer : Sockaddr} (h : sv.Serves old peer c) :
    Open (tcpAccept old peer) c := by
  induction h with
  | accept tok h => exact ⟨.refl _, h, Nat.le_refl _⟩
  | @request c c' st st' s buf rest n r _ read pos handled _ ih =>
      obtain ⟨h₁, h₂, h₃⟩ := tcpReadMsg_pos read pos
      refine (ih.read ?_).request hsv handled
      rw [h₃, length_store (by omega)]

end Psnet.Server
