/-
What the tracker makes of the requests it is sent.

A handler is handed the arguments as the request states them: nothing of
what the connection's buffer and array held before enters the calls it
makes (`processList_argument` and its siblings).
-/
import Psnet.Parse.Written
import Psnet.Server.Connection
import Psnet.Tracker.Service

namespace Psnet.Tracker

open Net Jsmn Parse Forest DeltaList Client Server

variable {mi : MsgInfo} {a : Lab} {kids rest : Forest Lab} {num : Nat}
  {v : Piece}

-- ================================================================ the handlers

theorem processList_argument (inet : Inet) (clientTable : Table Sockaddr)
    (r : List JsmnTok)
    (hz : zipParse mi.msg num = .ok (.node a kids rest))
    (h : Argument mi.msg kids (ascii "num") v) :
    ∃ mi', processList inet clientTable mi (tokens (tree a kids) ++ r)
      = (sendClients inet clientTable none v.content).map
          fun wire => (mi', wire) := by
  have hw := (zipParse_good hz).2.2.1
  obtain ⟨p, hp, hv⟩ := h
  refine ⟨{ mi with msg := mi.msg.set p.val.stop 0 }, ?_⟩
  simp only [processList, jsmnGetValue_spec mi.msg (ascii "num") rfl hw, hp,
    bind, Option.bind_some, if_neg (answer_ne p), tokenAt_answer hw hp,
    Lab.tok, setChar_nat, stringAt_nat, hv.cut]
  cases sendClients inet clientTable none v.content <;> rfl

theorem processDiscover_argument (inet : Inet)
    (clientTable : Table Sockaddr) (r : List JsmnTok) {n w : List UInt8}
    {iport : UInt16}
    (hz : zipParse mi.msg num = .ok (.node a kids rest))
    (hnum : Argument mi.msg kids (ascii "num") (.word n))
    (hport : Argument mi.msg kids (ascii "port") (.word w))
    (hdisc : discoverPort w = some iport) :
    ∃ mi', processDiscover inet clientTable mi (tokens (tree a kids) ++ r)
      = (sendClients inet clientTable (some (setInPort mi.addr (htons iport)))
          n).map fun wire => (mi', wire) := by
  -- the port is looked up in the text with the number cut off, and the
  -- number is read from the text with the port cut off as well
  have hw := (zipParse_good hz).2.2.1
  obtain ⟨p, q, hp, hq, hqw, hpn⟩ :=
    hnum.cut (zipParse_good hz).1.2.1 hport (by decide)
  refine ⟨{ mi with
    msg := (mi.msg.set p.val.stop 0).set q.val.stop 0
    addr := setInPort mi.addr (htons iport) }, ?_⟩
  simp only [processDiscover, jsmnGetValue_spec _ (ascii "num") rfl hw,
    jsmnGetValue_spec _ (ascii "port") rfl hw, hp, hq, bind,
    Option.bind_some, if_neg (answer_ne _), tokenAt_answer hw hp,
    tokenAt_answer hw hq, Lab.tok, setChar_nat, stringAt_nat, hqw, hpn,
    hdisc]
  cases sendClients inet clientTable _ n <;> rfl

/-- `process_connect` and `process_disconnect`. -/
private theorem processPort_argument
    (act : Table Sockaddr → Sockaddr → Text →
      Option (Int × Table Sockaddr))
    {clientTable : Table Sockaddr} {r : List JsmnTok}
    (hz : zipParse mi.msg num = .ok (.node a kids rest)) {p : Pair}
    (hp : findPair mi.msg (ascii "port") kids = some p) :
    processPort act clientTable mi (tokens (tree a kids) ++ r)
      = (act clientTable mi.addr (valText mi.msg p.val)).map Prod.snd := by
  have hgood := zipParse_good hz
  have hw := hgood.2.2.1
  have hle := ((pairs_spans hgood.1.2.1).1 p (findPair_mem hp).1).2.2.1
  simp only [processPort, jsmnGetValue_spec mi.msg (ascii "port") rfl hw, hp,
    bind, Option.bind_some, if_neg (answer_ne p), tokenAt_answer hw hp,
    Lab.tok, setChar_nat, stringAt_nat, cstr_cut hle]
  cases act clientTable mi.addr (valText mi.msg p.val) <;> rfl

-- ================================================================= dispatching

/-- The tokens `handle_message` hands to a handler. -/
theorem handleMessage_request (clientTable : Table Sockaddr)
    {q : Request UdpMethod}
    (hq : request udpCommands mi.msg JSMN_NTOK = some q) :
    ∃ r, handleMessage clientTable mi = match q.method with
      | .connect =>
          processConnect clientTable mi (tokens (tree q.obj q.kids) ++ r)
      | .disconnect =>
          processDisconnect clientTable mi
            (tokens (tree q.obj q.kids) ++ r) := by
  obtain ⟨i, t, r, hi, hparse, ht, hc⟩ :=
    request_dispatch zeroTokens (by simp [zeroTokens]) hq
  refine ⟨r, ?_⟩
  simp only [handleMessage, hparse, bind, Option.bind_some, if_neg hi, ht,
    hc]
  cases q.method <;> rfl

/-- A datagram with a method and a port. -/
theorem handleMessage_port (clientTable : Table Sockaddr) (mi : MsgInfo)
    {q : Request UdpMethod}
    (hq : request udpCommands mi.msg JSMN_NTOK = some q) {p : Pair}
    (hp : findPair mi.msg (ascii "port") q.kids = some p) :
    handleMessage clientTable mi = match q.method with
      | .connect =>
          (addClient clientTable mi.addr (valText mi.msg p.val)).map Prod.snd
      | .disconnect =>
          (removeClient clientTable mi.addr (valText mi.msg p.val)).map
            Prod.snd := by
  obtain ⟨r, hr⟩ := handleMessage_request clientTable hq
  have hz := (request_some hq).1
  rw [hr]
  cases q.method with
  | connect => exact processPort_argument addClient hz hp
  | disconnect => exact processPort_argument removeClient hz hp

end Psnet.Tracker
