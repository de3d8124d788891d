/-
The requests a node sends to a tracker (common/protocol.c), and what the
tracker reads from them.

Each request is printed into an array whose size was counted by hand,
and what is sent is the length the text would have in full: the array
holds it only where the text fits (`passedWhole_iff`). All but one have
room for every value; the array of `psnet_raw_request_list` was counted
for a number of four characters (`request_round_trip`).

# What comes across

What the tracker reads from the request is the request: its command, and
its arguments as the numbers they were printed from (`Asking.understood`).
-/
import Psnet.Net.Delimiter
import Psnet.Server.Receive
import Psnet.Tracker.Ports
import Psnet.Tracker.Requests

namespace Psnet.Protocol

open Net Jsmn Parse DeltaList Client Server Tracker

/-- What is passed to the transport: a buffer, and how much of it is to
be sent. -/
structure Passed where
  msg : List UInt8
  len : Nat
  deriving DecidableEq, Repr

/-- `vsnprintf` of a text into an array of `size` bytes: what it stores,
and what it returns. -/
def vsnprintf (size : Nat) (s : Text) : Passed :=
  ⟨s.take (size - 1) ++ [0], s.length⟩

/-- `psnet_requestf`: what it passes to `psnet_request`. -/
def psnetRequestf (size : Nat) (s : Text) : Passed := vsnprintf size s

/-- `udp_sendf`: what it passes to `udp_send`. -/
def udpSendf (size : Nat) (s : Text) : Passed := vsnprintf size s

-- =================================================================== the builders

/-- `{"method":"discover","num":%d,"port":%d}` and the delimiter. -/
def discoverFmt (num port : Int) : Text :=
  ascii "\x7b\"method\":\"discover\",\"num\":" ++ decimal num
    ++ ascii ",\"port\":" ++ decimal port ++ ascii "\x7d\r\n\r\n"

/-- `{"method":"list","num":%d}` and the delimiter. -/
def listFmt (num : Int) : Text :=
  ascii "\x7b\"method\":\"list\",\"num\":" ++ decimal num
    ++ ascii "\x7d\r\n\r\n"

/-- `{"method":"connect","port":%d}`. -/
def connectFmt (port : Int) : Text :=
  ascii "\x7b\"method\":\"connect\",\"port\":" ++ decimal port ++ ascii "\x7d"

/-- `{"method":"disconnect","port":%d}`. -/
def disconnectFmt (port : Int) : Text :=
  ascii "\x7b\"method\":\"disconnect\",\"port\":" ++ decimal port
    ++ ascii "\x7d"

/-- `psnet_raw_request_discover`. -/
def psnetRawRequestDiscover (num port : Int) : Passed :=
  psnetRequestf (40 + 40 + 5) (discoverFmt num port)

/-- `psnet_raw_request_list`. -/
def psnetRawRequestList (num : Int) : Passed :=
  psnetRequestf (28 + 5) (listFmt num)

/-- `psnet_send_connect`; an `in_port_t` is printed as an `int`. -/
def psnetSendConnect (port : UInt16) : Passed :=
  udpSendf (32 + 5) (connectFmt port.toNat)

/-- `psnet_send_disconnect`. -/
def psnetSendDisconnect (port : UInt16) : Passed :=
  udpSendf (35 + 5) (disconnectFmt port.toNat)

/-- The requests with a number or a port. -/
inductive Asking
  | discover (num : Int32) (port : UInt16)
  | list (num : Int32)
  | connect (port : UInt16)
  | disconnect (port : UInt16)

/-- The text of a request. -/
def Asking.text : Asking → Text
  | .discover num port => discoverFmt num.toInt port.toNat
  | .list num => listFmt num.toInt
  | .connect port => connectFmt port.toNat
  | .disconnect port => disconnectFmt port.toNat

/-- What is passed for it. -/
def Asking.passed : Asking → Passed
  | .discover num port => psnetRawRequestDiscover num.toInt port.toNat
  | .list num => psnetRawRequestList num.toInt
  | .connect port => psnetSendConnect port
  | .disconnect port => psnetSendDisconnect port

/-- The bytes passed are the text, and not its terminator. -/
def PassedWhole (p : Passed) (s : Text) : Prop :=
  p.len = s.length ∧ p.msg.take p.len = s ∧ 0 ∉ s

/-- The tracker reads the bytes of a TCP request as one message, and on a
new connection, in any memory, it comes to the handler of `m`, which
answers `reply`. -/
def Dispatched (wire : List UInt8) (m : Tracker.Method)
    (reply : Inet → Table Sockaddr → Sockaddr → Option Text) : Prop :=
  ∀ (inet : Inet) (table : Table Sockaddr) (old : MsgInfo)
    (peer : Sockaddr) (tok : List JsmnTok) (more : List UInt8),
    old.msg.length = MSG_MAX → tok.length = JSMN_NTOK →
    ∃ buf c', tcpReadMsg (wire ++ more) old.msg = (wire.length, buf, more)
      ∧ (Tracker.service inet).handleRequest table
          ((Conn.fresh old peer tok).read buf)
        = (reply inet table peer).map fun text =>
            (table, c', ⟨some m, text, none, true⟩)

/-- What the tracker makes of the bytes is the request, with the number
and the port it was made with. -/
def Understood (wire : List UInt8) : Asking → Prop
  | .discover num port => ∃ s, strtol s = (num.toInt, [])
      ∧ Dispatched wire .discover fun inet table peer =>
          sendClients inet table (some (setInPort peer (htons port))) s
  | .list num => ∃ s, strtol s = (num.toInt, [])
      ∧ Dispatched wire .list fun inet table _ =>
          sendClients inet table none s
  | .connect port => ∀ (table : Table Sockaddr) (old : MsgInfo) sender,
      old.msg.length = MSG_MAX →
      handleMessage table (udpReceive old sender wire)
        = (deltaUpdate clientConf table
            (setInPort (recvAddr old.addr sender) (htons port))).map
              Prod.snd
  | .disconnect port => ∀ (table : Table Sockaddr) (old : MsgInfo) sender,
      old.msg.length = MSG_MAX →
      handleMessage table (udpReceive old sender wire)
        = (deltaRemove clientConf table
            (setInPort (recvAddr old.addr sender) (htons port))).map
              (·.2.1)

/-- A request is passed whole and understood. -/
def RoundTrip (q : Asking) : Prop :=
  PassedWhole q.passed q.text ∧ Understood (q.passed.msg.take q.passed.len) q

-- ================================================================== the texts

/-- What the buffer holds is the text exactly where it fits. -/
theorem passedWhole_iff {size : Nat} {s : Text} (hs : 0 ∉ s) (h : 0 < size) :
    PassedWhole (vsnprintf size s) s ↔ s.length < size := by
  unfold PassedWhole vsnprintf
  constructor
  · intro h
    obtain ⟨-, htake, -⟩ := h
    by_contra hge
    have hnul : 0 ∈ (s.take (size - 1) ++ [0]).take s.length := by
      refine List.mem_of_getElem? (i := size - 1) ?_
      rw [List.getElem?_take_of_lt (by omega),
        List.getElem?_append_right (List.length_take_le ..),
        List.length_take_of_le (by omega), Nat.sub_self]
      rfl
    rw [htake] at hnul
    exact hs hnul
  · intro hlt
    have hwhole : s.take (size - 1) = s := List.take_of_length_le (by omega)
    refine ⟨rfl, ?_, hs⟩
    simp only [hwhole, List.take_left]

/-- The members of a request. -/
def Asking.members : Asking → Members
  | .discover num port => [("method", .string (ascii "discover")),
      ("num", .word (decimal num.toInt)),
      ("port", .word (decimal port.toNat))]
  | .list num => [("method", .string (ascii "list")),
      ("num", .word (decimal num.toInt))]
  | .connect port => [("method", .string (ascii "connect")),
      ("port", .word (decimal port.toNat))]
  | .disconnect port => [("method", .string (ascii "disconnect")),
      ("port", .word (decimal port.toNat))]

/-- What follows the object. -/
def Asking.after : Asking → Text
  | .discover .. | .list .. => delim
  | .connect .. | .disconnect .. => []

/-- The members of a request need no escapes. -/
theorem Asking.plain (q : Asking) : PlainMembers q.members := by
  have hmethod : isBody (ascii "method") = true := by decide +kernel
  have hnum : isBody (ascii "num") = true := by decide +kernel
  have hport : isBody (ascii "port") = true := by decide +kernel
  have hname : ∀ w ∈ ["discover", "list", "connect", "disconnect"],
      (Piece.string (ascii w)).Plain := by
    show ∀ w ∈ _, isBody (ascii w) = true
    decide +kernel
  cases q with
  | discover num port =>
      exact .cons hmethod (hname _ (by simp)) (.cons hnum (plain_decimal _)
        (.cons hport (plain_decimal _) plainMembers_nil))
  | list num =>
      exact .cons hmethod (hname _ (by simp))
        (.cons hnum (plain_decimal _) plainMembers_nil)
  | connect port =>
      exact .cons hmethod (hname _ (by simp))
        (.cons hport (plain_decimal _) plainMembers_nil)
  | disconnect port =>
      exact .cons hmethod (hname _ (by simp))
        (.cons hport (plain_decimal _) plainMembers_nil)

/-- What a request begins with, up to its first argument. -/
def opening (method key : String) : Text :=
  LBRACE :: QUOTE :: (ascii "method" ++ QUOTE :: 58 :: QUOTE
    :: (ascii method ++ QUOTE :: 44 :: QUOTE :: (ascii key ++ [QUOTE, 58])))

/-- A request starts with its method and its first argument. -/
private theorem opening_eq (method key : String) (w : List UInt8)
    (ms : Members) :
    flatText (("method", .string (ascii method)) :: (key, .word w) :: ms)
      = opening method key ++ (w ++ (text (flat [44] ms) ++ [RBRACE])) := by
  have hcomma : ascii "," = [44] := by decide
  simp only [flatText, text_flat, Piece.write, hcomma, opening,
    List.append_assoc, List.cons_append, List.nil_append]

/-- The text of a request is that of a flat object. -/
theorem Asking.text_eq (q : Asking) :
    q.text = flatText q.members ++ q.after := by
  have hend : ascii "\x7d\r\n\r\n" = RBRACE :: delim := by decide
  have hbrace : ascii "\x7d" = [RBRACE] := by decide
  cases q with
  | discover num port =>
      have hopen : ascii "\x7b\"method\":\"discover\",\"num\":"
          = opening "discover" "num" := by decide
      have hport : ascii ",\"port\":"
          = 44 :: QUOTE :: (ascii "port" ++ [QUOTE, 58]) := by decide
      simp only [Asking.text, discoverFmt, Asking.members, Asking.after,
        opening_eq, hopen, hport, hend, text_flat, text_flat_nil,
        Piece.write, List.append_assoc, List.cons_append, List.nil_append]
  | list num =>
      have hopen : ascii "\x7b\"method\":\"list\",\"num\":"
          = opening "list" "num" := by decide
      simp only [Asking.text, listFmt, Asking.members, Asking.after,
        opening_eq, hopen, hend, text_flat_nil, List.append_assoc,
        List.cons_append, List.nil_append]
  | connect port =>
      have hopen : ascii "\x7b\"method\":\"connect\",\"port\":"
          = opening "connect" "port" := by decide
      simp only [Asking.text, connectFmt, Asking.members, Asking.after,
        opening_eq, hopen, hbrace, text_flat_nil, List.append_assoc,
        List.nil_append, List.append_nil]
  | disconnect port =>
      have hopen : ascii "\x7b\"method\":\"disconnect\",\"port\":"
          = opening "disconnect" "port" := by decide
      simp only [Asking.text, disconnectFmt, Asking.members, Asking.after,
        opening_eq, hopen, hbrace, text_flat_nil, List.append_assoc,
        List.nil_append, List.append_nil]

/-- No text of a request contains a NUL, and none a CR but the
delimiter's. -/
theorem Asking.chars (q : Asking) {c : UInt8} (hc : c < 32) :
    c ∉ flatText q.members := by
  have hletters : ∀ w ∈ ["method", "num", "port", "discover", "list",
      "connect", "disconnect"], c ∉ ascii w := by
    have hall : ∀ w ∈ ["method", "num", "port", "discover", "list",
        "connect", "disconnect"], ∀ d ∈ ascii w, ¬ d < 32 := by
      decide +kernel
    exact fun w hw hmem => hall w hw c hmem hc
  refine control_notMem hc q.plain (fun m hm => ?_) fun m hm s hs => ?_
  · apply hletters
    cases q <;>
      simp only [Asking.members, List.mem_cons, List.not_mem_nil,
        or_false] at hm <;>
      rcases hm with rfl | rfl | rfl <;> simp
  · obtain ⟨w, hw, rfl⟩ : ∃ w ∈ ["method", "num", "port", "discover",
        "list", "connect", "disconnect"], s = ascii w := by
      cases q <;>
        simp only [Asking.members, List.mem_cons, List.not_mem_nil,
          or_false] at hm <;>
        rcases hm with rfl | rfl | rfl <;> cases hs <;>
        exact ⟨_, by simp, rfl⟩
    exact hletters _ hw

/-- How long the texts are. -/
theorem Asking.length_text (q : Asking) : q.text.length = match q with
    | .discover num port => 40 + (decimal num.toInt).length
        + (decimal port.toNat).length
    | .list num => 28 + (decimal num.toInt).length
    | .connect port => 28 + (decimal port.toNat).length
    | .disconnect port => 31 + (decimal port.toNat).length := by
  have hend : (ascii "\x7d\r\n\r\n").length = 5 := by decide
  cases q with
  | discover num port =>
      have hopen : (ascii "\x7b\"method\":\"discover\",\"num\":").length
          = 27 := by decide
      have hport : (ascii ",\"port\":").length = 8 := by decide
      simp only [Asking.text, discoverFmt, List.length_append, hopen, hport,
        hend]
      omega
  | list num =>
      have hopen : (ascii "\x7b\"method\":\"list\",\"num\":").length
          = 23 := by decide
      simp only [Asking.text, listFmt, List.length_append, hopen, hend]
      omega
  | connect port =>
      have hopen : (ascii "\x7b\"method\":\"connect\",\"port\":").length
          = 27 := by decide
      have hbrace : (ascii "\x7d").length = 1 := by decide
      simp only [Asking.text, connectFmt, List.length_append, hopen, hbrace]
      omega
  | disconnect port =>
      have hopen : (ascii
          "\x7b\"method\":\"disconnect\",\"port\":").length = 30 := by
        decide
      have hbrace : (ascii "\x7d").length = 1 := by decide
      simp only [Asking.text, disconnectFmt, List.length_append, hopen,
        hbrace]
      omega

/-- A signed number takes at most eleven characters. -/
theorem length_int32 (num : Int32) : (decimal num.toInt).length ≤ 11 := by
  have hlow := num.le_toInt
  have hhigh := num.toInt_lt
  exact (length_decimal_le (by decide)).mpr ⟨by omega, by omega⟩

/-- A port takes at most five characters. -/
theorem length_port (port : UInt16) : (decimal port.toNat).length ≤ 5 := by
  have := port.toNat_lt
  exact (length_decimal_le (by decide)).mpr ⟨by omega, by omega⟩

/-- Every request is shorter than a message buffer. -/
theorem Asking.length_lt (q : Asking) : q.text.length < MSG_MAX := by
  have := q.length_text
  unfold MSG_MAX
  cases q with
  | discover num port =>
      have := length_int32 num
      have := length_port port
      simp only at *
      omega
  | list num =>
      have := length_int32 num
      simp only at *
      omega
  | connect port | disconnect port =>
      have := length_port port
      simp only at *
      omega

-- ================================================================ what is read

/-- A printed number is read back whole. -/
private theorem strtol_int32 (num : Int32) :
    strtol (decimal num.toInt) = (num.toInt, []) := by
  have := num.le_toInt
  have := num.toInt_lt
  exact strtol_decimal (by unfold LONG_MIN; omega)
    (by unfold LONG_MAX; omega)

/-- A printed port is read back, and is within the bounds. -/
private theorem strtol_port (port : UInt16) :
    strtol (decimal port.toNat) = ((port.toNat : Int), [])
      ∧ ¬ ((port.toNat : Int) < PORT_MIN ∨ PORT_MAX < port.toNat)
      ∧ UInt16.ofInt port.toNat = port := by
  have := port.toNat_lt
  refine ⟨strtol_decimal (by unfold LONG_MIN; omega)
    (by unfold LONG_MAX; omega), ?_, ?_⟩
  · unfold PORT_MIN PORT_MAX
    omega
  · rw [← UInt16.toNat_inj, UInt16.ofInt, UInt16.toNat_ofNat']
    omega

/-- A client is stored with the port that was printed. -/
private theorem makeClient_port (addr : Sockaddr) (port : UInt16) :
    makeClient addr (decimal port.toNat)
      = some (setInPort addr (htons port)) :=
  makeClient_denotes addr (denotes_decimal _)

/-- A printed port is read as the requester's. -/
private theorem discoverPort_port (port : UInt16) :
    discoverPort (decimal port.toNat) = some port := by
  obtain ⟨hstr, hin, hof⟩ := strtol_port port
  have hatoi : atoi (decimal port.toNat) = port.toNat := by
    have := port.toNat_lt
    rw [atoi, hstr, toInt32]
    omega
  simp only [discoverPort, hatoi, if_neg hin, hof]

/-- The name of the method. -/
def Asking.name : Asking → String
  | .discover .. => "discover"
  | .list _ => "list"
  | .connect _ => "connect"
  | .disconnect _ => "disconnect"

/-- The method of a request is its name. -/
theorem Asking.method_eq (q : Asking) :
    lookup (ascii "method").isPrefixOf q.members
      = some (.string (ascii q.name)) := by
  cases q <;> simp only [Asking.members, lookup_self, Asking.name]

/-- A request has no NUL. -/
theorem Asking.nul (q : Asking) : 0 ∉ q.text := by
  rw [q.text_eq]
  intro hmem
  rcases List.mem_append.mp hmem with h | h
  · exact q.chars (by decide) h
  · cases q <;> exact absurd h (by simp [Asking.after, delim])

/-- The buffer a request was stored in. -/
theorem Asking.cstr_eq (q : Asking) (buf : List UInt8) :
    cstr (store buf q.text) = flatText q.members ++ q.after := by
  rw [cstr_store, cstr_eq_self q.nul, q.text_eq]

/-- A request is read as one of its method, whatever the buffer held before.
-/
theorem Asking.request_eq {μ : Type} (q : Asking) (buf : List UInt8)
    {cmds : List (String × μ)} {m : μ}
    (hm : named (ascii q.name) cmds = some m) :
    request cmds (store buf q.text) JSMN_NTOK
      = some ⟨m, ⟨.object, 0, (flatText q.members).length⟩,
          flatKids q.members, .nil⟩ := by
  have hafter : Layout q.after := by
    have hlayout : Layout delim ∧ Layout [] := by decide
    cases q with
    | discover num port | list num => exact hlayout.1
    | connect port | disconnect port => exact hlayout.2
  have hroom : 1 + 2 * q.members.length ≤ JSMN_NTOK := by
    cases q <;> simp [Asking.members, JSMN_NTOK]
  have hq := request_flat cmds q.plain hafter (q.cstr_eq buf)
    hroom q.method_eq
  rwa [show (Piece.string (ascii q.name)).content = ascii q.name from rfl,
    hm] at hq

/-- An argument of a request, in the buffer it was stored in. -/
theorem Asking.argument (q : Asking) (buf : List UInt8) {key : List UInt8}
    {v : Piece} (hkey : KeyText key)
    (hv : lookup key.isPrefixOf q.members = some v) :
    Argument (store buf q.text) (flatKids q.members) key v :=
  argument_flat q.plain (q.cstr_eq buf) hkey hv

/-- A TCP request on a new connection is read as one message, and handed
to the handler of its method. -/
theorem Asking.dispatched (q : Asking) (hq : q.after = delim)
    {m : Tracker.Method}
    (hm : named (ascii q.name) Tracker.commands = some m)
    {reply : Inet → Table Sockaddr → Sockaddr → Option Text}
    (hprocess : ∀ inet table (mi : MsgInfo) (buf : List UInt8) (a : Lab) r,
      mi.msg = store buf q.text →
      zipParse mi.msg JSMN_NTOK
        = .ok (Forest.tree a (flatKids q.members)) →
      ∃ mi', process inet table mi
          (tokens (Forest.tree a (flatKids q.members)) ++ r) m
        = (reply inet table mi.addr).map
            fun text => (table, mi', text, none)) :
    Dispatched q.text m reply := by
  intro inet table old peer tok more hold htok
  have hread : tcpReadMsg (q.text ++ more) old.msg
      = (q.text.length, store old.msg q.text, more) := by
    rw [q.text_eq, hq]
    apply tcpReadMsg_plain more (q.chars (by decide))
    rw [← hq, ← q.text_eq, hold]
    exact Nat.le_of_lt q.length_lt
  have hreq := q.request_eq old.msg hm
  obtain ⟨r, toks, n, hhandled⟩ :=
    handleRequest_request (c := (Conn.fresh old peer tok).read
      (store old.msg q.text)) (Tracker.service inet) table
      (Nat.le_of_eq htok.symm) hreq
  obtain ⟨mi', hmi⟩ := hprocess inet table
    ((Conn.fresh old peer tok).read (store old.msg q.text)).mi old.msg _ r
    rfl (request_some hreq).1
  refine ⟨_, ⟨mi', toks, n⟩, hread, ?_⟩
  rw [hhandled, show (Tracker.service inet).process = process inet from rfl,
    hmi]
  show _ = (reply inet table peer).map _
  cases hreply : reply inet table peer with
  | none => simp [Conn.read, Conn.fresh, tcpAccept, hreply]
  | some text => simp [Conn.read, Conn.fresh, tcpAccept, hreply]

/-- A datagram with a printed port is handled with that port. -/
private theorem Asking.handled (q : Asking) {m : UdpMethod} {port : UInt16}
    (hm : named (ascii q.name) udpCommands = some m)
    (hport : lookup (ascii "port").isPrefixOf q.members
      = some (.word (decimal port.toNat)))
    (table : Table Sockaddr) (old : MsgInfo) (sender : Sockaddr) :
    handleMessage table (udpReceive old sender q.text) =
      let client := setInPort (recvAddr old.addr sender) (htons port)
      match m with
      | .connect => (deltaUpdate clientConf table client).map Prod.snd
      | .disconnect => (deltaRemove clientConf table client).map (·.2.1) := by
  have hreq := q.request_eq old.msg hm
  obtain ⟨p, hp, hv⟩ : Argument (store old.msg q.text) (flatKids q.members)
      (ascii "port") (.word (decimal port.toNat)) :=
    q.argument old.msg (by decide) hport
  rw [udpReceive, recvBytes_of_lt q.length_lt,
    handleMessage_port table ⟨_, recvAddr old.addr sender,
      store old.msg q.text⟩ hreq hp]
  cases m with
  | connect =>
      simp only [valText_holds hv, Piece.content, addClient, makeClient_port]
      cases deltaUpdate clientConf table _ <;> rfl
  | disconnect =>
      simp only [valText_holds hv, Piece.content, removeClient,
        makeClient_port]
      cases deltaRemove clientConf table _ <;> rfl

/-- The tracker finds a request as it was written. -/
theorem Asking.understood (q : Asking) : Understood q.text q := by
  have hnum : (ascii "num").isPrefixOf (ascii "method") = false := by decide
  have hport : (ascii "port").isPrefixOf (ascii "num") = false
      ∧ (ascii "port").isPrefixOf (ascii "method") = false := by decide
  cases q with
  | discover num port =>
      refine ⟨decimal num.toInt, strtol_int32 num,
        (Asking.discover num port).dispatched rfl
          (show named (ascii "discover") Tracker.commands
            = some .discover by decide) fun inet table mi buf a r hmsg hz => ?_⟩
      have hn : Argument mi.msg (flatKids (Asking.discover num port).members)
          (ascii "num") (.word (decimal num.toInt)) :=
        hmsg ▸ Asking.argument _ buf (by decide) (by
          simp [Asking.members, lookup_skip, hnum])
      have hp : Argument mi.msg (flatKids (Asking.discover num port).members)
          (ascii "port") (.word (decimal port.toNat)) :=
        hmsg ▸ Asking.argument _ buf (by decide) (by
          simp [Asking.members, lookup_skip, hport])
      obtain ⟨mi', hmi⟩ := processDiscover_argument inet table r hz hn hp
        (discoverPort_port port)
      refine ⟨mi', ?_⟩
      simp only [process, hmi, bind]
      cases sendClients inet table _ _ <;> rfl
  | list num =>
      refine ⟨decimal num.toInt, strtol_int32 num,
        (Asking.list num).dispatched rfl
          (show named (ascii "list") Tracker.commands = some .list by decide)
          fun inet table mi buf a r hmsg hz => ?_⟩
      have hn : Argument mi.msg (flatKids (Asking.list num).members)
          (ascii "num") (.word (decimal num.toInt)) :=
        hmsg ▸ Asking.argument _ buf (by decide) (by
          simp [Asking.members, lookup_skip, hnum])
      obtain ⟨mi', hmi⟩ := processList_argument inet table r hz hn
      refine ⟨mi', ?_⟩
      simp only [process, hmi, bind, Piece.content]
      cases sendClients inet table _ _ <;> rfl
  | connect port =>
      intro table old sender hold
      exact (Asking.connect port).handled
        (show named (ascii "connect") udpCommands = some .connect by decide)
        (by simp [Asking.members, lookup_skip, hport]) table old sender
  | disconnect port =>
      intro table old sender hold
      exact (Asking.disconnect port).handled
        (show named (ascii "disconnect") udpCommands = some .disconnect by
          decide)
        (by simp [Asking.members, lookup_skip, hport]) table old sender

-- ================================================================ the round trip

/-- Every request is passed whole and understood with the number and the
port it was made with, but the request for a list with a number of more
than four characters. -/
theorem request_round_trip (q : Asking) :
    RoundTrip q ↔ ∀ num, q = .list num →
      -999 ≤ num.toInt ∧ num.toInt ≤ 9999 := by
  have hlen := q.length_text
  have hnul := q.nul
  -- the request is understood where it is passed whole
  have hiff : RoundTrip q ↔ PassedWhole q.passed q.text := by
    refine ⟨fun h => h.1, fun h => ⟨h, ?_⟩⟩
    rw [h.2.1]
    exact q.understood
  rw [hiff]
  cases q with
  | discover num port =>
      have hnum := length_int32 num
      have hport := length_port port
      refine iff_of_true ((passedWhole_iff hnul (by decide)).mpr ?_) nofun
      simp only [hlen]
      omega
  | list num =>
      rw [show (Asking.list num).passed
        = vsnprintf (28 + 5) (Asking.list num).text from rfl,
        passedWhole_iff hnul (by decide)]
      simp only at hlen
      have hfit := length_decimal_le (i := num.toInt) (k := 3) (by decide)
      constructor
      · intro hlt num' heq
        cases heq
        have := hfit.mp (by omega)
        omega
      · intro h
        have hrange := h num rfl
        have := hfit.mpr ⟨by omega, by omega⟩
        omega
  | connect port =>
      have hport := length_port port
      refine iff_of_true ((passedWhole_iff hnul (by decide)).mpr ?_) nofun
      simp only [hlen]
      omega
  | disconnect port =>
      have hport := length_port port
      refine iff_of_true ((passedWhole_iff hnul (by decide)).mpr ?_) nofun
      simp only [hlen]
      omega

/-- A list of ten thousand routers cannot be asked for. -/
theorem list_ten_thousand_cut : ¬ RoundTrip (.list 10000) := by
  intro h
  obtain ⟨⟨-, htake, -⟩, -⟩ := h
  revert htake
  decide +kernel

end Psnet.Protocol
