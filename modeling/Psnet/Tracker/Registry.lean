/-
Who is registered with the tracker.

The client table is meant to hold the IP addresses and ports that have
asked to be in it. A client is registered under the address `recvfrom`
stored, and `udp_server_main` has it store `sizeof(struct sockaddr_in)`
bytes. Of an IPv6 address the second half is then whatever the fresh
`msg_info` held: the entry is the sender's just when those bytes happen
to agree (`registered_address`). Runs of datagrams that are stored whole
keep the table that of their senders.

# Keys and addresses

`sockaddr_equals` compares the fields of one family, and is lawful on
addresses of the two families only; the delta list is used by the key
`peerOf` (`DeltaList.Keyed`). `Event.op` is what an event asks for in
terms of senders, `Event.stored` what it does to the table in terms of
addresses as stored; where a datagram is stored whole the two are one
operation. The registry of a run is the timed set its operations leave,
and `tailKept` the condition under which the table follows it.
-/
import Psnet.DeltaList.Keyed
import Psnet.Router.Forward
import Psnet.Tracker.Ports
import Psnet.Tracker.Requests

namespace Psnet.Tracker

open Net Jsmn Parse DeltaList TimedSet Client Server

-- ================================================================= identities

/-- An IP address with a port; of the other families only the name is
looked at. -/
inductive Peer
  | inet (ip : UInt32) (port : UInt16)
  | inet6 (ip : Vector UInt8 16) (port : UInt16)
  | other (family : UInt16)
  deriving DecidableEq

/-- Whom a socket address names. -/
def peerOf (sa : Sockaddr) : Peer :=
  if sa.ssFamily = AF_INET then .inet sa.sinAddr sa.port
  else if sa.ssFamily = AF_INET6 then .inet6 sa.sin6Addr sa.port
  else .other sa.ssFamily

/-- Two addresses are of one peer when they agree in the IP address and the
port. -/
private theorem peerOf_eq_iff {a b : Sockaddr} (ha : a.IsInet) :
    peerOf b = peerOf a ↔ SameIp a b ∧ a.port = b.port := by
  have hne := inet6_ne_inet
  unfold peerOf SameIp
  rcases ha with ha | ha
  · by_cases hb : b.ssFamily = AF_INET
    · simp [ha, hb, hne.symm, eq_comm]
    · have hab : ¬ AF_INET = b.ssFamily := fun h => hb h.symm
      by_cases hb6 : b.ssFamily = AF_INET6 <;>
        simp [ha, hb, hb6, hab, hne, hne.symm]
  · by_cases hb : b.ssFamily = AF_INET6
    · simp [ha, hb, hne, eq_comm]
    · have hab : ¬ AF_INET6 = b.ssFamily := fun h => hb h.symm
      by_cases hb4 : b.ssFamily = AF_INET <;>
        simp [ha, hb, hb4, hab, hne]

/-- `sockaddr_equals` tells apart whom the addresses name, and the hash
does not tell more. -/
theorem clients_keyed : Keyed clientConf peerOf Sockaddr.IsInet where
  equals x y hy := by
    rw [Bool.eq_iff_iff, keyEq, decide_eq_true_eq, peerOf_eq_iff hy,
      ← sockaddrEquals_iff hy, sockaddrEquals_symm]
    rfl
  hash x y h := by
    unfold clientConf clientHash
    unfold peerOf at h
    by_cases hx : x.ssFamily = AF_INET <;>
      by_cases hy : y.ssFamily = AF_INET <;>
      by_cases hx6 : x.ssFamily = AF_INET6 <;>
      by_cases hy6 : y.ssFamily = AF_INET6 <;>
      simp_all
  interval := by decide

-- ================================================================== datagrams

/-- A UDP datagram that asks to be in the table or out of it: the memory
it is received in, where it comes from, and what it says. -/
structure Datagram where
  old : MsgInfo
  sender : Sockaddr
  bytes : List UInt8
  req : Request UdpMethod
  value : Pair
  port : UInt16
  inet : sender.IsInet
  parsed : request udpCommands (udpReceive old sender bytes).msg JSMN_NTOK
    = some req
  argument : findPair (udpReceive old sender bytes).msg (ascii "port")
    req.kids = some value
  numeral : Denotes (valText (udpReceive old sender bytes).msg value.val)
    port.toNat

/-- What the server makes of it. -/
def Datagram.mi (d : Datagram) : MsgInfo :=
  udpReceive d.old d.sender d.bytes

/-- The sender's IP address with the port it gives. -/
def Datagram.peer (d : Datagram) : Sockaddr :=
  setInPort d.sender (htons d.port)

/-- The address the table is searched for. -/
def Datagram.entry (d : Datagram) : Sockaddr :=
  setInPort d.mi.addr (htons d.port)

/-- The bytes `recvfrom` leaves out are the sender's, by chance, or are
not part of its address. -/
def Datagram.Whole (d : Datagram) : Prop :=
  d.sender.ssFamily = AF_INET
    ∨ ∀ i : Fin 16, 8 ≤ i.val → d.old.addr.sin6Addr.get i = d.sender.sin6Addr.get i

/-- The datagram registers its sender: whatever the table, what
`delta_update` is given is the sender's IP address with the port. -/
def Registers (d : Datagram) : Prop :=
  ∃ client, (∀ clientTable, handleMessage clientTable d.mi
      = (deltaUpdate clientConf clientTable client).map Prod.snd)
    ∧ sockaddrEquals client d.peer = true

/-- What the handler makes of the datagram is its entry. -/
theorem Datagram.makeClient (d : Datagram) :
    makeClient d.mi.addr (valText d.mi.msg d.value.val) = some d.entry :=
  makeClient_denotes _ d.numeral

/-- What a datagram does to the table. -/
theorem Datagram.handled (d : Datagram) (clientTable : Table Sockaddr) :
    handleMessage clientTable d.mi = match d.req.method with
      | .connect => (deltaUpdate clientConf clientTable d.entry).map Prod.snd
      | .disconnect =>
          (deltaRemove clientConf clientTable d.entry).map fun r => r.2.1 := by
  rw [handleMessage_port clientTable d.mi d.parsed d.argument]
  simp only [addClient, removeClient, d.makeClient]
  cases d.req.method with
  | connect => cases deltaUpdate clientConf clientTable d.entry <;> rfl
  | disconnect => cases deltaRemove clientConf clientTable d.entry <;> rfl

/-- The address stored is the sender's if the rest of it was there. -/
theorem recvAddr_eq_iff (old sender : Sockaddr) :
    (recvAddr old sender).sin6Addr = sender.sin6Addr
      ↔ ∀ i : Fin 16, 8 ≤ i.val → old.sin6Addr.get i = sender.sin6Addr.get i := by
  simp only [recvAddr, Vector.ext_iff, Vector.getElem_ofFn]
  constructor
  · intro h i hi
    have hi' : old.sin6Addr[i.val] = sender.sin6Addr[i.val] := by
      simpa [Nat.not_lt.mpr hi] using h i.val i.isLt
    exact hi'
  · intro h i hi
    split
    · rfl
    · next hge => exact h ⟨i, hi⟩ (Nat.le_of_not_lt hge)

/-- The second half of an IPv6 address is what the buffer held. -/
theorem Datagram.sin6Addr_iff (d : Datagram) :
    d.entry.sin6Addr = d.peer.sin6Addr ↔ ∀ i : Fin 16, 8 ≤ i.val →
      d.old.addr.sin6Addr.get i = d.sender.sin6Addr.get i :=
  recvAddr_eq_iff d.old.addr d.sender

/-- The family is stored. -/
theorem Datagram.entry_ssFamily (d : Datagram) :
    d.entry.ssFamily = d.sender.ssFamily := by
  rw [Datagram.entry, setInPort_ssFamily]
  exact recvAddr_ssFamily ..

/-- An IPv4 address is stored whole. -/
theorem Datagram.entry_sinAddr (d : Datagram) :
    d.entry.sinAddr = d.sender.sinAddr := by
  rw [Datagram.entry, setInPort_sinAddr]
  exact recvAddr_sinAddr ..

/-- The entry is of one of the two families. -/
theorem Datagram.entry_inet (d : Datagram) : d.entry.IsInet := by
  unfold Sockaddr.IsInet
  rw [d.entry_ssFamily]
  exact d.inet

/-- The IP address is stored whole, but for the second half of an IPv6
address. -/
theorem Datagram.sameIp_iff (d : Datagram) :
    SameIp d.entry d.peer ↔ (d.sender.ssFamily = AF_INET6 →
      d.entry.sin6Addr = d.peer.sin6Addr) := by
  unfold SameIp
  rw [d.entry_ssFamily, d.entry_sinAddr]
  exact ⟨fun h => h.2.2, fun h => ⟨rfl, fun _ => rfl, h⟩⟩

/-- The entry is the sender's when the datagram was stored whole. -/
theorem Datagram.entry_iff (d : Datagram) :
    sockaddrEquals d.entry d.peer = true ↔ d.Whole := by
  have hport : d.entry.port = d.peer.port := by
    rw [Datagram.entry, Datagram.peer, setInPort_port, setInPort_port]
  rw [sockaddrEquals_iff d.entry_inet, d.sameIp_iff, d.sin6Addr_iff,
    Datagram.Whole]
  rcases d.inet with h | h
  · exact iff_of_true ⟨fun h6 => absurd (h6.symm.trans h) inet6_ne_inet, hport⟩
      (Or.inl h)
  · refine ⟨fun hsame => Or.inr (hsame.1 h), ?_⟩
    rintro (h4 | hsame)
    · exact absurd (h.symm.trans h4) inet6_ne_inet
    · exact ⟨fun _ => hsame, hport⟩

/-- Registration as it is meant to be, exactly. -/
theorem registers_iff (d : Datagram) (hd : d.req.method = .connect) :
    Registers d ↔ d.Whole := by
  rw [← d.entry_iff]
  have hconnect : ∀ clientTable, handleMessage clientTable d.mi
      = (deltaUpdate clientConf clientTable d.entry).map Prod.snd :=
    fun clientTable => by rw [d.handled, hd]
  refine ⟨?_, fun h => ⟨d.entry, hconnect, h⟩⟩
  intro h
  obtain ⟨client, hclient, heq⟩ := h
  -- an empty table shows what `delta_update` was given
  obtain ⟨t, ht, hm⟩ := members_first clientConf client
  obtain ⟨t', ht', hm'⟩ := members_first clientConf d.entry
  have hsame := (hclient Table.empty).symm.trans (hconnect Table.empty)
  rw [ht, ht', Option.map_some, Option.map_some, Option.some.injEq] at hsame
  simp only at hsame
  rw [hsame, hm', Option.some.injEq, List.cons.injEq] at hm
  exact hm.1 ▸ heq

-- ======================================================================== runs

/-- A datagram arrives, or a tick passes. -/
inductive Event
  | datagram (d : Datagram)
  | tick

/-- What an event leaves of the client table. -/
def onEvent (clientTable : Table Sockaddr) :
    Event → Option (Table Sockaddr)
  | .datagram d => handleMessage clientTable d.mi
  | .tick => (deltaTick clientConf clientTable).map Prod.fst

/-- What an event asks for. -/
def Event.op : Event → Op Peer
  | .datagram d => match d.req.method with
      | .connect => .update (peerOf d.peer)
      | .disconnect => .remove (peerOf d.peer)
  | .tick => .tick

/-- Who is to be in the table, and for how long: whoever has asked for it
within an interval and has not asked to be taken out since. -/
def registry (evs : List Event) : Timed Peer :=
  TimedSet.run (keyEq id) clientConf.interval.toNat (evs.map Event.op)

/-- The table holds one entry for everybody who is to be in it, and no
other. -/
def HoldsRegistry (evs : List Event) : Prop :=
  ∃ t clients, evs.foldlM onEvent Table.empty = some t
    ∧ members t = some clients
    ∧ clients.map peerOf = (registry evs).map Prod.fst

/-- The state of the table as a set, and of its tail. -/
def tableAfter (evs : List Event) : Abs Peer :=
  (evs.map Event.op).foldl (next (ofKeys clientConf)) Abs.init

/-- No event links a node behind a tail that is off the list. -/
def tailKept (evs : List Event) : Bool :=
  Machine.allOk (next (ofKeys clientConf)) (tailOk (ofKeys clientConf))
    Abs.init (evs.map Event.op)

/-- The operation of an event, on the address stored. -/
def Event.stored : Event → Op Sockaddr
  | .datagram d => match d.req.method with
      | .connect => .update d.entry
      | .disconnect => .remove d.entry
  | .tick => .tick

/-- An event is the operation it asks for, on the address as it is stored.
-/
private theorem onEvent_eq (t : Table Sockaddr) (e : Event) :
    onEvent t e = (DeltaList.step clientConf t e.stored).map Prod.fst := by
  cases e with
  | tick =>
      simp only [onEvent, Event.stored, DeltaList.step]
      cases deltaTick clientConf t <;> rfl
  | datagram d =>
      simp only [onEvent, Event.stored, d.handled]
      cases d.req.method with
      | connect =>
          simp only [DeltaList.step]
          cases deltaUpdate clientConf t d.entry <;> rfl
      | disconnect =>
          simp only [DeltaList.step]
          cases deltaRemove clientConf t d.entry <;> rfl

/-- What is stored is of one of the two families. -/
theorem Event.stored_given (e : Event) :
    Given Sockaddr.IsInet e.stored := by
  cases e with
  | tick => trivial
  | datagram d =>
      simp only [Event.stored]
      cases d.req.method with
      | connect => exact d.entry_inet
      | disconnect => exact d.entry_inet

/-- Stored whole, the operation is that of the sender. -/
theorem Event.onKeys_stored {e : Event}
    (hwhole : ∀ d, e = .datagram d → d.Whole) :
    e.stored.onKeys peerOf = e.op := by
  cases e with
  | tick => rfl
  | datagram d =>
      have hkey : peerOf d.entry = peerOf d.peer := by
        have heq := d.entry_iff.mpr (hwhole d rfl)
        have hkeyed := clients_keyed.equals d.entry d.peer d.inet
        rw [show clientConf.equals d.entry d.peer = true from heq] at hkeyed
        simpa [keyEq] using hkeyed.symm
      simp only [Event.stored, Event.op]
      cases d.req.method with
      | connect => exact congrArg Op.update hkey
      | disconnect => exact congrArg Op.remove hkey

/-- One event. -/
private theorem onEvent_simKeys {t : Table Sockaddr} {b : Abs Peer} {e : Event}
    (h : SimKeys clientConf peerOf Sockaddr.IsInet t b)
    (hwhole : ∀ d, e = .datagram d → d.Whole)
    (hok : tailOk (ofKeys clientConf) b e.op = true) :
    ∃ t', onEvent t e = some t'
      ∧ SimKeys clientConf peerOf Sockaddr.IsInet t'
          (next (ofKeys clientConf) b e.op) := by
  rw [← Event.onKeys_stored hwhole] at hok ⊢
  obtain ⟨t', r, ht', hsim⟩ := simKeys_step clients_keyed h
    e.stored_given hok
  refine ⟨t', ?_, hsim⟩
  rw [onEvent_eq, ht']
  rfl

/-- Runs of events. -/
theorem run_simKeys (evs : List Event) :
    ∀ (t : Table Sockaddr) (b : Abs Peer),
      SimKeys clientConf peerOf Sockaddr.IsInet t b →
      (∀ d, .datagram d ∈ evs → d.Whole) →
      Machine.allOk (next (ofKeys clientConf)) (tailOk (ofKeys clientConf)) b
        (evs.map Event.op) = true →
      ∃ t', evs.foldlM onEvent t = some t'
        ∧ SimKeys clientConf peerOf Sockaddr.IsInet t'
            ((evs.map Event.op).foldl (next (ofKeys clientConf)) b) := by
  induction evs with
  | nil => exact fun t b h _ _ => ⟨t, rfl, h⟩
  | cons e evs ih =>
      intro t b h hwhole hok
      rw [List.map_cons, Machine.allOk, Bool.and_eq_true] at hok
      obtain ⟨t₁, ht₁, h₁⟩ := onEvent_simKeys h
        (fun d hd => hwhole d (hd ▸ List.mem_cons_self ..)) hok.1
      obtain ⟨t', ht', h'⟩ := ih t₁ _ h₁
        (fun d hd => hwhole d (List.mem_cons_of_mem _ hd)) hok.2
      refine ⟨t', ?_, h'⟩
      rw [List.foldlM_cons, ht₁]
      exact ht'

/-- The set of the table is the registry. -/
theorem tableAfter_set (evs : List Event) :
    (tableAfter evs).set = registry evs :=
  set_foldl_next (ofKeys clientConf) (evs.map Event.op) Abs.init

/-- A table that whole datagrams and ticks leave holds who is to be
in it. -/
theorem members_registry {evs : List Event} {t : Table Sockaddr}
    (ht : evs.foldlM onEvent Table.empty = some t)
    (hwhole : ∀ d, .datagram d ∈ evs → d.Whole)
    (hok : tailKept evs = true) :
    ∃ clients, members t = some clients
      ∧ clients.map peerOf = (registry evs).map Prod.fst := by
  obtain ⟨t', ht', hsim⟩ := run_simKeys evs Table.empty Abs.init
    (simKeys_init ..) hwhole hok
  obtain rfl : t' = t := Option.some.inj (ht'.symm.trans ht)
  obtain ⟨clients, hmem, -, hkeys⟩ := hsim.members
  refine ⟨clients, hmem, ?_⟩
  rw [hkeys, ← tableAfter_set]
  rfl

/-- A connect datagram registers its sender exactly when it is stored
whole; and where all are, and none makes the delta list link behind a
tail that is off it, the table is that of the senders after any events:
different senders have different entries, a repeated connect refreshes
the entry of its sender, and a disconnect takes that entry out and no
other. -/
theorem registered_address (evs : List Event) :
    (∀ d : Datagram, d.req.method = .connect → (Registers d ↔ d.Whole))
    ∧ ((∀ d, .datagram d ∈ evs → d.Whole) → tailKept evs = true →
      HoldsRegistry evs) := by
  refine ⟨registers_iff, fun hwhole hok => ?_⟩
  obtain ⟨t, ht, hsim⟩ := run_simKeys evs Table.empty Abs.init
    (simKeys_init ..) hwhole hok
  obtain ⟨clients, hmem, -, hkeys⟩ := hsim.members
  refine ⟨t, clients, ht, hmem, ?_⟩
  rw [hkeys, ← tableAfter_set]
  rfl

-- ================================================================= two senders

/-- The members of a connect request. -/
def connectMembers (port : UInt16) : Members :=
  [("method", .string (ascii "connect")),
    ("port", .word (decimal port.toNat))]

/-- Any host can ask for any port, whatever memory that is received
in. -/
private theorem connect_exists (old : MsgInfo) {sender : Sockaddr}
    (hsender : sender.IsInet) (port : UInt16) :
    ∃ d : Datagram, d.old = old ∧ d.sender = sender ∧ d.port = port
      ∧ d.req.method = .connect := by
  have hkeys : isBody (ascii "method") = true
      ∧ isBody (ascii "port") = true := by decide +kernel
  have hconnect : isBody (ascii "connect") = true := by decide +kernel
  have hms : PlainMembers (connectMembers port) :=
    .cons hkeys.1 hconnect (.cons hkeys.2 (plain_decimal _) plainMembers_nil)
  -- the request is short enough to be received whole
  have hshort : (flatText (connectMembers port)).length < MSG_MAX := by
    have hdig := (length_decimal_le (i := port.toNat) (k := 4)
      (by decide)).mpr (by have := port.toNat_lt; omega)
    have hnames : (ascii "method").length = 6 ∧ (ascii "port").length = 4
        ∧ (ascii "connect").length = 7 ∧ (ascii ",").length = 1 := by decide
    simp only [flatText, connectMembers, text_flat, text_flat_nil,
      Piece.write, List.length_cons, List.length_append, List.length_nil,
      hnames, MSG_MAX]
    omega
  have hmsg : cstr (udpReceive old sender
      (flatText (connectMembers port))).msg
      = flatText (connectMembers port) ++ [] := by
    rw [udpReceive, cstr_store, recvBytes_of_lt hshort,
      cstr_eq_self (nul_notMem_flatText hms), List.append_nil]
  have hskip : (ascii "port").isPrefixOf (ascii "method") = false := by
    decide
  have hroom : 1 + 2 * (connectMembers port).length ≤ JSMN_NTOK := by
    simp [connectMembers, JSMN_NTOK]
  have hreq := request_flat udpCommands hms (by decide) hmsg hroom
    (v := .string (ascii "connect")) (lookup_self ..)
  rw [show named (Piece.string (ascii "connect")).content udpCommands
    = some .connect by decide, Option.map_some] at hreq
  obtain ⟨p, hp, hv⟩ := argument_flat hms hmsg
    (show KeyText (ascii "port") by decide)
    (v := .word (decimal port.toNat)) (by
      rw [connectMembers, lookup_skip _ hskip, lookup_self])
  refine ⟨⟨old, sender, _, _, p, port, hsender, hreq, hp, ?_⟩, rfl, rfl, rfl,
    rfl⟩
  rw [valText_holds hv]
  exact denotes_decimal _

/-- A connect of `sender` on port 5557, received in memory that still has
its address. -/
structure Connecting (sender : Sockaddr) (d : Datagram) : Prop where
  old : d.old.addr = sender
  sender : d.sender = sender
  port : d.port = 5557
  method : d.req.method = .connect

/-- Every host may send one. -/
theorem connecting_exists {sender : Sockaddr} (h : sender.IsInet) :
    ∃ d, Connecting sender d := by
  obtain ⟨d, hold, hsender, hport, hm⟩ :=
    connect_exists { Router.zeroInfo with addr := sender } h 5557
  exact ⟨d, by rw [hold], hsender, hport, hm⟩

/-- What is stored is its address. -/
theorem Connecting.whole {sender : Sockaddr} {d : Datagram}
    (h : Connecting sender d) : d.Whole :=
  Or.inr fun i _ => by rw [h.old, h.sender]

/-- It asks for the sender to be in the table. -/
theorem Connecting.op {sender : Sockaddr} {d : Datagram}
    (h : Connecting sender d) :
    (Event.datagram d).op
      = .update (peerOf (setInPort sender (htons 5557))) := by
  simp only [Event.op, h.method, Datagram.peer, h.sender, h.port]

/-- Three hosts connect, a tick passes, and the first connects again. -/
def visits (d₁ d₂ d₃ : Datagram) : List Event :=
  [.datagram d₁, .datagram d₂, .datagram d₃, .tick, .datagram d₁]

section

variable {d₁ d₂ d₃ : Datagram} (h₁ : Connecting (host4 1) d₁)
  (h₂ : Connecting (host6 1) d₂) (h₃ : Connecting (host4 2) d₃)

include h₁ h₂ h₃

/-- All of them are stored whole. -/
theorem visits_whole (d : Datagram) (hd : .datagram d ∈ visits d₁ d₂ d₃) :
    d.Whole := by
  simp only [visits, List.mem_cons, Event.datagram.injEq, reduceCtorEq,
    List.not_mem_nil, or_false, false_or] at hd
  rcases hd with rfl | rfl | rfl | rfl
  · exact h₁.whole
  · exact h₂.whole
  · exact h₃.whole
  · exact h₁.whole

/-- What the visits ask for. -/
private theorem visits_ops :
    (visits d₁ d₂ d₃).map Event.op
      = [.update (peerOf (setInPort (host4 1) (htons 5557))),
        .update (peerOf (setInPort (host6 1) (htons 5557))),
        .update (peerOf (setInPort (host4 2) (htons 5557))), .tick,
        .update (peerOf (setInPort (host4 1) (htons 5557)))] := by
  simp only [visits, List.map_cons, List.map_nil, h₁.op, h₂.op, h₃.op]
  rfl

/-- The first is not the newest of the three when it comes back. -/
theorem visits_kept : tailKept (visits d₁ d₂ d₃) = true := by
  rw [tailKept, visits_ops h₁ h₂ h₃]
  decide +kernel

end

/-- Hosts of both families are registered, and one of them that connects
again keeps one entry. -/
theorem registered_address_visits :
    ∃ d₁ d₂ d₃ : Datagram, d₁.sender = host4 1
      ∧ d₂.sender = host6 1 ∧ d₃.sender = host4 2
      ∧ Registers d₁ ∧ Registers d₂ ∧ Registers d₃
      ∧ HoldsRegistry (visits d₁ d₂ d₃) := by
  obtain ⟨d₁, h₁⟩ := connecting_exists
    (show (host4 1).IsInet from Or.inl rfl)
  obtain ⟨d₂, h₂⟩ := connecting_exists
    (show (host6 1).IsInet from Or.inr rfl)
  obtain ⟨d₃, h₃⟩ := connecting_exists
    (show (host4 2).IsInet from Or.inl rfl)
  obtain ⟨hone, hrun⟩ := registered_address (visits d₁ d₂ d₃)
  exact ⟨d₁, d₂, d₃, h₁.sender, h₂.sender, h₃.sender,
    (hone d₁ h₁.method).mpr h₁.whole, (hone d₂ h₂.method).mpr h₂.whole,
    (hone d₃ h₃.method).mpr h₃.whole,
    hrun (visits_whole h₁ h₂ h₃) (visits_kept h₁ h₂ h₃)⟩

/-- In zero-filled memory two IPv6 hosts that differ in the second half
of their addresses share one entry, which is neither's. -/
theorem inet6_hosts_share_entry :
    ∃ d₁ d₂ : Datagram, d₁.req.method = .connect ∧ d₂.req.method = .connect
      ∧ d₁.sender = host6 1 ∧ d₂.sender = host6 2
      ∧ d₁.port = d₂.port ∧ sockaddrEquals d₁.peer d₂.peer = false
      ∧ sockaddrEquals d₁.entry d₂.entry = true ∧ ¬ Registers d₁
      ∧ ¬ Registers d₂ := by
  have hinet : ∀ b, (host6 b).IsInet := fun _ => Or.inr rfl
  obtain ⟨d₁, hold₁, hsender₁, hport₁, hm₁⟩ :=
    connect_exists Router.zeroInfo (hinet 1) 5557
  obtain ⟨d₂, hold₂, hsender₂, hport₂, hm₂⟩ :=
    connect_exists Router.zeroInfo (hinet 2) 5557
  have hcut : ∀ (d : Datagram) (b : UInt8), b ≠ 0 →
      d.old = Router.zeroInfo → d.sender = host6 b →
      d.req.method = .connect → ¬ Registers d := by
    intro d b hb hold hsender hm
    rw [registers_iff d hm, Datagram.Whole, hold, hsender, not_or]
    refine ⟨inet6_ne_inet, fun h => hb ?_⟩
    have hlast : Router.zeroInfo.addr.sin6Addr[15]
        = (host6 b).sin6Addr[15] := h ⟨15, by decide⟩ (by decide)
    simpa [Router.zeroInfo, host6, Sockaddr.zero] using hlast.symm
  have hpeer : ∀ d : Datagram,
      d.peer = setInPort d.sender (htons d.port) := fun _ => rfl
  have hentry : ∀ d : Datagram, d.entry
      = setInPort (recvAddr d.old.addr d.sender) (htons d.port) :=
    fun _ => rfl
  refine ⟨d₁, d₂, hm₁, hm₂, hsender₁, hsender₂, hport₁.trans hport₂.symm,
    ?_, ?_, hcut d₁ 1 (by decide) hold₁ hsender₁ hm₁,
    hcut d₂ 2 (by decide) hold₂ hsender₂ hm₂⟩
  · rw [hpeer, hpeer, hsender₁, hsender₂, hport₁, hport₂]
    decide +kernel
  · rw [hentry, hentry, hsender₁, hsender₂, hport₁, hport₂, hold₁, hold₂]
    decide +kernel

end Psnet.Tracker
