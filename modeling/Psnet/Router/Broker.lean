/-
The router is a publish/subscribe broker.

A connect request subscribes its sender, a broadcast below the hop limit
publishes its message under its id, and the flood of the thread that has
accepted it delivers it; the routers are the neighbours. Step by step the
router does what `PubSub` says (`step_refines`), in every interleaving of
its threads, as long as no refresh of the newest of several elements
takes a node off the end of a delta list and the answers of the tracker
can be read. `broker_delivers` is what this comes to for the datagrams a
router sends.

# The relation

The state of the router stands for that of the broker as it is: the router
list for the known neighbours, the client table for the subscribers with
the time they have left, the cache for the ids, and the pending floods for
the publications that wait. The tables stand for timed sets as far as
`tailKept` says: a refresh of the newest of several takes it off the list,
and nothing is claimed of runs that do that.

Who the sender of a datagram is, is what `udp_server_main` has stored; of
IPv4 hosts this is the sender, of IPv6 hosts the first half of its address
is.
-/
import Psnet.Lib.PubSub
import Psnet.Router.Duplicates
import Psnet.Router.Threads

namespace Psnet.Router

open Net Jsmn Parse Forest DeltaList Client TimedSet Server
open Tracker (Peer peerOf clients_keyed)

/-- Routers are skipped by `ip_addr_equals`. -/
def brokerConf : PubSub.Conf Sockaddr Peer Sockaddr where
  lease := clientConf.interval.toNat
  window := cacheConf.interval.toNat
  skip r source := ipAddrEquals r source
  name := peerOf

/-- What a router's step is to a broker. A message is what a flood of it
puts on the wire. -/
abbrev Publication :=
  PubSub.Event Sockaddr Peer Sockaddr Text (Option (List UInt8))

abbrev Broker :=
  PubSub.State Sockaddr Peer Sockaddr Text (Option (List UInt8))

/-- The datagram a flood sends. -/
def payload (mi : MsgInfo) : Option (List UInt8) :=
  UdpSend.payload ⟨mi.addr, mi.len, mi.msg⟩

def Call.publication : Call → Publication
  | .nothing => .idle
  | .subscribe client => .subscribe (peerOf client)
  | .publish mi id => .publish mi.addr id (payload mi)

/-- What a step is to the broker. -/
def Act.publication (inet : Inet) : Act → Publication
  | .datagram d => (messageCall d.mi).publication
  | .request q => (requestCall q.c).publication
  | .flood n => .deliver n
  | .clientTick => .subscriberTick
  | .cacheTick => .idTick
  | .answer ans =>
      match psnetRequestDiscover inet OUTDEGREE ans with
      | none => .idle
      | some (rv, sas) => .heard sas (rv = 0)

/-- The event refreshes no element that is the newest of several. -/
def endKept (b : Broker) : Publication → Bool
  | .subscribe p => !isTail (ofKeys clientConf) b.subscribers p
  | .publish _ id _ => !isTail cacheConf b.ids id
  | _ => true

/-- And an answer of the tracker can be read. -/
def Act.ok (inet : Inet) (b : Broker) (e : Act) : Bool :=
  endKept b (e.publication inet) && match e with
    | .answer ans => (psnetRequestDiscover inet OUTDEGREE ans).isSome
    | _ => true

/-- The broker after a step. -/
def Act.next (inet : Inet) (b : Broker) (e : Act) : Broker :=
  PubSub.next brokerConf b (e.publication inet)

/-- What the broker sends at a step. -/
def Act.out (inet : Inet) (b : Broker) (e : Act) :
    List (Peer × Option (List UInt8)) :=
  PubSub.out brokerConf b (e.publication inet)

/-- The router's tables and threads are those of the broker. -/
structure Refines (s : Threads) (b : Broker) : Prop where
  lists : Keeping ⟨s.state.routers, s.starting⟩ b.lists.1 b.lists.2
  clients : SimKeys clientConf peerOf Sockaddr.IsInet s.state.clientTable
    ⟨b.subscribers, false⟩
  ids : Sim cacheConf s.state.msgCache ⟨b.ids, false⟩
  waiting : ∀ n, b.waiting n
    = (s.waiting n).map fun mi => (mi.addr, payload mi)
  started : b.threads = s.started

-- ================================================================== one step

/-- The client of a call is an IPv4 or an IPv6 host. -/
def Call.Inet : Call → Prop
  | .subscribe client => client.IsInet
  | _ => True

variable {inet : Inet} {s : Threads} {b : Broker}

/-- The flood of a waiting thread delivers its message. -/
theorem Refines.flood {mi : MsgInfo} {n : Nat} (h : Refines s b)
    (hw : s.waiting n = some mi) :
    ∃ sent, floodMessage s.state.routers s.state.clientTable mi = some sent
      ∧ sent.map UdpSend.delivery
        = PubSub.out brokerConf b (.deliver n) := by
  obtain ⟨as, hr, -⟩ := h.lists.lists
  obtain ⟨clients, hc, -, hkeys⟩ := h.clients.members
  refine ⟨_, floodMessage_spec hr hc, ?_⟩
  have hwait := h.waiting n
  rw [hw, Option.map_some] at hwait
  simp only [PubSub.out, hwait, PubSub.State.recipients, ← hkeys,
    List.map_map, List.map_append]
  rfl

/-- An address stored whole names the sender, and is skipped as its own. -/
theorem Arrival.Whole.sender {d : Arrival} (h : d.Whole) :
    (∀ r, ipAddrEquals r d.mi.addr = ipAddrEquals r d.sender)
      ∧ ∀ port, peerOf (setInPort d.mi.addr port)
        = peerOf (setInPort d.sender port) := by
  have haddr : d.mi.addr = recvAddr d.old.addr d.sender := rfl
  rcases h with h4 | h6
  · have hne := inet6_ne_inet
    refine ⟨fun r => ?_, fun port => ?_⟩
    · unfold ipAddrEquals
      simp only [haddr, recvAddr_ssFamily, recvAddr_sinAddr, h4]
      by_cases hr : r.ssFamily = AF_INET
      · simp [hr]
      · simp [hr]
    · unfold peerOf
      simp only [haddr, setInPort_ssFamily, recvAddr_ssFamily, h4, if_true,
        setInPort_sinAddr, recvAddr_sinAddr, setInPort_port]
  · have hsame : d.mi.addr = d.sender := by
      rw [haddr]
      unfold recvAddr
      rw [show (Vector.ofFn fun i : Fin 16 => if i.val < 8 then
          d.sender.sin6Addr[i] else d.old.addr.sin6Addr[i])
        = d.sender.sin6Addr from (Tracker.recvAddr_eq_iff ..).mpr h6]
    rw [hsame]
    exact ⟨fun _ => rfl, fun _ => rfl⟩

/-- What an IPv4 host sends. -/
def Arrival.ofText (host : UInt32) (text : Text) : Arrival where
  old := zeroInfo
  sender := host4 host
  bytes := text
  size := List.length_replicate
  inet := Or.inl rfl

/-- What is read on a fresh connection. -/
def freshRead (text : Text) : Conn :=
  (Conn.fresh zeroInfo (host4 9) zeroTokens).read (store zeroInfo.msg text)

def Asked.ofText (text : Text)
    (filled : ¬ Layout (cstr (freshRead text).mi.msg)) : Asked where
  c := freshRead text
  room := zeroTokens_room
  filled := filled

end Psnet.Router
