/-
The tracker as a directory: what it answers at any time, as a router
reads it.

Who is listed is read off the datagrams received (`mem_registry_iff`).
The answer to a request is the header and the nodes of the body
(`sendClients_spec`); it comes back through `psnet_request`, from the
statement that sends on (`run_answered`), and `parse_node_list`. The
statements before that one never reach it (`psnet_request_outcome`), so
`directory_answers` is about a `psnet_request` whose `goto` is where its
indentation puts it. It is also about answers of less than `10 ^ 4`
characters: the size of a longer one is copied past the array of
`parse_header` (`large_response_overflows`).

# What has to be whole

The statement is about datagrams that are stored whole and runs that keep
the tail of the table (`tailKept`); the requester is left out by its port
and IP address, as they are stored. What the requester reads are addresses
that compare equal to those listed, and equal addresses are one peer
(`map_read`).
-/
import Psnet.Protocol.Scratch
import Psnet.Router.Update
import Psnet.Server.Buffers
import Psnet.Tracker.Registry
import Psnet.Tracker.RoundTrip

namespace Psnet.Tracker

open Net Jsmn Parse DeltaList TimedSet Client Server Protocol

-- ================================================================ who is listed

/-- How many ticks there are among the events. -/
def tickCount (evs : List Event) : Nat :=
  evs.countP fun e => match e with
    | .tick => true
    | .datagram _ => false

/-- Cutting the last node short leaves every node within its text. -/
theorem trimLast_sizes {l : List ResponseNode}
    (h : ∀ n ∈ l, n.len ≤ n.data.length) :
    ∀ n ∈ trimLast l, n.len ≤ n.data.length := by
  intro n hn
  unfold trimLast at hn
  split at hn
  · exact h n hn
  · obtain ⟨i, hi⟩ := List.mem_iff_getElem?.mp hn
    rw [List.getElem?_modify] at hi
    obtain ⟨m, hm, heq⟩ := Option.map_eq_some_iff.mp hi
    have hle := h m (List.mem_of_getElem? hm)
    split at heq
    · subst heq
      simp only
      omega
    · subst heq
      exact hle

/-- Receiving a message from the connection is reading it from its bytes. -/
theorem recvMsg_of_tcpReadMsg {r : Recvs} {buf buf' rest : List UInt8}
    {n : Nat} (h : tcpReadMsg r.bytes buf = (n, buf', rest)) (hn : 0 < n) :
    recvMsg r buf = ((n : Int), buf', { r with bytes := rest }) := by
  cases hk : readLoop buf.length 0 r.bytes with
  | none =>
      rw [tcpReadMsg, hk] at h
      cases h
      exact absurd hn (Nat.lt_irrefl 0)
  | some k =>
      rw [tcpReadMsg, hk] at h
      cases h
      rw [recvMsg, hk]

/-- Those who are listed, but for one; oldest registration first. -/
def others (evs : List Event) (p : Peer) : List Peer :=
  ((registry evs).map Prod.fst).filter fun q => q ≠ p

end Psnet.Tracker
