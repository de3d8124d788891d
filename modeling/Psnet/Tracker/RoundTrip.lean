/-
The list a tracker sends is the list its requester reads.

`clients_to_json` writes for each client an object that `parse_node`
reads as an address equal to it (`nodeMembers_reads`); the body is an
array of these, and `parse_node_list` has tokens enough for as many
entries as it was called for.

The reading asks for the family by the number under `ipv`, which is 4 or 6
as the writer has it, and takes the port in host order, as it was written.
Equality of the addresses is that of `sockaddr_equals`: the fields of the
other family are left out.
-/
import Psnet.Parse.Nodes
import Psnet.Tracker.Listing

namespace Psnet.Tracker

open Net Jsmn Parse DeltaList Client

variable {inet : Inet} {clientTable : Table Sockaddr}
  {clients : List Sockaddr} {s : Text}

/-- The object written for a client is a node object. -/
private theorem nodeMembers_eq (inet : Inet) (sa : Sockaddr) :
    nodeMembers inet sa = nodeObject (inet.ntop sa)
      (ntohs (getInPort sa)) (decide (sa.ssFamily = AF_INET)) := by
  unfold nodeMembers nodeObject
  rw [decimal_natCast]
  by_cases h : sa.ssFamily = AF_INET
  · simp only [h, ↓reduceIte, decide_true]
    rfl
  · simp only [h, ↓reduceIte, decide_false, Bool.false_eq_true]
    rfl

/-- The object of an IPv4 or IPv6 address is read as an address equal to
it. -/
theorem nodeMembers_reads (hinet : inet.Lawful) {sa : Sockaddr}
    (hsa : sa.IsInet) :
    ∃ sa', ReadsAs inet (nodeMembers inet sa) sa'
      ∧ sockaddrEquals sa sa' = true := by
  have hback : htons (ntohs (getInPort sa)) = sa.port := htons_ntohs sa.port
  have hne : ¬ AF_INET6 = AF_INET := by decide
  rcases hsa with h4 | h6
  · have haddr : nodeAddr inet (inet.ntop sa) (ntohs (getInPort sa))
        (decide (sa.ssFamily = AF_INET))
        = some { familyOf 52 with sinAddr := sa.sinAddr, port := sa.port }
        := by
      simp [nodeAddr, h4, Inet.ntop, Inet.pton, familyOf, hinet.back4,
        setInPort, hback]
    refine ⟨_, ⟨_, _, _, nodeMembers_eq inet sa, hinet.ntop_text sa, haddr⟩,
      ?_⟩
    simp [sockaddrEquals, sinEquals, familyOf, h4]
  · have hf : ¬ sa.ssFamily = AF_INET := fun h => hne (h6.symm.trans h)
    have haddr : nodeAddr inet (inet.ntop sa) (ntohs (getInPort sa))
        (decide (sa.ssFamily = AF_INET))
        = some { familyOf 54 with
            sin6Addr := sa.sin6Addr, port := sa.port } := by
      simp [nodeAddr, hf, Inet.ntop, Inet.pton, familyOf, hinet.back6, hne,
        setInPort, hback]
    refine ⟨_, ⟨_, _, _, nodeMembers_eq inet sa, hinet.ntop_text sa, haddr⟩,
      ?_⟩
    simp [sockaddrEquals, sin6Equals, familyOf, h6, hne]

/-- What `clients_to_json` writes for the clients of a table,
`parse_node_list` reads as the first `num` of those that are not ignored,
in order, each equal to the original. -/
theorem node_list_round_trip (hinet : inet.Lawful)
    (hm : members clientTable = some clients)
    (hclients : ∀ sa ∈ clients, sa.IsInet) (ign : Option Sockaddr)
    {num : Nat} (hnum : num < 2 ^ 31) (hs : Denotes s num) {n : Nat}
    (hn : min num (available ign clients).length ≤ n)
    (hmax : 1 + 10 * n ≤ INT_MAX) :
    ∃ nodes sas, clientsToJson inet clientTable [] ign s
        = some (CL_OK, nodes)
      ∧ List.Forall₂ (fun sa sa' => sockaddrEquals sa sa' = true)
          ((available ign clients).take num) sas
      ∧ ∀ msg stack, cstr msg = nodesText nodes →
          parseNodeList inet msg n stack = some (0, sas) := by
  have hlim : toInt32 (clampLong (num : Int)) = num := by
    rw [clampLong_of_range (by unfold LONG_MIN; omega)
      (by unfold LONG_MAX; omega), toInt32]
    omega
  have hjson : clientsToJson inet clientTable [] ign s = _ :=
    clientsToJson_spec hm hs.strtol (by omega) [] ign
  rw [hlim, Int.toNat_natCast] at hjson
  have hread : ∀ sa ∈ (available ign clients).take num,
      ∃ sa', ReadsAs inet (nodeMembers inet sa) sa'
        ∧ sockaddrEquals sa sa' = true := fun sa hsa =>
    nodeMembers_reads hinet
      (hclients sa (List.mem_of_mem_filter (List.mem_of_mem_take hsa)))
  obtain ⟨sas, hsas⟩ := forall₂_of_accepted hread
  refine ⟨_, sas, hjson, hsas.imp fun _ _ h => h.2, fun msg stack hmsg => ?_⟩
  rw [nodesText_listNodes] at hmsg
  rw [parseNodeList_nodes hmax
    (List.forall₂_map_left_iff.mpr (hsas.imp fun _ _ h => h.1))
    (by decide) hmsg, if_pos]
  rw [List.length_map, List.length_take]
  omega

/-- Two of the three clients besides the ignored one are asked for, and
read. -/
theorem node_list_round_trip_visited :
    ∃ t nodes sas, visitedTable = some t
      ∧ clientsToJson dotted t [] (some (host6 2)) (decimal 2)
        = some (CL_OK, nodes)
      ∧ List.Forall₂ (fun sa sa' => sockaddrEquals sa sa' = true)
          [host6 1, host4 2] sas
      ∧ ∀ msg stack, cstr msg = nodesText nodes →
          parseNodeList dotted msg 2 stack = some (0, sas) := by
  obtain ⟨t, ht, hm⟩ := visitedTable_members
  obtain ⟨nodes, sas, h⟩ := node_list_round_trip dotted_lawful hm
    (by simp [host4, host6, Sockaddr.IsInet]) (some (host6 2))
    (show 2 < 2 ^ 31 by decide) (denotes_decimal 2)
    (show min 2 (available (some (host6 2))
      [host6 1, host4 2, host6 2, host4 1]).length ≤ 2 by decide) (by decide)
  exact ⟨t, nodes, sas, ht, h⟩

end Psnet.Tracker
