/-
The two list encoders: `routers_to_json` and `clients_to_json`.

Both write one text for one list of addresses. Only the tracker's looks
at the limit: on a list longer than `num` the router's body is the
longer one (`encoders_agree_iff`).
-/
import Psnet.Router.Flood
import Psnet.Router.Service
import Psnet.Tracker.Listing

namespace Psnet.Router

open Net Jsmn DeltaList Client Tracker

variable {inet : Inet} {m : Mem} {clientTable : Table Sockaddr}
  {as : List Ptr} {sas : List Sockaddr} {s : Text}

/-- `routers_to_json` lists every router. -/
theorem routersToJson_spec (h : Holds m .routers as sas)
    (head : List ResponseNode) :
    routersToJson inet m head = some (listNodes inet head sas) := by
  have hmap : as.mapM (listEntryAddr m) = some sas := by
    have haddrs := h.addrs
    clear h
    induction as generalizing sas with
    | nil =>
        obtain rfl : sas = [] := by simpa using haddrs.symm
        rfl
    | cons a as ih =>
        cases sas with
        | nil => cases haddrs
        | cons sa sas =>
            obtain ⟨ha, hrest⟩ := List.cons.inj haddrs
            simp [ha, ih hrest]
  simp only [routersToJson, listForEach_spec h, hmap, bind,
    Option.bind_some]
  rfl

/-- On one list of addresses, the two encoders write the same bytes, with
as many entries as the limit and the list allow, exactly when the list is
no longer than the limit. -/
theorem encoders_agree_iff (hr : Holds m .routers as sas)
    (hc : members clientTable = some sas) {num : Nat}
    (hnum : num < 2 ^ 31) (hs : Denotes s num) :
    (∃ body nodes, routersToJson inet m [] = some body
        ∧ clientsToJson inet clientTable [] none s = some (CL_OK, nodes)
        ∧ nodesText body = nodesText nodes
        ∧ body.length = min num sas.length + 2
        ∧ nodes.length = min num sas.length + 2)
      ↔ sas.length ≤ num := by
  have hclamp : clampLong (num : Int) = num :=
    clampLong_of_range (by unfold LONG_MIN; omega) (by unfold LONG_MAX; omega)
  have hlim : toInt32 (clampLong (num : Int)) = num := by
    rw [hclamp, toInt32]
    omega
  have hclients : clientsToJson inet clientTable [] none s = _ :=
    clientsToJson_spec hc hs.strtol (by omega) [] none
  rw [hlim, Int.toNat_natCast, available_none] at hclients
  rw [routersToJson_spec hr, hclients]
  constructor
  · intro h
    obtain ⟨body, nodes, hb, hn, htext, -, -⟩ := h
    cases hb
    cases hn
    by_contra hlt
    -- the router's body has the dropped addresses as well
    have hne : (sas.drop num).map (nodeMembers inet) ≠ [] := by
      simp
      omega
    have hlonger := length_arrayText_lt
      ((sas.take num).map (nodeMembers inet)) hne
    rw [← List.map_append, List.take_append_drop] at hlonger
    have hlen := congrArg List.length htext
    rw [nodesText_listNodes, nodesText_listNodes, List.length_append,
      List.length_append] at hlen
    omega
  · intro hle
    refine ⟨_, _, rfl, rfl, by rw [List.take_of_length_le hle], ?_, ?_⟩
    · rw [length_listNodes]
      simp
      omega
    · rw [length_listNodes]
      simp

/-- Asked for as many as there are, both list the hosts of both
families. -/
theorem encoders_agree_iff_visited :
    ∃ m t body nodes, addEntries boot .routers
        [host6 1, host4 2, host6 2, host4 1] = some m
      ∧ visitedTable = some t ∧ routersToJson dotted m [] = some body
      ∧ clientsToJson dotted t [] none (decimal 4) = some (CL_OK, nodes)
      ∧ nodesText body = nodesText nodes ∧ nodes.length = 6 := by
  obtain ⟨m, as, hm, h, -⟩ := addEntries_spec (by simp)
    [host6 1, host4 2, host6 2, host4 1] boot_holds
  obtain ⟨t, ht, hmem⟩ := visitedTable_members
  obtain ⟨body, nodes, hb, hn, htext, -, hlen⟩ := (encoders_agree_iff h hmem
    (show 4 < 2 ^ 31 by decide) (denotes_decimal 4)).mpr (by decide)
  exact ⟨m, t, body, nodes, hm, ht, hb, hn, htext, hlen⟩

/-- Asked for one of two addresses, the router sends both. -/
theorem two_routers_for_one :
    ∃ m t, addEntries boot .routers [host4 1, host4 2] = some m
      ∧ members t = some [host4 1, host4 2]
      ∧ ¬ ∃ body nodes, routersToJson dotted m [] = some body
        ∧ clientsToJson dotted t [] none (decimal 1) = some (CL_OK, nodes)
        ∧ nodesText body = nodesText nodes
        ∧ body.length = min 1 2 + 2 ∧ nodes.length = min 1 2 + 2 := by
  obtain ⟨m, as, hm, h, -⟩ := addEntries_spec (by simp)
    [host4 1, host4 2] boot_holds
  have ht : ((deltaUpdate clientConf Table.empty (host4 1)).bind fun p =>
      deltaUpdate clientConf p.2 (host4 2)).bind (fun p => members p.2)
      = some [host4 1, host4 2] := by decide
  obtain ⟨p, -, ht⟩ := Option.bind_eq_some_iff.mp ht
  refine ⟨m, p.2, hm, ht, ?_⟩
  intro h
  obtain ⟨body, nodes, hb, -, -, hlen, -⟩ := h
  rw [routersToJson_spec h, Option.some.injEq] at hb
  rw [← hb, length_listNodes] at hlen
  simp at hlen

end Psnet.Router
