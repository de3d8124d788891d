/-
`clients_to_json`: which clients a numeral lists.

`make_list` stops at the limit and passes over the ignored client, so a
limit `num` that is not negative lists the first `num` of the others
(`clientsToJson_spec`). The limit is an `int`: the value of the numeral
saturates in `strtol` and is then narrowed, and only for some values is
what is left of it as good as the number itself (`num_limit`).

# The list as text

The nodes of the body are an opening bracket, the elements with a comma
each, and a closing bracket; the comma of the last element is cut off
again (`trimLast`). The text of the nodes is that of an array of objects
(`nodesText_listNodes`), which is all that a reader needs to know.
-/
import Psnet.DeltaList.Invariant
import Psnet.Jsmn.Arrays
import Psnet.Net.Dotted
import Psnet.Tracker.Ports

namespace Psnet.Tracker

open Net Jsmn DeltaList Client

variable {inet : Inet} {clientTable : Table Sockaddr}
  {clients : List Sockaddr} {s : Text}

-- ================================================================== the nodes

/-- The clients that are not the ignored one. -/
def available (ign : Option Sockaddr) (clients : List Sockaddr) :
    List Sockaddr :=
  clients.filter fun sa => !ign.any fun i => sockaddrEquals sa i

@[simp] theorem available_none (clients : List Sockaddr) :
    available none clients = clients := by
  simp [available]

/-- What listing `sas` leaves at `head`. -/
def listNodes (inet : Inet) (head : List ResponseNode)
    (sas : List Sockaddr) : List ResponseNode :=
  trimLast (head ++ openNode
      :: sas.map fun sa => ResponseNode.ofText (elementText inet sa))
    ++ [closeNode]

@[simp] theorem length_trimLast (l : List ResponseNode) :
    (trimLast l).length = l.length := by
  unfold trimLast
  split
  · rfl
  · exact List.length_modify ..

@[simp] theorem length_listNodes (head : List ResponseNode)
    (sas : List Sockaddr) :
    (listNodes inet head sas).length = head.length + sas.length + 2 := by
  simp [listNodes]
  omega

/-- `make_list` over the clients adds the first of the available ones,
up to the limit. -/
private theorem visit_makeList (clients : List Sockaddr) (arg : MakeListArg) :
    (visit (makeList inet) clients arg).list
      = arg.list ++ ((available arg.ignore clients).take
          (arg.n - arg.i).toNat).map
            fun sa => ResponseNode.ofText (elementText inet sa) := by
  induction clients generalizing arg with
  | nil => simp [visit, available]
  | cons sa clients ih =>
      rw [visit]
      by_cases hfull : arg.n ≤ arg.i
      · -- the limit is reached: the walk ends here
        simp [makeList, hfull, show (arg.n - arg.i).toNat = 0 by omega]
      · by_cases hign : (arg.ignore.any fun i => sockaddrEquals sa i) = true
        · have hcall : makeList inet sa arg = (arg, 0) := by
            simp [makeList, hfull, hign]
          rw [hcall, if_neg (by simp), ih, available, available,
            List.filter_cons_of_neg (by simp [hign])]
        · have hcall : makeList inet sa arg = ({ arg with
              i := arg.i + 1
              list := arg.list ++ [.ofText (elementText inet sa)] }, 0) := by
            simp [makeList, hfull, hign]
          obtain ⟨k, hk⟩ : ∃ k, (arg.n - arg.i).toNat = k + 1 :=
            ⟨(arg.n - arg.i).toNat - 1, by omega⟩
          rw [hcall, if_neg (by simp), ih, available, available,
            List.filter_cons_of_pos (by simp [hign]), hk]
          simp only [show (arg.n - (arg.i + 1)).toNat = k by omega,
            List.take_succ_cons, List.map_cons, List.append_assoc,
            List.singleton_append]

theorem clientsToJson_bad {v : Int} {r : Text} (hs : strtol s = (v, r))
    (hnum : toInt32 v < 0) (head : List ResponseNode)
    (ign : Option Sockaddr) :
    clientsToJson inet clientTable head ign s = some (CL_BADNUM, head) := by
  simp [clientsToJson, hs, hnum]

/-- A limit that is not negative lists that many clients. -/
theorem clientsToJson_spec {v : Int}
    (hm : members clientTable = some clients) (hs : strtol s = (v, []))
    (hnum : 0 ≤ toInt32 v) (head : List ResponseNode)
    (ign : Option Sockaddr) :
    clientsToJson inet clientTable head ign s
      = some (CL_OK, listNodes inet head
          ((available ign clients).take (toInt32 v).toNat)) := by
  simp only [clientsToJson, hs]
  rw [if_neg (by simpa using hnum), deltaForeach_members hm]
  simp only [bind, Option.bind_some, visit_makeList, Int.sub_zero,
    listNodes, List.append_assoc, List.singleton_append]
  rfl

-- =================================================================== the text

/-- The members of the object that stands for an address. -/
def nodeMembers (inet : Inet) (sa : Sockaddr) : Members :=
  [("ip", .string (inet.ntop sa)),
    ("port", .word (decimal (ntohs (getInPort sa)).toNat)),
    ("ipv", .word (decimal (if sa.ssFamily = AF_INET then 4 else 6)))]

/-- What `make_list` writes for a client is its object, and a comma. -/
theorem elementText_eq (inet : Inet) (sa : Sockaddr) :
    elementText inet sa = flatText (nodeMembers inet sa) ++ ascii "," := by
  have hopen : ascii "\x7b\"ip\":\"" = LBRACE :: QUOTE :: (ascii "ip"
      ++ [QUOTE, 58, QUOTE]) := by decide
  have hport : ascii "\",\"port\":" = QUOTE :: 44 :: QUOTE
      :: (ascii "port" ++ [QUOTE, 58]) := by decide
  have hipv : ascii ",\"ipv\":" = 44 :: QUOTE
      :: (ascii "ipv" ++ [QUOTE, 58]) := by decide
  have hclose : ascii "\x7d," = [RBRACE, 44] := by decide
  have hcomma : ascii "," = [44] := by decide
  simp only [elementText, hopen, hport, hipv, hclose, nodeMembers, flatText,
    text_flat, text_flat_nil, hcomma, Piece.write, List.cons_append,
    List.nil_append, List.append_assoc]

/-- The last node of a list loses its last character. -/
private theorem trimLast_concat (n : ResponseNode) (l : List ResponseNode)
    (s : Text) :
    trimLast (n :: l ++ [.ofText s]) = n :: l ++ [⟨s, s.length - 1⟩] := by
  have hlast : ∀ (l : List ResponseNode) (m : ResponseNode) f,
      (l ++ [m]).modify l.length f = l ++ [f m] := by
    intro l m f
    induction l with
    | nil => rfl
    | cons n l ih => simp [ih]
  rw [trimLast, if_neg (by simp), List.length_append]
  exact hlast (n :: l) (.ofText s) _

/-- A listing into an empty list is the array of its objects. -/
theorem nodesText_listNodes (inet : Inet) (sas : List Sockaddr) :
    nodesText (listNodes inet [] sas)
      = arrayText (sas.map (nodeMembers inet)) ++ ascii "\r\n\r\n" := by
  have hopen : nodesText [openNode] = [LBRACKET] := by decide
  have hclose : nodesText [closeNode]
      = [RBRACKET] ++ ascii "\r\n\r\n" := by decide
  have happ : ∀ l l' : List ResponseNode,
      nodesText (l ++ l') = nodesText l ++ nodesText l' :=
    fun l l' => List.flatMap_append
  -- without the trimming every object is followed by a comma
  have hcommas : ∀ sas : List Sockaddr,
      nodesText (sas.map fun sa => ResponseNode.ofText (elementText inet sa))
        = (sas.map (nodeMembers inet)).flatMap
          fun ms => flatText ms ++ ascii "," := by
    intro sas
    rw [nodesText, List.flatMap_map, List.flatMap_map]
    apply List.flatMap_congr
    intro sa _
    rw [← elementText_eq]
    exact List.take_length
  suffices htrim : nodesText (trimLast (openNode
      :: sas.map fun sa => ResponseNode.ofText (elementText inet sa)))
        = LBRACKET :: text (objects [] (sas.map (nodeMembers inet))) by
    rw [listNodes, List.nil_append, happ, htrim, hclose, arrayText]
    simp
  rcases List.eq_nil_or_concat sas with rfl | ⟨sas, sa, rfl⟩
  · exact hopen
  · have hlast : nodesText [⟨elementText inet sa,
          (elementText inet sa).length - 1⟩]
        = (flatText (nodeMembers inet sa) ++ ascii ",").dropLast := by
      rw [nodesText, List.flatMap_singleton, elementText_eq,
        List.dropLast_eq_take]
    rw [← text_objects_dropLast, List.concat_eq_append, List.map_append,
      List.map_append, List.map_singleton, List.map_singleton,
      ← List.cons_append, trimLast_concat, happ, hlast, List.flatMap_append,
      ← hcommas, ← List.singleton_append, happ, hopen,
      List.flatMap_singleton,
      List.dropLast_append_of_ne_nil
        (show flatText _ ++ ascii "," ≠ [] by simp [flatText]),
      List.append_assoc, List.singleton_append]

-- ================================================================== the number

/-- A limit of `N` is as good as `N` itself when there are `m` clients to
list: a negative `N` stays negative, any other keeps its value or leaves
at least `m`. -/
def NumOk (N : Int) (m : Nat) : Prop :=
  N < 0 ∧ -2 ^ 63 < N ∧ 2 ^ 31 ≤ N % 2 ^ 32
    ∨ 0 ≤ N ∧ (N < 2 ^ 31
      ∨ N < 2 ^ 63 ∧ N % 2 ^ 32 < 2 ^ 31 ∧ (m : Int) ≤ N % 2 ^ 32)

/-- The limit a numeral of `N` sets. -/
private theorem numOk_iff {N : Int} {m : Nat} :
    NumOk N m ↔ N < 0 ∧ toInt32 (clampLong N) < 0
      ∨ 0 ≤ N ∧ 0 ≤ toInt32 (clampLong N)
        ∧ min (toInt32 (clampLong N)).toNat m = min N.toNat m := by
  unfold NumOk toInt32 clampLong LONG_MIN LONG_MAX
  omega

/-- `clients_to_json` rejects a negative numeral and leaves the list, and
lists the first `N` clients for any other, exactly when the limit `N` is
`NumOk`. -/
theorem num_limit (hm : members clientTable = some clients) {N : Int}
    (hN : Denotes s N) (head : List ResponseNode) (ign : Option Sockaddr) :
    clientsToJson inet clientTable head ign s
        = some (if N < 0 then (CL_BADNUM, head)
            else (CL_OK, listNodes inet head
              ((available ign clients).take N.toNat)))
      ↔ NumOk N (available ign clients).length := by
  rw [numOk_iff]
  by_cases hneg : toInt32 (clampLong N) < 0
  · rw [clientsToJson_bad hN.strtol hneg]
    split
    · next h => simp [h, hneg]
    · next h =>
      simp [h, hneg, CL_BADNUM, CL_OK]
  · rw [clientsToJson_spec hm hN.strtol (by omega)]
    split
    · next h => simp [h, hneg, CL_BADNUM, CL_OK]
    · next h =>
      -- two listings of one order are equal when they have equal lengths
      have hnodes : ∀ (sas : List Sockaddr) (j k : Nat),
          listNodes inet head (sas.take j) = listNodes inet head (sas.take k)
            ↔ min j sas.length = min k sas.length := by
        intro sas j k
        constructor
        · intro heq
          have := congrArg List.length heq
          simpa using this
        · intro hmin
          rw [List.take_eq_take_iff.mpr hmin]
      simp only [Option.some.injEq, Prod.mk.injEq, true_and, hnodes]
      omega

/-- Hosts of both families connect, a tick passes, and the first of them
connects again. -/
def visitedTable : Option (Table Sockaddr) := do
  let (_, t) ← deltaUpdate clientConf Table.empty (host4 1)
  let (_, t) ← deltaUpdate clientConf t (host6 1)
  let (_, t) ← deltaUpdate clientConf t (host4 2)
  let (_, t) ← deltaUpdate clientConf t (host6 2)
  let (t, _) ← deltaTick clientConf t
  let (_, t) ← deltaUpdate clientConf t (host4 1)
  return t

/-- The first is the newest then. -/
theorem visitedTable_members :
    ∃ t, visitedTable = some t
      ∧ members t = some [host6 1, host4 2, host6 2, host4 1] := by
  have h : visitedTable.bind members
      = some [host6 1, host4 2, host6 2, host4 1] := by decide +kernel
  exact Option.bind_eq_some_iff.mp h

/-- Asked for one, the tracker lists the oldest but the one who asks. -/
theorem num_limit_visited :
    ∃ t, visitedTable = some t
      ∧ clientsToJson dotted t [] (some (host6 1)) (decimal 1)
        = some (CL_OK, listNodes dotted [] [host4 2]) := by
  obtain ⟨t, ht, hm⟩ := visitedTable_members
  exact ⟨t, ht, (num_limit hm (denotes_decimal 1) [] (some (host6 1))).mpr
    (Or.inr ⟨by decide, Or.inl (by decide)⟩)⟩

/-- `2 ^ 31` is rejected as if it were negative. -/
theorem large_num_rejected :
    Denotes (decimal (2 ^ 31)) (2 ^ 31)
      ∧ members Table.empty = some ([] : List Sockaddr)
      ∧ clientsToJson dotted Table.empty [] none (decimal (2 ^ 31))
        = some (CL_BADNUM, []) :=
  ⟨denotes_decimal _, rfl,
    clientsToJson_bad (denotes_decimal _).strtol (by decide) _ _⟩

end Psnet.Tracker
