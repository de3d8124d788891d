/-
Reading the node objects the encoders write.

`nodeObject` is such an object, and `parse_node` reads it as the address
its text stands for (`readNode_object`). An array of `k` of them takes
`1 + 7 * k` tokens, and `parse_node_list` has room for
`1 + 10 * nentries`, so its limit on the entries is not exact
(`entry_limit`).

# Seven tokens

A node object is one token, and its three members are two each. The loop
of `parse_node_list` looks up three keys in every object, whatever their
order.
-/
import Psnet.Jsmn.Arrays
import Psnet.Parse.NodeList
import Psnet.Parse.Written

namespace Psnet.Parse

open Net Jsmn Forest

variable {inet : Inet} {msg after : List UInt8} {n : Nat}
  {stack : Nat → JsmnTok} {s : Text} {port : UInt16} {v4 : Bool}

/-- The object of an address: its text, its port and its family. -/
def nodeObject (s : Text) (port : UInt16) (v4 : Bool) : Members :=
  [("ip", .string s), ("port", .word (decimalNat port.toNat)),
    ("ipv", .word (decimalNat (if v4 then 4 else 6)))]

/-- The address of a node object, where its text is one. -/
def nodeAddr (inet : Inet) (s : Text) (port : UInt16) (v4 : Bool) :
    Option Sockaddr :=
  (inet.pton (familyOf (if v4 then 52 else 54)) s).map
    fun sa => setInPort sa (htons port)

private theorem plain_nodeObject (hs : AddressText s) (port : UInt16)
    (v4 : Bool) :
    PlainMembers (nodeObject s port v4) := by
  have hnat : ∀ i : Nat, (Piece.word (decimalNat i)).Plain := fun i =>
    decimal_natCast i ▸ plain_decimal i
  exact .cons (by decide +kernel) (isBody_of_plain hs.2) <|
    .cons (by decide +kernel) (hnat _) <|
    .cons (by decide +kernel) (hnat _) plainMembers_nil

/-- The port of a node is read back. -/
private theorem nodePort_decimalNat (port : UInt16) :
    nodePort (decimalNat port.toNat) = some port := by
  have hlt := port.toNat_lt
  have hst := strtol_decimalNat (n := port.toNat) (r := [])
    (by unfold LONG_MAX; omega) (by simp)
  rw [List.append_nil] at hst
  simp only [nodePort, hst, ofInt_toNat]
  rw [if_neg (by unfold PORT_MIN PORT_MAX; simp; omega)]

/-- A numeral starts with a digit. -/
theorem head_decimalNat (i : Nat) :
    ∃ c cs, decimalNat i = c :: cs ∧ ¬ (c < 48 ∨ 57 < c) := by
  obtain ⟨hne, hdig⟩ := decimalNat_digits i
  obtain ⟨c, cs, hc⟩ := List.exists_cons_of_ne_nil hne
  have hd := hdig c (hc ▸ List.mem_cons_self ..)
  refine ⟨c, cs, hc, ?_⟩
  simp only [isDigit, Bool.and_eq_true, decide_eq_true_eq,
    UInt8.le_iff_toNat_le, UInt8.reduceToNat] at hd
  simp only [UInt8.lt_iff_toNat_lt, UInt8.reduceToNat]
  omega

theorem byteAt_holds {l : Lab} {v : Piece} (h : Holds msg l v) {c : UInt8}
    {cs : List UInt8} (hv : v.content = c :: cs) :
    byteAt msg l.start = c := by
  obtain ⟨u, hu, -⟩ := h.text
  rw [hv] at hu
  exact (byteAt_drop_cons hu).1

/-- A held value of fewer characters than the array fits it. -/
private theorem copyVal_holds {l : Lab} {v : Piece} (h : Holds msg l v)
    (hlen : v.content.length < INET6_ADDRSTRLEN) :
    copyVal msg l = some v.content := by
  rw [copyVal, if_neg (by rw [h.stop]; omega), valText_holds h]

private theorem lookup_nodeObject (s : Text) (port : UInt16) (v4 : Bool) :
    lookup (ascii "ip").isPrefixOf (nodeObject s port v4)
        = some (.string s)
      ∧ lookup (ascii "port").isPrefixOf (nodeObject s port v4)
        = some (.word (decimalNat port.toNat))
      ∧ lookup (ascii "ipv").isPrefixOf (nodeObject s port v4)
        = some (.word (decimalNat (if v4 then 4 else 6))) := by
  have hport : (ascii "port").isPrefixOf (ascii "ip") = false := by decide
  have hipv : (ascii "ipv").isPrefixOf (ascii "ip") = false
      ∧ (ascii "ipv").isPrefixOf (ascii "port") = false := by decide
  simp [nodeObject, lookup_skip, hport, hipv]

/-- `parse_node` on a node object. -/
private theorem readNode_object (hs : AddressText s) {lo : Nat}
    {u : List UInt8} (hu : Ends u)
    (hmsg : msg.drop lo = text (flat [] (nodeObject s port v4)) ++ u) :
    readNode inet msg (labels lo (flat [] (nodeObject s port v4)))
      = some (nodeAddr inet s port v4) := by
  have hfind : ∀ key v, QUOTE ∉ key →
      lookup key.isPrefixOf (nodeObject s port v4) = some v →
      ∃ p, findPair msg key (labels lo (flat [] (nodeObject s port v4)))
          = some p ∧ Holds msg p.val v := by
    intro key v hq hv
    have := findPair_flat (plain_nodeObject hs port v4) (by decide) hu hmsg hq
    rw [hv] at this
    exact this
  obtain ⟨hlip, hlport, hlipv⟩ := lookup_nodeObject s port v4
  obtain ⟨ip, hip, hhip⟩ := hfind _ _ (by decide) hlip
  obtain ⟨port', hport, hhport⟩ := hfind _ _ (by decide) hlport
  obtain ⟨ipv, hipv, hhipv⟩ := hfind _ _ (by decide) hlipv
  obtain ⟨c, cs, hc, hdigit⟩ := head_decimalNat port.toNat
  have hv : byteAt msg ipv.val.start = if v4 then 52 else 54 := by
    cases v4
    · exact byteAt_holds hhipv (show _ = [54] by decide)
    · exact byteAt_holds hhipv (show _ = [52] by decide)
  have hfields : nodeFields msg
      (labels lo (flat [] (nodeObject s port v4)))
      = some (ip.val, port'.val, if v4 then 52 else 54) := by
    unfold nodeFields
    simp only [hip, hport, hipv]
    rw [if_pos, hv]
    refine ⟨hhip.type, hhport.type, ?_, hhipv.type, ?_⟩
    · rw [byteAt_holds hhport hc]
      exact hdigit
    · rw [hv]
      cases v4 <;> decide
  -- five digits fit the array the port is copied into
  have hplen : (decimalNat port.toNat).length < INET6_ADDRSTRLEN := by
    have := port.toNat_lt
    have := (length_decimalNat_le (n := port.toNat) (k := 5)
      (by decide)).mpr (by omega)
    unfold INET6_ADDRSTRLEN
    omega
  simp only [readNode, hfields, copyVal_holds hhip hs.1,
    copyVal_holds hhport hplen, Piece.content, bind, Option.bind_some,
    nodeAddr]
  cases inet.pton (familyOf (if v4 then 52 else 54)) s with
  | none => rfl
  | some sa => simp [nodePort_decimalNat]

-- ==================================================================== the array

/-- An object in the encoders' form that is read as the address `sa`. -/
def ReadsAs (inet : Inet) (ms : Members) (sa : Sockaddr) : Prop :=
  ∃ s port v4, ms = nodeObject s port v4 ∧ AddressText s
    ∧ nodeAddr inet s port v4 = some sa

theorem ReadsAs.plain {ms : Members} {sa : Sockaddr}
    (h : ReadsAs inet ms sa) : PlainMembers ms := by
  obtain ⟨s, port, v4, rfl, hs, -⟩ := h
  exact plain_nodeObject hs port v4

theorem ReadsAs.length {ms : Members} {sa : Sockaddr}
    (h : ReadsAs inet ms sa) : ms.length = 3 := by
  obtain ⟨s, port, v4, rfl, -⟩ := h
  rfl

/-- The loop over an array of node objects reads them all. -/
private theorem collect_objects {l : List Members} {sas : List Sockaddr}
    (hl : List.Forall₂ (ReadsAs inet) l sas) {sep : List UInt8} {lo : Nat}
    {u : List UInt8} (hmsg : msg.drop lo = text (objects sep l) ++ u) :
    collect (readElement inet msg) (labels lo (objects sep l)).trees
      = some (0, sas) := by
  induction hl generalizing sep lo with
  | nil => rfl
  | @cons ms sa l sas hms _ ih =>
      have hlen := hms.length
      obtain ⟨s, port, v4, rfl, hs, hsa⟩ := hms
      have htext := hmsg
      rw [text_objects, List.append_assoc, List.append_assoc] at htext
      have hobj := drop_append htext
      have hrest := drop_append hobj
      -- the members stand behind the opening brace
      have hkids : msg.drop (lo + sep.length + 1)
          = text (flat [] (nodeObject s port v4))
            ++ (RBRACE :: (text (objects (ascii ",") l) ++ u)) := by
        rw [← List.drop_drop, hobj]
        simp [flatText]
      have hends : Ends (RBRACE :: (text (objects (ascii ",") l) ++ u)) := by
        intro c hc
        cases hc
        exact Or.inr (by decide)
      have hread : readNode inet msg _ = _ := readNode_object hs hends hkids
      have hwrite : (Piece.write (text (flat [] (nodeObject s port v4)))
          (.object [])).length
          = (flatText (nodeObject s port v4)).length := by
        simp [Piece.write, flatText]
      simp only [objects, labels, trees, collect, readElement, Piece.lab,
        width_labels, width_flat, hread, hsa, hwrite, ih hrest, hlen]
      rfl

/-- An array of `k` node objects takes `1 + 7 * k` tokens. -/
private theorem arrayCount_nodes {l : List Members} {sas : List Sockaddr}
    (hl : List.Forall₂ (ReadsAs inet) l sas) :
    arrayCount l = 1 + 7 * l.length := by
  unfold arrayCount
  induction hl with
  | nil => rfl
  | cons hms _ ih =>
      have := hms.length
      simp only [List.map_cons, List.sum_cons, List.length_cons, this]
      omega

/-- `parse_node_list` on an array of node objects: all are read where the
tokens suffice, and none otherwise. -/
theorem parseNodeList_nodes {l : List Members} {sas : List Sockaddr}
    (hn : 1 + 10 * n ≤ INT_MAX) (hl : List.Forall₂ (ReadsAs inet) l sas)
    (hafter : Layout after) (hmsg : cstr msg = arrayText l ++ after) :
    parseNodeList inet msg n stack
      = if 7 * l.length ≤ 10 * n then some (0, sas) else some (-1, []) := by
  have hplain : ∀ ms ∈ l, PlainMembers ms := by
    intro ms hms
    obtain ⟨i, hi, rfl⟩ := List.getElem_of_mem hms
    have := List.forall₂_iff_get.mp hl
    exact (this.2 i hi (this.1 ▸ hi)).plain
  have hcount := arrayCount_nodes hl
  have hz := zipParse_array hplain hafter hmsg (Nat.le_refl _)
  have hless := zipParse_less (1 + 10 * n) hz
  have hsize : (tree ⟨.array, 0, (arrayText l).length⟩
      (labels 1 (objects [] l)) : Forest Lab).count = 1 + 7 * l.length := by
    rw [← hcount]
    simp [count_objects, arrayCount]
    omega
  rw [hsize] at hless
  by_cases hle : 7 * l.length ≤ 10 * n
  · rw [if_pos (by omega)] at hless
    rw [if_pos hle, parseNodeList_array hn hless, if_pos rfl]
    obtain ⟨r, hr⟩ := List.takeWhile_prefix (l := msg) (p := (· ≠ 0))
    have hdrop : msg.drop 1
        = text (objects [] l) ++ (RBRACKET :: (after ++ r)) := by
      rw [← cstr, hmsg] at hr
      rw [← hr]
      simp [arrayText]
    exact collect_objects hl hdrop
  · rw [if_neg (by omega)] at hless
    obtain ⟨e, he⟩ := hless
    rw [if_neg hle, parseNodeList_error hn he]

/-- On an array of valid node objects the limit on the entries is exact
precisely when the array is within it, or too large for the tokens. -/
theorem entry_limit {l : List Members} {sas : List Sockaddr}
    (hl : List.Forall₂ (ReadsAs inet) l sas) (hafter : Layout after)
    (hmsg : cstr msg = arrayText l ++ after) :
    (if l.length ≤ n then parseNodeList inet msg n stack = some (0, sas)
      else ∃ rc es, parseNodeList inet msg n stack = some (rc, es)
        ∧ es.length ≤ n)
      ↔ 1 + 10 * n ≤ INT_MAX
        ∧ (l.length ≤ n ∨ 10 * n < 7 * l.length) := by
  by_cases hn : 1 + 10 * n ≤ INT_MAX
  case neg => simp [parseNodeList_huge (Nat.lt_of_not_le hn), hn]
  rw [parseNodeList_nodes hn hl hafter hmsg]
  have hlen := hl.length_eq
  by_cases hk : l.length ≤ n
  · simp only [hk, hn, ↓reduceIte, true_or, and_self, iff_true]
    rw [if_pos (by omega)]
  · simp only [hk, hn, ↓reduceIte, false_or, true_and]
    by_cases hle : 7 * l.length ≤ 10 * n
    · simp only [hle, ↓reduceIte, Option.some.injEq, Prod.mk.injEq]
      constructor
      · intro h
        obtain ⟨_, _, ⟨-, rfl⟩, hes⟩ := h
        omega
      · intro hlt
        omega
    · simp only [hle, ↓reduceIte, Option.some.injEq, Prod.mk.injEq]
      exact iff_of_true ⟨_, _, ⟨rfl, rfl⟩, Nat.zero_le _⟩
        (Nat.lt_of_not_le hle)

/-- The node at address 1.2.3.4 and port 1. -/
def sampleNode : Members := nodeObject (ascii "1.2.3.4") 1 true

private theorem sampleNode_reads : ∃ sa, ReadsAs dotted sampleNode sa := by
  have htext : AddressText (ascii "1.2.3.4") := by
    unfold AddressText
    decide
  have haddr : (nodeAddr dotted (ascii "1.2.3.4") 1 true).isSome := by
    decide +kernel
  obtain ⟨sa, hsa⟩ := Option.isSome_iff_exists.mp haddr
  exact ⟨sa, _, 1, true, rfl, htext, hsa⟩

private theorem cstr_sampleNodes (k : Nat) :
    cstr (arrayText (List.replicate k sampleNode))
      = arrayText (List.replicate k sampleNode) ++ [] := by
  obtain ⟨sa, h⟩ := sampleNode_reads
  rw [List.append_nil]
  refine cstr_eq_self (nul_notMem_arrayText fun ms hms => ?_)
  exact List.eq_of_mem_replicate hms ▸ h.plain

theorem entry_limit_two :
    ∃ sa, parseNodeList dotted (arrayText [sampleNode, sampleNode]) 2
        (fun _ => JsmnTok.zero) = some (0, [sa, sa]) := by
  obtain ⟨sa, h⟩ := sampleNode_reads
  have hall : List.Forall₂ (ReadsAs dotted)
      (List.replicate 2 sampleNode) [sa, sa] := .cons h (.cons h .nil)
  have hlim := @entry_limit dotted _ [] 2 (fun _ => JsmnTok.zero) _ _ hall
    (by decide) (cstr_sampleNodes 2)
  exact ⟨sa, hlim.mpr (by decide)⟩

/-- Four nodes are read where three were asked for. -/
theorem four_nodes_for_three :
    ∃ sa, ReadsAs dotted sampleNode sa
      ∧ parseNodeList dotted (arrayText (List.replicate 4 sampleNode)) 3
        (fun _ => JsmnTok.zero) = some (0, List.replicate 4 sa) := by
  obtain ⟨sa, h⟩ := sampleNode_reads
  refine ⟨sa, h, ?_⟩
  rw [parseNodeList_nodes (by decide)
    (.cons h (.cons h (.cons h (.cons h .nil)))) layout_nil
    (cstr_sampleNodes 4), if_pos (by decide)]
  rfl

end Psnet.Parse
