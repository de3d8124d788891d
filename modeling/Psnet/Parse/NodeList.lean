/-
What `parse_node_list` makes of a message.

`readNode` is `parse_node` on the members of an object, in terms of the
values a lookup finds, and `readElement` what the loop does at one
element. On the tokens of a message the loop collects the elements of
the array (`parseNodeList_array`); a message without tokens leaves it
with what its array held before (`parseNodeList_blank`).

# The order of the tests

`parse_node` copies the address before it looks at the port, and the port
only if the address is one; `readNode` makes the same choices on values
instead of tokens, with the copies that may not fit as `none`. The list of
entries grows while the loop goes on, so what was read before an element
that is refused is there all the same.
-/
import Psnet.Jsmn.Text
import Psnet.Net.Dotted
import Psnet.Parse.Message
import Psnet.Parse.Siblings

namespace Psnet.Parse

open Net Jsmn Forest

variable {inet : Inet} {msg : List UInt8} {n : Nat} {stack : Nat → JsmnTok}
  {a : Lab} {kids rest f : Forest Lab} {r toks : List JsmnTok}

-- ================================================================== an element

/-- The text of a value, copied to an array of `INET6_ADDRSTRLEN`;
`none` is a copy that does not fit. -/
def copyVal (msg : List UInt8) (v : Lab) : Option Text :=
  if INET6_ADDRSTRLEN ≤ v.stop - v.start then none else some (valText msg v)

/-- The address a node is given before its texts are read. -/
def familyOf (v : UInt8) : Sockaddr := { Sockaddr.zero with
  ssFamily := if v = 52 then AF_INET else AF_INET6 }

/-- The tests of `parse_node` before it copies: the address, the port and
the character of the family, `none` inside where it rejects the node. -/
def nodeChecked (msg : List UInt8) (node : List JsmnTok) :
    Option (Option (JsmnTok × JsmnTok × UInt8)) := do
  let (rc, is) ← jsmnGetValues msg node
    [ascii "ip", ascii "port", ascii "ipv"]
  if rc = -1 then return none
  else do
    let ip ← is[0]? >>= tokenAt node
    let port ← is[1]? >>= tokenAt node
    let ipv ← is[2]? >>= tokenAt node
    if ip.type ≠ .string then return none
    else if port.type ≠ .primitive then return none
    else do
      let p ← charAt msg port.start
      if p < 48 ∨ 57 < p then return none
      else if ipv.type ≠ .primitive then return none
      else do
        let v ← charAt msg ipv.start
        if v ≠ 52 ∧ v ≠ 54 then return none
        else return some (ip, port, v)

/-- The members of a node, where all are there and start as they
should. -/
def nodeFields (msg : List UInt8) (kids : Forest Lab) :
    Option (Lab × Lab × UInt8) :=
  match findPair msg (ascii "ip") kids, findPair msg (ascii "port") kids,
    findPair msg (ascii "ipv") kids with
  | some ip, some port, some ipv =>
      let p := byteAt msg port.val.start
      let v := byteAt msg ipv.val.start
      if ip.val.type = .string ∧ port.val.type = .primitive
          ∧ ¬ (p < 48 ∨ 57 < p) ∧ ipv.val.type = .primitive
          ∧ ¬ (v ≠ 52 ∧ v ≠ 54) then some (ip.val, port.val, v)
      else none
  | _, _, _ => none

/-- `parse_node` on the members of an object. -/
def readNode (inet : Inet) (msg : List UInt8) (kids : Forest Lab) :
    Option (Option Sockaddr) :=
  match nodeFields msg kids with
  | none => some none
  | some (ip, port, v) => do
      let s ← copyVal msg ip
      match inet.pton (familyOf v) s with
      | none => some none
      | some sa => do
          let s ← copyVal msg port
          match nodePort s with
          | none => some none
          | some lport => some (some (setInPort sa (htons lport)))

/-- What `parse_node_list` does at an element: the entry it appends. -/
def readElement (inet : Inet) (msg : List UInt8) (e : Lab × Forest Lab) :
    Option (Option Sockaddr) :=
  if e.1.type ≠ .object ∨ e.2.width < 6 then some none
  else readNode inet msg e.2

theorem copyTok_tok {v : Lab} {n : Nat} (h : v.start ≤ v.stop) :
    copyTok msg (v.tok n) = copyVal msg v := by
  have hlen : ((INET6_ADDRSTRLEN : Int) ≤ jsmnToklen (v.tok n))
      ↔ INET6_ADDRSTRLEN ≤ v.stop - v.start := by
    simp only [jsmnToklen, Lab.tok]
    omega
  unfold copyTok copyVal
  simp only [hlen, jsmnTokdup_tok h]

theorem tok_type (v : Lab) (n : Nat) : (v.tok n).type = v.type := rfl

theorem charAt_tok (msg : List UInt8) (v : Lab) (n : Nat) :
    charAt msg (v.tok n).start = some (byteAt msg v.start) := by
  have h : ¬ (v.tok n).start < 0 := Int.not_lt.mpr (Int.natCast_nonneg _)
  rw [charAt, if_neg h]
  rfl

/-- A string or primitive that a lookup finds has nothing below it. -/
private theorem leaf_kids {js key : List UInt8} {p : Pair}
    (hw : All (Written js) kids) (h : findPair msg key kids = some p)
    (ht : p.val.type = .string ∨ p.val.type = .primitive) :
    p.kids = .nil := by
  have htoks : (tokens (tree p.val kids)).drop 1 = tokens kids ++ [] := by
    simp
  have hwr := (pairs_tok (findPair_mem h).1 hw htoks).2.2
  unfold Written at hwr
  rcases ht with ht | ht <;> rw [ht] at hwr <;> exact hwr.1

/-- The values of the pairs of an object stand in it. -/
theorem findPair_le {key : Text} {p : Pair} {lo hi : Nat}
    (hs : LabSpans lo kids hi) (h : findPair msg key kids = some p) :
    p.val.start ≤ p.val.stop :=
  ((pairs_spans (i := 1) hs).1 p (findPair_mem h).1).2.2.1

/-- The values `parse_node` finds stand in the node. -/
theorem nodeFields_le {ip port : Lab} {v : UInt8} {lo hi : Nat}
    (hs : LabSpans lo kids hi)
    (h : nodeFields msg kids = some (ip, port, v)) :
    ip.start ≤ ip.stop ∧ port.start ≤ port.stop ∧ ip.stop ≤ hi := by
  unfold nodeFields at h
  split at h
  · next hip hport _ =>
    obtain ⟨-, heq⟩ := Option.ite_none_right_eq_some.mp h
    cases heq
    have hin := (pairs_spans (i := 1) hs).1 _ (findPair_mem hip).1
    exact ⟨hin.2.2.1, findPair_le hs hport, hin.2.2.2⟩
  · cases h

/-- `parse_node`: what it does with a node that passes its tests. -/
private theorem parseNode_checked (node : List JsmnTok) :
    parseNode inet msg node = (do
      match ← nodeChecked msg node with
      | none => return none
      | some (ip, port, v) =>
          let s ← copyTok msg ip
          match inet.pton (familyOf v) s with
          | none => return none
          | some sa => do
              let s ← copyTok msg port
              match nodePort s with
              | none => return none
              | some lport => return some (setInPort sa (htons lport))) := by
  unfold parseNode nodeChecked
  cases jsmnGetValues msg node [ascii "ip", ascii "port", ascii "ipv"] with
  | none => rfl
  | some res =>
  obtain ⟨rc, is⟩ := res
  dsimp only [bind, Option.bind_some]
  by_cases h0 : rc = -1
  · rw [if_pos h0, if_pos h0]
    rfl
  rw [if_neg h0, if_neg h0]
  -- the checks are the same; only what follows them is apart
  cases is[0]?.bind (tokenAt node) with
  | none => rfl
  | some ip =>
  cases is[1]?.bind (tokenAt node) with
  | none => rfl
  | some port =>
  cases is[2]?.bind (tokenAt node) with
  | none => rfl
  | some ipv =>
  dsimp only [Option.bind_some]
  by_cases h1 : ip.type ≠ .string
  · rw [if_pos h1, if_pos h1]
    rfl
  by_cases h2 : port.type ≠ .primitive
  · rw [if_neg h1, if_neg h1, if_pos h2, if_pos h2]
    rfl
  rw [if_neg h1, if_neg h1, if_neg h2, if_neg h2]
  cases charAt msg port.start with
  | none => rfl
  | some p =>
  dsimp only [Option.bind_some]
  by_cases h3 : p < 48 ∨ 57 < p
  · rw [if_pos h3, if_pos h3]
    rfl
  by_cases h4 : ipv.type ≠ .primitive
  · rw [if_neg h3, if_neg h3, if_pos h4, if_pos h4]
    rfl
  rw [if_neg h3, if_neg h3, if_neg h4, if_neg h4]
  cases charAt msg ipv.start with
  | none => rfl
  | some v =>
  dsimp only [Option.bind_some]
  by_cases h5 : v ≠ 52 ∧ v ≠ 54
  · rw [if_pos h5, if_pos h5]
    rfl
  rw [if_neg h5, if_neg h5]
  rfl

/-- The tests of `parse_node` on the tokens of a value. -/
theorem nodeChecked_spec {js : List UInt8} (hw : All (Written js) kids) :
    nodeChecked msg (tokens (tree a kids) ++ r)
      = some ((nodeFields msg kids).map fun n =>
          (n.1.tok 0, n.2.1.tok 0, n.2.2)) := by
  unfold nodeChecked nodeFields
  rw [jsmnGetValues_spec hw]
  cases hip : findPair msg (ascii "ip") kids with
  | none => simp [findPairs, hip]
  | some ip =>
  cases hport : findPair msg (ascii "port") kids with
  | none => simp [findPairs, hport]
  | some port =>
  cases hipv : findPair msg (ascii "ipv") kids with
  | none => simp [findPairs, hipv]
  | some ipv =>
      simp only [findPairs, hip, hport, hipv, List.map_cons, List.map_nil,
        List.any_cons, List.any_nil, Option.isNone_some, Bool.or_self,
        Bool.false_eq_true, ↓reduceIte, bind, Option.bind_some,
        show ¬ (0 : Int) = -1 by decide, List.getElem?_cons_zero,
        List.getElem?_cons_succ, tokenAt_answer hw hip,
        tokenAt_answer hw hport, tokenAt_answer hw hipv, charAt_tok,
        tok_type]
      by_cases h1 : ip.val.type = .string
      case neg => simp [h1]
      by_cases h2 : port.val.type = .primitive
      case neg => simp [h2]
      by_cases h3 : byteAt msg port.val.start < 48
        ∨ 57 < byteAt msg port.val.start
      case pos => simp [h3]
      by_cases h4 : ipv.val.type = .primitive
      case neg => simp [h4]
      by_cases h5 : byteAt msg ipv.val.start ≠ 52
        ∧ byteAt msg ipv.val.start ≠ 54
      case pos => simp [h5]
      -- all checks are passed, and strings and primitives have no members
      have hnip : ip.kids = .nil := leaf_kids hw hip (Or.inl h1)
      have hnport : port.kids = .nil := leaf_kids hw hport (Or.inr h2)
      simp only [h1, h2, h3, h4, h5, hnip, hnport, ne_eq, not_true,
        not_false_iff, ↓reduceIte, and_self]
      rfl

/-- `parse_node` on the tokens of a value. -/
theorem parseNode_spec (hw : All (Written msg) kids) {lo hi : Nat}
    (hs : LabSpans lo kids hi) :
    parseNode inet msg (tokens (tree a kids) ++ r)
      = readNode inet msg kids := by
  rw [parseNode_checked, nodeChecked_spec hw, readNode]
  cases hn : nodeFields msg kids with
  | none => rfl
  | some n =>
      obtain ⟨ip, port, v⟩ := n
      obtain ⟨hip, hport, -⟩ := nodeFields_le hs hn
      simp only [Option.map_some, bind, Option.bind_some, copyTok_tok hip,
        copyTok_tok hport]
      rfl

-- ================================================================== the list

/-- What the loop does at the elements of an array, in terms of their
values. -/
private theorem collect_elements (f : Forest Lab) :
    ∀ {i lo hi : Nat}, toks.drop i = tokens f ++ r →
      All (Written msg) f → LabSpans lo f hi →
      collect (nodeBody inet msg toks) (starts i f)
        = collect (readElement inet msg) f.trees := by
  induction f with
  | nil => exact fun _ _ _ => rfl
  | node a kids rest _ ih =>
      intro i lo hi h hw hs
      obtain ⟨hrest, hi, htree⟩ := drop_starts h
      have hbody : nodeBody inet msg toks i
          = readElement inet msg (a, kids) := by
        simp only [nodeBody, hi, bind, Option.bind_some, readElement, htree,
          parseNode_spec hw.2.1 hs.2.1, tok_type]
        rfl
      rw [starts, trees, collect, collect, hbody, ih hrest hw.2.2 hs.2.2]

/-- What `parse_node_list` does with the array. -/
def nodeListRead (inet : Inet) (msg : List UInt8) (tok : List JsmnTok) :
    Option (Int × List Sockaddr) := do
  let t ← tok[0]?
  if t.type ≠ .array then return (-1, [])
  else nodeLoop inet msg tok (tok.length + 1) 1 (t.size + 1)

/-- The token array of `parse_node_list` at entry. -/
def nodeTokens (n : Nat) (stack : Nat → JsmnTok) : List JsmnTok :=
  (List.range (1 + 10 * n)).map stack

private theorem length_nodeTokens (n : Nat) (stack : Nat → JsmnTok) :
    (nodeTokens n stack).length = 1 + 10 * n := by
  simp [nodeTokens]

theorem parseNodeList_reads (hn : 1 + 10 * n ≤ INT_MAX)
    (stack : Nat → JsmnTok) :
    parseNodeList inet msg n stack = (do
      match ← jsmnParse msg (nodeTokens n stack) (1 + 10 * n) with
      | .error _ => return (-1, [])
      | .ok (_, tok) => nodeListRead inet msg tok) := by
  rw [parseNodeList]
  simp only [if_neg (Nat.not_lt.mpr hn)]
  rfl

theorem parseNodeList_huge (hn : INT_MAX < 1 + 10 * n) :
    parseNodeList inet msg n stack = none := by
  simp [parseNodeList, hn]

theorem parseNodeList_error (hn : 1 + 10 * n ≤ INT_MAX) {e : JsmnErr}
    (h : zipParse msg (1 + 10 * n) = .error e) :
    parseNodeList inet msg n stack = some (-1, []) := by
  have hspec := jsmnParse_spec msg
    (Nat.le_of_eq (length_nodeTokens n stack).symm)
  rw [h] at hspec
  rw [parseNodeList_reads hn, hspec]
  rfl

/-- On the tokens of a value it is what its elements make. -/
theorem nodeListRead_tree (hw : All (Written msg) kids) {lo hi : Nat}
    (hs : LabSpans lo kids hi) (r : List JsmnTok) :
    nodeListRead inet msg (tokens (tree a kids) ++ r)
      = if a.type = .array then collect (readElement inet msg) kids.trees
        else some (-1, []) := by
  generalize htoks : tokens (tree a kids) ++ r = toks
  have h0 : toks[0]? = some (a.tok kids.width) := by simp [← htoks]
  have h1 : toks.drop 1 = tokens kids ++ r := by simp [← htoks]
  have hlen : kids.width < toks.length + 1 := by
    have := width_le_count kids
    rw [← htoks]
    simp
    omega
  simp only [nodeListRead, h0, bind, Option.bind_some]
  by_cases ha : a.type = .array
  · rw [if_neg (by simpa [Lab.tok] using ha), if_pos ha,
      ← collect_elements kids h1 hw hs, Lab.tok]
    simp only
    rw [Nat.add_comm kids.width 1]
    exact nodeLoop_visits kids h1 hlen
  · rw [if_pos (by simpa [Lab.tok] using ha), if_neg ha]
    rfl

/-- On an array the elements are read until one is rejected. -/
theorem parseNodeList_array (hn : 1 + 10 * n ≤ INT_MAX)
    (h : zipParse msg (1 + 10 * n) = .ok (.node a kids rest)) :
    parseNodeList inet msg n stack
      = if a.type = .array then collect (readElement inet msg) kids.trees
        else some (-1, []) := by
  have hspec := jsmnParse_spec msg
    (Nat.le_of_eq (length_nodeTokens n stack).symm)
  rw [h] at hspec
  obtain ⟨p, -, hparse⟩ := hspec
  obtain ⟨hspans, hw⟩ := zipParse_good h
  rw [parseNodeList_reads hn, hparse, tokens_root]
  exact nodeListRead_tree hw.2.1 hspans.2.1 _

/-- A text without tokens is read as what the array holds. -/
private theorem parseNodeList_blank (hn : 1 + 10 * n ≤ INT_MAX)
    (h : zipParse msg (1 + 10 * n) = .ok .nil) :
    parseNodeList inet msg n stack
      = if (stack 0).type = .array then
          nodeLoop inet msg (nodeTokens n stack) (1 + 10 * n + 1) 1
            ((stack 0).size + 1)
        else some (-1, []) := by
  have hspec := jsmnParse_spec msg
    (Nat.le_of_eq (length_nodeTokens n stack).symm)
  rw [h] at hspec
  obtain ⟨p, -, hparse⟩ := hspec
  simp only [tokens_nil, count_nil, List.drop_zero, List.nil_append]
    at hparse
  have h0 : (nodeTokens n stack)[0]? = some (stack 0) := by
    simp [nodeTokens]
  rw [parseNodeList_reads hn, hparse]
  simp only [bind, Option.bind_some, nodeListRead, h0, length_nodeTokens]
  by_cases ha : (stack 0).type = .array
  · rw [if_neg (by simpa using ha), if_pos ha]
  · rw [if_pos ha, if_neg ha]
    rfl

-- ========================================================== all or nothing

section Collect

variable {ι α : Type} {body : ι → Option (Option α)} {is : List ι}

/-- The walk comes to its end when every element is accepted. -/
private theorem collect_zero {xs : List α} :
    collect body is = some (0, xs)
      ↔ List.Forall₂ (fun i x => body i = some (some x)) is xs := by
  constructor
  · intro h
    induction is generalizing xs with
    | nil =>
        cases h
        exact .nil
    | cons i is ih =>
        rw [collect] at h
        cases hi : body i with
        | none => simp [hi] at h
        | some x =>
            cases x with
            | none => simp [hi] at h
            | some x =>
                cases hrest : collect body is with
                | none => simp [hi, hrest] at h
                | some p =>
                    obtain ⟨rc, ys⟩ := p
                    simp only [hi, hrest, bind, Option.bind_some, pure,
                      Option.some.injEq, Prod.mk.injEq] at h
                    obtain ⟨rfl, rfl⟩ := h
                    exact .cons hi (ih hrest)
  · intro h
    induction h with
    | nil => rfl
    | cons hi _ ih => simp [collect, hi, ih]

/-- It gives up with nothing when the first element is rejected. -/
private theorem collect_nothing :
    collect body is = some (-1, [])
      ↔ ∃ i, is.head? = some i ∧ body i = some none := by
  cases is with
  | nil => simp [collect]
  | cons i is =>
      rw [collect]
      cases hi : body i with
      | none => simp [hi]
      | some x =>
          cases x with
          | none => simp [hi]
          | some x =>
              cases collect body is with
              | none => simp [hi]
              | some p => simp [hi]

end Collect

/-- `parse_node_list` either fails and appends nothing or appends an
entry for every element of the array, in order. -/
def AllOrNothing (inet : Inet) (msg : List UInt8) (n : Nat)
    (stack : Nat → JsmnTok) : Prop :=
  parseNodeList inet msg n stack = some (-1, [])
    ∨ ∃ a kids rest sas, zipParse msg (1 + 10 * n) = .ok (.node a kids rest)
      ∧ a.type = .array
      ∧ parseNodeList inet msg n stack = some (0, sas)
      ∧ List.Forall₂ (fun e sa => readElement inet msg e = some (some sa))
        kids.trees sas

theorem forall₂_of_accepted {ι α : Type} {R : ι → α → Prop} :
    ∀ {is : List ι}, (∀ i ∈ is, ∃ x, R i x) → ∃ xs, List.Forall₂ R is xs
  | [], _ => ⟨[], .nil⟩
  | i :: is, h => by
      obtain ⟨x, hx⟩ := h i (List.mem_cons_self ..)
      obtain ⟨xs, hxs⟩ := forall₂_of_accepted fun j hj =>
        h j (List.mem_cons_of_mem _ hj)
      exact ⟨x :: xs, .cons hx hxs⟩

/-- It does, whatever its array held, exactly when the message is not
blank, and an array in it has its first element rejected or every
element accepted. -/
theorem all_or_nothing (inet : Inet) (msg : List UInt8) (n : Nat) :
    (∀ stack, AllOrNothing inet msg n stack)
      ↔ 1 + 10 * n ≤ INT_MAX ∧ ¬ Layout (cstr msg)
        ∧ ∀ a kids rest, zipParse msg (1 + 10 * n) = .ok (.node a kids rest) →
          a.type = .array →
          (∃ e, kids.trees.head? = some e
              ∧ readElement inet msg e = some none)
            ∨ ∀ e ∈ kids.trees, ∃ sa, readElement inet msg e = some (some sa)
    := by
  constructor
  · intro h
    have hn : 1 + 10 * n ≤ INT_MAX := by
      by_contra hn
      have h0 := h fun _ => JsmnTok.zero
      simp [AllOrNothing, parseNodeList_huge (Nat.lt_of_not_le hn)] at h0
    refine ⟨hn, fun hblank => ?_, fun a kids rest hz ha => ?_⟩
    · -- an empty array left on the stack counts as one that was read
      have hz : zipParse msg (1 + 10 * n) = .ok .nil :=
        zipParse_blank.mpr hblank
      rcases h fun _ => ⟨.array, 0, 0, 0⟩ with h | ⟨a, kids, rest, _, hz', -⟩
      · rw [parseNodeList_blank hn hz] at h
        simp [nodeLoop] at h
      · rw [hz] at hz'
        cases hz'
    · rcases h fun _ => JsmnTok.zero with h | ⟨a', kids', rest', sas, hz', -,
        h, hall⟩
      · rw [parseNodeList_array hn hz, if_pos ha, collect_nothing] at h
        exact Or.inl h
      · rw [hz] at hz'
        cases hz'
        apply Or.inr
        intro e he
        obtain ⟨i, hi, rfl⟩ := List.getElem_of_mem he
        have := List.forall₂_iff_get.mp hall
        exact ⟨_, this.2 i hi (this.1 ▸ hi)⟩
  · intro h stack
    obtain ⟨hn, hblank, h⟩ := h
    -- what is no text, no array or starts with a rejected entry gives
    -- nothing
    cases hz : zipParse msg (1 + 10 * n) with
    | error e => exact Or.inl (parseNodeList_error hn hz)
    | ok f =>
        cases f with
        | nil => exact absurd (zipParse_blank.mp hz) hblank
        | node a kids rest =>
            have hparse : parseNodeList inet msg n stack = _ :=
              parseNodeList_array hn hz
            by_cases ha : a.type = .array
            case neg => exact Or.inl (hparse.trans (if_neg ha))
            rw [if_pos ha] at hparse
            rcases h a kids rest hz ha with hfirst | hall
            · exact Or.inl (hparse.trans (collect_nothing.mpr hfirst))
            · obtain ⟨sas, hsas⟩ := forall₂_of_accepted hall
              exact Or.inr ⟨a, kids, rest, sas, hz, ha,
                hparse.trans (collect_zero.mpr hsas), hsas⟩

/-- A node, and an element that is none. -/
def badSecond : List UInt8 :=
  ascii "[\x7b\"ip\":\"1.2.3.4\",\"port\":1,\"ipv\":4\x7d,1]"

/-- The node stays on the list of a call that fails. -/
theorem bad_second_keeps_first :
    ¬ AllOrNothing dotted badSecond 2 fun _ => JsmnTok.zero := by
  have hrun : (parseNodeList dotted badSecond 2 fun _ => JsmnTok.zero).map
      (fun p => (p.1, p.2.length)) = some (-1, 1) := by decide +kernel
  rintro (h | ⟨_, _, _, _, -, -, h, -⟩)
  · simp [h] at hrun
  · simp [h] at hrun

end Psnet.Parse
