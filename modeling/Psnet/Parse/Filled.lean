/-
What the readers of common/parse.c see of their token array.

The part of each reader after `jsmn_parse` is a function of the array
(`messageRead`, `headerRead`, `nodeListRead`). On the tokens of a
message it is determined by the values of the message, so that anything
may stand behind the tokens, or nothing. A message without tokens is
read all the same, as the token the array happened to start with: the
readers ask for the type of `tok[0]`, not for the number of tokens
(`only_filled_iff`).

# Two statements for each reader

That a reader looks at the tokens of the message only is a statement about
its part after `jsmn_parse`, in an array of any size; that two arrays come
to the same is one about the whole reader, in the array it has. The second
follows from the first, and the converse is refuted for both by the same
blank text.
-/
import Psnet.Parse.NodeList

namespace Psnet.Parse

open Net Jsmn Forest

variable {inet : Inet} {msg key : List UInt8} {num i : Nat} {α : Type}
  {tok toks r : List JsmnTok} {f kids rest : Forest Lab} {a : Lab}

-- ================================================================== the readers

/-- What `parse_message` does with the array: the index it returns,
`none` inside where the message is no object. -/
def messageRead (msg : List UInt8) (tok : List JsmnTok) :
    Option (Option Int) := do
  let t ← tok[0]?
  if t.type ≠ .object then return none
  else
    let method ← jsmnGetValue msg tok (ascii "method")
    return some method

/-- What `parse_header` does with the array. -/
def headerRead (msg : List UInt8) (tok : List JsmnTok) :
    Option (Option (PsnetStatus × Nat)) := do
  let t ← tok[0]?
  if t.type ≠ .object then return none
  else do
    let istatus ← jsmnGetValue msg tok (ascii "status")
    if istatus = -1 then return none
    else do
      let isize ← jsmnGetValue msg tok (ascii "size")
      match ← headerSize msg tok isize with
      | none => return none
      | some size => do
          let t ← tokenAt tok istatus
          let okay ← tokStartsWith msg t (ascii "okay")
          return some (if okay then .okay else .error, size)

/-- `parse_message` tokenizes and reads what it has then. -/
theorem parseMessage_reads (msg : List UInt8) (tok : List JsmnTok)
    (num : Nat) :
    parseMessage msg tok num = (do
      match ← jsmnParse msg tok num with
      | .error _ => return (-1, tok, num)
      | .ok (p, tok) =>
          match ← messageRead msg tok with
          | none => return (-1, tok, num)
          | some method => return (method, tok, p.toknext)) := by
  unfold parseMessage messageRead
  cases jsmnParse msg tok num with
  | none => rfl
  | some res =>
      cases res with
      | error e => rfl
      | ok res =>
          obtain ⟨p, tok'⟩ := res
          simp only [bind, Option.bind_some]
          cases tok'[0]? with
          | none => rfl
          | some t =>
              simp only [Option.bind_some]
              split
              · rfl
              · cases jsmnGetValue msg tok' (ascii "method") <;> rfl

/-- So does `parse_header`. -/
theorem parseHeader_reads (msg : List UInt8) (stack : Nat → JsmnTok) :
    parseHeader msg stack = (do
      match ← jsmnParse msg ((List.range 256).map stack) 256 with
      | .error _ => return none
      | .ok (_, tok) => headerRead msg tok) := rfl

-- =============================================================== what they see

/-- A reader of an array looks at no token from the `n`th on: anything
may stand there, or nothing. -/
def ReadsBelow (n : Nat) (toks : List JsmnTok)
    (read : List JsmnTok → α) : Prop :=
  ∀ r, read (toks.take n ++ r) = read toks

/-- After `jsmn_parse`, in an array of any size that held anything, the
reader looks at the tokens of the message only. -/
def Filled (msg : List UInt8) (read : List JsmnTok → α) : Prop :=
  ∀ (tok tok' : List JsmnTok) (num : Nat) (p : JsmnParser),
    num ≤ tok.length → jsmnParse msg tok num = some (.ok (p, tok')) →
    ReadsBelow p.toknext tok' read

/-- What `parse_message` returns, writes to `*ntok`, and has of tokens
for its caller. -/
def messageSeen (res : Int × List JsmnTok × Nat) :
    Int × Nat × List JsmnTok :=
  (res.1, res.2.2, if res.1 = -1 then [] else res.2.1.take res.2.2)

/-- `parse_message` sees the tokens of the message only, and two arrays
come to the same. -/
def MessageFilled (msg : List UInt8) : Prop :=
  Filled msg (messageRead msg)
    ∧ ∀ (tok tok' : List JsmnTok) (num : Nat), num ≤ tok.length →
      num ≤ tok'.length →
      (parseMessage msg tok num).map messageSeen
        = (parseMessage msg tok' num).map messageSeen

/-- So does `parse_header`. -/
def HeaderFilled (msg : List UInt8) : Prop :=
  Filled msg (headerRead msg)
    ∧ ∀ stack stack', parseHeader msg stack = parseHeader msg stack'

/-- So does `parse_node_list`. -/
def NodeListFilled (inet : Inet) (msg : List UInt8) : Prop :=
  Filled msg (nodeListRead inet msg)
    ∧ ∀ n stack stack',
      parseNodeList inet msg n stack = parseNodeList inet msg n stack'

/-- `parse_node` and `jsmn_get_value` see the tokens of the message
only, at whichever of them they are called. -/
def BelowFilled (inet : Inet) (msg : List UInt8) : Prop :=
  ∀ (tok tok' : List JsmnTok) (num : Nat) (p : JsmnParser) (i : Nat),
    num ≤ tok.length → jsmnParse msg tok num = some (.ok (p, tok')) →
    i < p.toknext →
    ReadsBelow p.toknext tok' (fun toks => parseNode inet msg (toks.drop i))
      ∧ ∀ key, ReadsBelow p.toknext tok' fun toks =>
        jsmnGetValue msg (toks.drop i) key

-- ========================================================= on the message's tokens

/-- What a parse leaves: the tokens of the message, then those there
were. -/
theorem jsmnParse_ok {tok tok' : List JsmnTok} {p : JsmnParser}
    (hn : num ≤ tok.length)
    (h : jsmnParse msg tok num = some (.ok (p, tok'))) :
    ∃ f, zipParse msg num = .ok f ∧ p.toknext = f.count
      ∧ tok' = tokens f ++ tok.drop f.count := by
  have hspec := jsmnParse_spec msg hn
  cases hz : zipParse msg num with
  | error e =>
      rw [hz] at hspec
      simp [hspec] at h
  | ok f =>
      rw [hz] at hspec
      obtain ⟨p', hp, hparse⟩ := hspec
      rw [h] at hparse
      cases hparse
      exact ⟨f, rfl, hp, rfl⟩

/-- A blank text leaves the array as it was. -/
theorem jsmnParse_blank (h : Layout (cstr msg)) (hn : num ≤ tok.length) :
    ∃ p, p.toknext = 0 ∧ jsmnParse msg tok num = some (.ok (p, tok)) := by
  have hspec := jsmnParse_spec msg hn
  rw [zipParse_blank.mpr h] at hspec
  simpa using hspec

private theorem take_tokens (f : Forest Lab) (r : List JsmnTok) :
    (tokens f ++ r).take f.count = tokens f :=
  List.take_left' (length_tokens f)

/-- A reader that gives the same whatever stands behind the tokens. -/
def Fixed (toks : List JsmnTok) (read : List JsmnTok → α) : Prop :=
  ∀ r r', read (toks ++ r) = read (toks ++ r')

theorem Fixed.readsBelow {read : List JsmnTok → α}
    (h : Fixed (tokens f) read) (r : List JsmnTok) :
    ReadsBelow f.count (tokens f ++ r) read := by
  intro r'
  rw [take_tokens]
  exact h r' r

/-- Where the tokens of its first value fix what is read, no others of a
message are seen. -/
private theorem filled_of_fixed {read : List JsmnTok → α}
    (hblank : ¬ Layout (cstr msg))
    (h : ∀ num a kids rest, zipParse msg num = .ok (.node a kids rest) →
      Fixed (tokens (tree a kids)) read) :
    Filled msg read := by
  intro tok tok' num p hn hparse
  obtain ⟨f, hz, hp, rfl⟩ := jsmnParse_ok hn hparse
  cases f with
  | nil => exact absurd (zipParse_blank.mp hz) hblank
  | node a kids rest =>
      rw [hp]
      refine Fixed.readsBelow (fun r r' => ?_) _
      rw [tokens_root, tokens_root]
      exact h num a kids rest hz _ _

section Value

variable (hw : All (Written msg) kids)

include hw

private theorem messageRead_tree (r : List JsmnTok) :
    messageRead msg (tokens (tree a kids) ++ r)
      = some (if a.type = .object then
          some (answer (findPair msg (ascii "method") kids)) else none) := by
  have hget := jsmnGetValue_spec msg (ascii "method")
    (rfl : tokens (tree a kids) ++ r = _) hw
  have h0 : (tokens (tree a kids) ++ r)[0]? = some (a.tok kids.width) := by
    simp
  simp only [messageRead, h0, bind, Option.bind_some, hget, tok_type]
  by_cases ha : a.type = .object <;> simp [ha]

private theorem headerSize_tree (key : Text) :
    Fixed (tokens (tree a kids)) fun toks =>
      headerSize msg toks (answer (findPair msg key kids)) := by
  intro r r'
  cases hp : findPair msg key kids with
  | none => rfl
  | some p =>
      simp only [headerSize, if_neg (answer_ne p), tokenAt_answer hw hp]

private theorem headerRead_tree :
    Fixed (tokens (tree a kids)) (headerRead msg) := by
  intro r r'
  have hsize := headerSize_tree (a := a) hw (ascii "size") r r'
  have hget : ∀ r key, jsmnGetValue msg (tokens (tree a kids) ++ r) key
      = some (answer (findPair msg key kids)) :=
    fun _ key => jsmnGetValue_spec msg key rfl hw
  have h0 : ∀ r, (tokens (tree a kids) ++ r)[0]?
      = some (a.tok kids.width) := by simp
  simp only at hsize
  simp only [headerRead, h0, hget, hsize, bind, Option.bind_some]
  cases hp : findPair msg (ascii "status") kids with
  | none => rfl
  | some p => simp only [tokenAt_answer hw hp]

end Value

/-- From the token of a value on, the array holds its tokens first. -/
theorem drop_sub (h : f.sub i = some (a, kids)) :
    ∃ r', ∀ r, (tokens f ++ r).drop i = tokens (tree a kids) ++ (r' ++ r) := by
  obtain ⟨r', hr⟩ := sub_listing Lab.tok h
  refine ⟨r', fun r => ?_⟩
  rw [List.drop_append_of_le_length, ← List.append_assoc]
  · exact congrArg (· ++ r) hr
  · have := congrArg List.length hr
    simp at this ⊢
    omega

theorem below_filled (inet : Inet) (msg : List UInt8) :
    BelowFilled inet msg := by
  intro tok tok' num p i hn hparse hi
  obtain ⟨f, hz, hp, rfl⟩ := jsmnParse_ok hn hparse
  obtain ⟨⟨a, kids⟩, hsub⟩ := sub_some (hp ▸ hi)
  obtain ⟨hs, hw⟩ := zipParse_good hz
  obtain ⟨r', hdrop⟩ := drop_sub hsub
  rw [hp]
  refine ⟨Fixed.readsBelow (fun r r' => ?_) _,
    fun key => Fixed.readsBelow (fun r r' => ?_) _⟩
  · simp only [hdrop, parseNode_spec (hw.sub hsub).2 (hs.sub hsub)]
  · simp only [hdrop, jsmnGetValue_spec msg key rfl (hw.sub hsub).2]

-- ==================================================================== the outcome

theorem messageFilled (h : ¬ Layout (cstr msg)) : MessageFilled msg := by
  refine ⟨filled_of_fixed h fun num a kids rest hz r r' => ?_,
    fun tok tok' num hn hn' => ?_⟩
  · have hw := (zipParse_good hz).2.2.1
    rw [messageRead_tree hw, messageRead_tree hw]
  · have hspec := jsmnParse_spec msg hn
    have hspec' := jsmnParse_spec msg hn'
    rw [parseMessage_reads, parseMessage_reads]
    cases hz : zipParse msg num with
    | error e =>
        rw [hz] at hspec hspec'
        rw [hspec, hspec']
        rfl
    | ok f =>
        cases f with
        | nil => exact absurd (zipParse_blank.mp hz) h
        | node a kids rest =>
            rw [hz] at hspec hspec'
            obtain ⟨p, hp, hparse⟩ := hspec
            obtain ⟨p', hp', hparse'⟩ := hspec'
            -- the same value stands first in both arrays
            have hread : ∀ r,
                messageRead msg (tokens (.node a kids rest) ++ r)
                  = some (if a.type = .object then
                      some (answer (findPair msg (ascii "method") kids))
                    else none) := fun r => by
              rw [tokens_root, messageRead_tree (zipParse_good hz).2.2.1]
            simp only [hparse, hparse', hread, bind, Option.bind_some, hp,
              hp']
            by_cases ha : a.type = .object
            · simp only [if_pos ha, pure, Option.map_some, messageSeen,
                take_tokens]
            · simp only [if_neg ha]
              rfl

theorem headerFilled (h : ¬ Layout (cstr msg)) : HeaderFilled msg := by
  refine ⟨filled_of_fixed h fun num a kids rest hz =>
    headerRead_tree (zipParse_good hz).2.2.1, fun stack stack' => ?_⟩
  have hroom : ∀ stack : Nat → JsmnTok,
      256 ≤ ((List.range 256).map stack).length := by simp
  have hspec := fun stack => jsmnParse_spec msg (hroom stack)
  rw [parseHeader_reads, parseHeader_reads]
  cases hz : zipParse msg 256 with
  | error e =>
      rw [hz] at hspec
      rw [hspec stack, hspec stack']
  | ok f =>
      cases f with
      | nil => exact absurd (zipParse_blank.mp hz) h
      | node a kids rest =>
          rw [hz] at hspec
          obtain ⟨p, -, hparse⟩ := hspec stack
          obtain ⟨p', -, hparse'⟩ := hspec stack'
          rw [hparse, hparse', tokens_root, tokens_root]
          exact headerRead_tree (zipParse_good hz).2.2.1 _ _

theorem nodeListFilled (h : ¬ Layout (cstr msg)) :
    NodeListFilled inet msg := by
  refine ⟨filled_of_fixed h fun num a kids rest hz r r' => ?_,
    fun n stack stack' => ?_⟩
  · obtain ⟨hs, hw⟩ := zipParse_good hz
    rw [nodeListRead_tree hw.2.1 hs.2.1, nodeListRead_tree hw.2.1 hs.2.1]
  · by_cases hn : 1 + 10 * n ≤ INT_MAX
    case neg =>
      rw [parseNodeList_huge (Nat.lt_of_not_le hn),
        parseNodeList_huge (Nat.lt_of_not_le hn)]
    cases hz : zipParse msg (1 + 10 * n) with
    | error e => rw [parseNodeList_error hn hz, parseNodeList_error hn hz]
    | ok f =>
        cases f with
        | nil => exact absurd (zipParse_blank.mp hz) h
        | node a kids rest =>
            rw [parseNodeList_array hn hz, parseNodeList_array hn hz]

/-- A blank text leaves the array to the reader, who cannot know. -/
private theorem not_filled {read : List JsmnTok → α} (h : Layout (cstr msg))
    (t : JsmnTok) (hread : read [t] ≠ read []) : ¬ Filled msg read := by
  intro hfilled
  obtain ⟨p, hp, hparse⟩ := jsmnParse_blank h (Nat.zero_le [t].length)
  have := hfilled [t] _ 0 p (Nat.zero_le 1) hparse []
  rw [hp] at this
  exact hread this.symm

/-- Each of the readers sees the tokens of a message only, whatever its
array held before, exactly when the message is not blank; the functions
below them do in any message. -/
theorem only_filled_iff (inet : Inet) (msg : List UInt8) :
    (MessageFilled msg ↔ ¬ Layout (cstr msg))
      ∧ (HeaderFilled msg ↔ ¬ Layout (cstr msg))
      ∧ (NodeListFilled inet msg ↔ ¬ Layout (cstr msg))
      ∧ BelowFilled inet msg := by
  have hfirst : ∀ {α : Type} {read : List JsmnTok → Option α},
      read [] = none → (read [JsmnTok.zero]).isSome → Filled msg read →
      ¬ Layout (cstr msg) := by
    intro α read hnil hsome hfilled hblank
    refine not_filled hblank JsmnTok.zero (fun heq => ?_) hfilled
    rw [heq, hnil] at hsome
    cases hsome
  exact ⟨⟨fun h => hfirst rfl rfl h.1, messageFilled⟩,
    ⟨fun h => hfirst rfl rfl h.1, headerFilled⟩,
    ⟨fun h => hfirst rfl rfl h.1, nodeListFilled⟩, below_filled inet msg⟩

/-- An empty list is read from a blank, or is not, as the stack has
it. -/
theorem blank_not_filled : ¬ NodeListFilled dotted (ascii " ") := by
  intro h
  have := h.2 0 (fun _ => ⟨.array, 0, 0, 0⟩) fun _ => JsmnTok.zero
  revert this
  decide

end Psnet.Parse
