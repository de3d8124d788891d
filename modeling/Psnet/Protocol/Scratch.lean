/-
The scratch copies of common/parse.c.

`parse_node` copies an address and a port to an array of
`INET6_ADDRSTRLEN` bytes, `parse_header` a size to one of five, each
with the length of its token and a NUL behind it. `nodeCopies` and
`headerCopies` are the tokens they copy. What they test before does not
bound a length, so a copy is inside its array exactly when the value
found is short (`scratch_copies_iff`). A blank message has no token of
its own; what is copied then is a token of an earlier message
(`stale_object`).

# Reading further than the text

`parse_header` and `parse_node` work on the buffer, the tokenizer on the
text in it. What they compare and copy lies within tokens of the text, so
whether a copy fits is a fact about the text (`SizeFits.congr`,
`NodeFits.congr`), except for a blank message, where the tokens are older
than the text.

`headerSize` of the model leaves the copy out, since nobody reads it;
`headerSize_copies` says that it is made, or not, at the same places.
-/
import Psnet.Parse.Filled
import Psnet.Parse.Nodes
import Psnet.Protocol.Response

namespace Psnet.Protocol

open Net Jsmn Parse Forest

variable {inet : Inet} {msg buf w key : List UInt8} {num size i : Nat}
  {r : List JsmnTok} {f kids : Forest Lab} {a v : Lab} {ms : Members}

-- ================================================================= the copies

/-- The offsets written by `strncpy(s, msg + tok->start, toklen)` and
`s[toklen] = 0`. -/
def copyWrites (t : JsmnTok) : List Int :=
  (List.range (jsmnToklen t).toNat).map Int.ofNat ++ [jsmnToklen t]

/-- All of them are inside an array of `size` bytes. -/
def Inside (size : Nat) (t : JsmnTok) : Prop :=
  ∀ j ∈ copyWrites t, 0 ≤ j ∧ j < size

/-- The size `parse_header` copies, given the index of its value. -/
def sizeCopies (msg : List UInt8) (tok : List JsmnTok) (isize : Int) :
    Option (List JsmnTok) :=
  if isize = -1 then some []
  else do
    let t ← tokenAt tok isize
    if t.type ≠ .primitive then return []
    else do
      let c ← charAt msg t.start
      if c < 48 ∨ 57 < c then return [] else return [t]

/-- What `parse_header` copies once it has its tokens. -/
def headerReadCopies (msg : List UInt8) (tok : List JsmnTok) :
    Option (List JsmnTok) := do
  let t ← tok[0]?
  if t.type ≠ .object then return []
  else do
    let istatus ← jsmnGetValue msg tok (ascii "status")
    if istatus = -1 then return []
    else do
      let isize ← jsmnGetValue msg tok (ascii "size")
      sizeCopies msg tok isize

/-- The tokens `parse_header` copies to `s`. -/
def headerCopies (msg : List UInt8) (stack : Nat → JsmnTok) :
    Option (List JsmnTok) := do
  match ← jsmnParse msg ((List.range 256).map stack) 256 with
  | .error _ => return []
  | .ok (_, tok) => headerReadCopies msg tok

/-- `parse_header` with the copy it makes of the size: one that is not
inside the array writes past it. -/
def parseHeaderCopying (msg : List UInt8) (stack : Nat → JsmnTok) :
    Option (Option (PsnetStatus × Nat)) := do
  let ts ← headerCopies msg stack
  if ∀ t ∈ ts, 0 ≤ jsmnToklen t ∧ jsmnToklen t < 5 then parseHeader msg stack
  else none

/-- The tokens `parse_node` copies to `s`, up to one that does not
fit. -/
def nodeCopies (inet : Inet) (msg : List UInt8) (node : List JsmnTok) :
    Option (List JsmnTok) := do
  match ← nodeChecked msg node with
  | none => return []
  | some (ip, port, v) =>
      match copyTok msg ip with
      | none => return [ip]
      | some s =>
          match inet.pton (familyOf v) s with
          | none => return [ip]
          | some _ => return [ip, port]

/-- A copy is inside its array when the text is shorter than it. -/
private theorem inside_iff {t : JsmnTok} :
    Inside size t ↔ 0 ≤ jsmnToklen t ∧ jsmnToklen t < size := by
  constructor
  · intro h
    exact h _ (List.mem_append_right _ (List.mem_singleton_self _))
  · intro h j hj
    obtain ⟨hnn, hlt⟩ := h
    rcases List.mem_append.mp hj with hj | hj
    · obtain ⟨k, hk, rfl⟩ := List.mem_map.mp hj
      have := List.mem_range.mp hk
      simp only [Int.ofNat_eq_natCast]
      omega
    · rw [List.mem_singleton.mp hj]
      exact ⟨hnn, hlt⟩

/-- A token fits an array that is longer than its text. -/
private theorem inside_tok {n : Nat} (h : v.start ≤ v.stop) :
    Inside size (v.tok n) ↔ v.stop - v.start < size := by
  rw [inside_iff]
  simp only [jsmnToklen, Lab.tok]
  omega

-- ==================================================================== a header

/-- The size of an object that is taken for a header, if it has one, is
shorter than the array. -/
def SizeFits (msg : List UInt8) (a : Lab) (kids : Forest Lab) : Prop :=
  a.type = .object → (findPair msg (ascii "status") kids).isSome →
  ∀ q, findPair msg (ascii "size") kids = some q →
    q.val.type = .primitive →
    ¬ (byteAt msg q.val.start < 48 ∨ 57 < byteAt msg q.val.start) →
    q.val.stop - q.val.start < 5

/-- What `parse_header` copies fits exactly when the size does. -/
theorem headerReadCopies_spec {js : List UInt8} {lo hi : Nat}
    (hw : All (Written js) kids) (hs : LabSpans lo kids hi) :
    ∃ ts, headerReadCopies msg (tokens (tree a kids) ++ r) = some ts
      ∧ ((∀ t ∈ ts, Inside 5 t) ↔ SizeFits msg a kids) := by
  have hget : ∀ key, jsmnGetValue msg (tokens (tree a kids) ++ r) key
      = some (answer (findPair msg key kids)) :=
    fun key => jsmnGetValue_spec msg key rfl hw
  have h0 : (tokens (tree a kids) ++ r)[0]? = some (a.tok kids.width) := by
    simp
  simp only [headerReadCopies, sizeCopies, h0, hget, bind, Option.bind_some,
    tok_type, SizeFits]
  by_cases ha : a.type = .object
  case neg => exact ⟨[], by simp [ha], by simp [ha]⟩
  cases hst : findPair msg (ascii "status") kids with
  | none => exact ⟨[], by simp [ha, answer], by simp⟩
  | some p =>
      simp only [ha, answer_ne p, ne_eq, not_true, ↓reduceIte]
      cases hsz : findPair msg (ascii "size") kids with
      | none => exact ⟨[], rfl, by simp⟩
      | some q =>
          have hle := findPair_le hs hsz
          simp only [answer_ne q, ↓reduceIte, tokenAt_answer hw hsz,
            Option.bind_some, tok_type, charAt_tok]
          by_cases ht : q.val.type = .primitive
          case neg => exact ⟨[], by simp [ht], by simp [ht]⟩
          by_cases hd : byteAt msg q.val.start < 48
            ∨ 57 < byteAt msg q.val.start
          case pos =>
            refine ⟨[], by simp [ht, hd], iff_of_true (by simp) ?_⟩
            intro _ _ q' hq' _ hd'
            cases hq'
            exact absurd hd hd'
          refine ⟨[q.val.tok q.kids.width], by simp [ht, hd], ?_⟩
          rw [List.forall_mem_singleton, inside_tok hle]
          exact ⟨fun h _ _ q' hq' _ _ => by cases hq'; exact h,
            fun h => h trivial rfl q rfl ht hd⟩

-- ====================================================================== a node

/-- The address of an object that is taken for a node is shorter than
the array, and so is its port where the address is accepted. -/
def NodeFits (inet : Inet) (msg : List UInt8) (kids : Forest Lab) :
    Prop :=
  ∀ ip port v, nodeFields msg kids = some (ip, port, v) →
    ip.stop - ip.start < INET6_ADDRSTRLEN
      ∧ ((inet.pton (familyOf v) (valText msg ip)).isSome →
        port.stop - port.start < INET6_ADDRSTRLEN)

/-- What `parse_node` copies fits exactly when the address and the port do.
-/
theorem nodeCopies_spec {js : List UInt8} {lo hi : Nat}
    (hw : All (Written js) kids) (hs : LabSpans lo kids hi) :
    ∃ ts, nodeCopies inet msg (tokens (tree a kids) ++ r) = some ts
      ∧ ((∀ t ∈ ts, Inside INET6_ADDRSTRLEN t)
        ↔ NodeFits inet msg kids) := by
  simp only [nodeCopies, nodeChecked_spec hw, bind, Option.bind_some]
  unfold NodeFits
  cases hn : nodeFields msg kids with
  | none => exact ⟨[], rfl, by simp⟩
  | some n =>
      obtain ⟨ip, port, v⟩ := n
      obtain ⟨hip, hport, -⟩ := nodeFields_le hs hn
      simp only [Option.map_some, copyTok_tok hip, copyVal,
        Option.some.injEq, Prod.mk.injEq]
      -- an address too long is copied, and then nothing else is
      by_cases hlen : INET6_ADDRSTRLEN ≤ ip.stop - ip.start
      · refine ⟨[ip.tok 0], by rw [if_pos hlen]; rfl, iff_of_false ?_ ?_⟩
        · rw [List.forall_mem_singleton, inside_tok hip]
          exact Nat.not_lt.mpr hlen
        · intro h
          exact absurd (h ip port v ⟨rfl, rfl, rfl⟩).1 (Nat.not_lt.mpr hlen)
      rw [if_neg hlen]
      have hlt := Nat.lt_of_not_le hlen
      dsimp only
      cases hsa : inet.pton (familyOf v) (valText msg ip) with
      | none =>
          refine ⟨[ip.tok 0], rfl, iff_of_true ?_ ?_⟩
          · rw [List.forall_mem_singleton, inside_tok hip]
            exact hlt
          · intro ip' port' v' h
            obtain ⟨rfl, rfl, rfl⟩ := h
            simp [hlt, hsa]
      | some sa =>
          refine ⟨[ip.tok 0, port.tok 0], rfl, ?_⟩
          rw [List.forall_mem_cons, List.forall_mem_singleton,
            inside_tok hip, inside_tok hport]
          constructor
          · intro h ip' port' v' h'
            obtain ⟨rfl, rfl, rfl⟩ := h'
            exact ⟨h.1, fun _ => h.2⟩
          · intro h
            obtain ⟨h1, h2⟩ := h ip port v ⟨rfl, rfl, rfl⟩
            exact ⟨h1, h2 (by rw [hsa]; rfl)⟩

-- =========================================================== what decides them

section Congr

variable {lo hi : Nat} (h : cstr msg = cstr buf) (hs : LabSpans lo kids hi)
  (hhi : hi ≤ (cstr msg).length)

include h hs hhi

/-- A lookup reads nothing behind the NUL. -/
private theorem findPair_cstr (hk : ∀ c ∈ key, c ≠ 0) :
    findPair msg key kids = findPair buf key kids :=
  findPair_congr hs fun _ hi =>
    startsWith_congr h hk (Nat.le_trans hi hhi)

/-- The first character of a value lies within the message. -/
private theorem byteAt_found {p : Pair} (hp : findPair msg key kids = some p) :
    byteAt msg p.val.start = byteAt buf p.val.start := by
  have hin := (pairs_spans (i := 1) hs).1 p (findPair_mem hp).1
  exact (AgreeTo.of_cstr h).bytes _ (by omega)

/-- Whether the size fits depends on the text only. -/
theorem SizeFits.congr (hf : SizeFits msg a kids) : SizeFits buf a kids := by
  have hfind : ∀ key, (∀ c ∈ key, c ≠ 0) →
      findPair msg key kids = findPair buf key kids :=
    fun _ hk => findPair_cstr h hs hhi hk
  intro ha hst q hq ht hd
  rw [← hfind _ (by decide)] at hst hq
  rw [← byteAt_found h hs hhi hq] at hd
  exact hf ha hst q hq ht hd

/-- The fields of a node depend on the text only. -/
private theorem nodeFields_cstr :
    nodeFields msg kids = nodeFields buf kids := by
  have hfind : ∀ key, (∀ c ∈ key, c ≠ 0) →
      findPair msg key kids = findPair buf key kids :=
    fun _ hk => findPair_cstr h hs hhi hk
  unfold nodeFields
  rw [← hfind _ (by decide), ← hfind _ (by decide), ← hfind _ (by decide)]
  cases findPair msg (ascii "ip") kids with
  | none => rfl
  | some ip =>
  cases hport : findPair msg (ascii "port") kids with
  | none => rfl
  | some port =>
  cases hipv : findPair msg (ascii "ipv") kids with
  | none => rfl
  | some ipv =>
      simp only [byteAt_found h hs hhi hport, byteAt_found h hs hhi hipv]

/-- Whether a node fits depends on the text only. -/
theorem NodeFits.congr (hf : NodeFits inet msg kids) :
    NodeFits inet buf kids := by
  intro ip port v hn
  rw [← nodeFields_cstr h hs hhi] at hn
  obtain ⟨hle, -, hstop⟩ := nodeFields_le hs hn
  rw [← valText_congr h (Nat.le_trans hstop hhi) hle]
  exact hf ip port v hn

end Congr

/-- A blank message in a buffer that still has the tokens and the text of
an earlier one, behind the same blanks. -/
private theorem stale_object (hw : Layout w) (hms : PlainMembers ms) :
    ∃ buf js a kids lo hi, cstr buf = w ∧ All (Written js) kids
      ∧ LabSpans lo kids hi ∧ a.type = .object
      ∧ (tree a kids).count = 1 + 2 * ms.length
      ∧ ∀ key v, QUOTE ∉ key → lookup key.isPrefixOf ms = some v →
        ∃ p, findPair buf key kids = some p ∧ Holds buf p.val v := by
  have hnul : 0 ∉ w := fun h0 => absurd (hw 0 h0) (by decide)
  have hpre : Layout (w ++ [32]) := by
    intro c hc
    rcases List.mem_append.mp hc with hc | hc
    · exact hw c hc
    · rw [List.mem_singleton.mp hc]
      decide
  have hleg : Legible true (tree ⟨w ++ [32], .object []⟩ (flat [] ms)) :=
    ⟨hpre, Or.inl rfl, layout_nil,
      legible_flat (by decide) (Or.inl rfl) hms, trivial⟩
  have htext : text (tree ⟨w ++ [32], .object []⟩ (flat [] ms))
      = w ++ 32 :: flatText ms := by
    simp [tree, text, Piece.write, flatText]
  -- with a blank for the NUL the whole is a text that was once parsed
  have hz : zipParse (w ++ 32 :: flatText ms) (1 + 2 * ms.length)
      = .ok _ := zipParse_text hleg layout_nil (by
        rw [htext, List.append_nil]
        apply cstr_eq_self
        intro h0
        rcases List.mem_append.mp h0 with h0 | h0
        · exact hnul h0
        · rcases List.mem_cons.mp h0 with h0 | h0
          · exact absurd h0 (by decide)
          · exact nul_notMem_flatText hms h0)
    (by simp only [tree, count_node, count_nil, count_flat]; omega)
  obtain ⟨hs, hwr⟩ := zipParse_good hz
  refine ⟨w ++ 0 :: flatText ms, _,
    (Piece.object []).lab (0 + (w ++ [32]).length)
      (text (flat [] ms)).length,
    labels (0 + (w ++ [32]).length + 1) (flat [] ms), _, _, ?_, hwr.2.1,
    hs.2.1, rfl, ?_, fun key v hq hv => ?_⟩
  · rw [cstr_append_nul, cstr_eq_self hnul]
  · simp only [tree, count_node, count_nil, count_labels, count_flat]
    omega
  · have hdrop : (w ++ 0 :: flatText ms).drop (0 + (w ++ [32]).length + 1)
        = text (flat [] ms) ++ [RBRACE] := by
      have hpos : 0 + (w ++ [32]).length + 1 = w.length + 2 := by simp
      rw [hpos, ← List.drop_drop, List.drop_left]
      rfl
    -- behind the NUL its characters are as they were
    have hfind := findPair_flat hms (by decide) (fun c hc => ?_) hdrop hq
    · rw [hv] at hfind
      exact hfind
    · cases hc
      exact Or.inr (by decide)

-- ================================================================== the messages

/-- Every write of `parse_header` to `s` is inside it, whatever its array
held and whatever stands behind the NUL of the message. -/
def HeaderInside (msg : List UInt8) : Prop :=
  ∀ buf stack ts, cstr buf = cstr msg →
    headerCopies buf stack = some ts → ∀ t ∈ ts, Inside 5 t

/-- So is every write of `parse_node` called at entry `i` of the tokens
of the message, or, where it has none, of what the array held. -/
def NodeInside (inet : Inet) (msg : List UInt8) (i : Nat) : Prop :=
  ∀ (buf : List UInt8) (tok tok' : List JsmnTok) (num : Nat)
    (p : JsmnParser) (ts : List JsmnTok), cstr buf = cstr msg →
    num ≤ tok.length → jsmnParse buf tok num = some (.ok (p, tok')) →
    (p.toknext ≠ 0 → i < p.toknext) →
    nodeCopies inet buf (tok'.drop i) = some ts →
    ∀ t ∈ ts, Inside INET6_ADDRSTRLEN t

/-- The size of a header of the message fits. -/
def HeaderFits (msg : List UInt8) : Prop :=
  ∀ a kids rest, zipParse msg 256 = .ok (.node a kids rest) →
    SizeFits msg a kids

/-- The value at token `i` of the message fits, read as a node. -/
def TokenFits (inet : Inet) (msg : List UInt8) (i : Nat) : Prop :=
  ∀ num f a kids, zipParse msg num = .ok f → f.sub i = some (a, kids) →
    NodeFits inet msg kids

/-- Nothing is copied from a message that is not tokenized. -/
private theorem headerCopies_error (stack : Nat → JsmnTok) {e : JsmnErr}
    (hz : zipParse buf 256 = .error e) : headerCopies buf stack = some [] := by
  have hspec := jsmnParse_spec buf
    (show 256 ≤ ((List.range 256).map stack).length by simp)
  rw [hz] at hspec
  rw [headerCopies, hspec]
  rfl

/-- From an object the size is copied if it has one. -/
private theorem headerCopies_object (stack : Nat → JsmnTok) {rest : Forest Lab}
    (hz : zipParse buf 256 = .ok (.node a kids rest)) :
    ∃ ts, headerCopies buf stack = some ts
      ∧ ((∀ t ∈ ts, Inside 5 t) ↔ SizeFits buf a kids) := by
  have hspec := jsmnParse_spec buf
    (show 256 ≤ ((List.range 256).map stack).length by simp)
  rw [hz] at hspec
  obtain ⟨p, -, hparse⟩ := hspec
  obtain ⟨hs, hw⟩ := zipParse_good hz
  rw [headerCopies, hparse, tokens_root]
  exact headerReadCopies_spec hw.2.1 hs.2.1

/-- `parse_node` at a token of the message. -/
private theorem nodeCopies_at {tok tok' : List JsmnTok} {p : JsmnParser}
    (hn : num ≤ tok.length)
    (hparse : jsmnParse buf tok num = some (.ok (p, tok')))
    (hz : zipParse buf num = .ok f) (hsub : f.sub i = some (a, kids)) :
    ∃ ts, nodeCopies inet buf (tok'.drop i) = some ts
      ∧ ((∀ t ∈ ts, Inside INET6_ADDRSTRLEN t)
        ↔ NodeFits inet buf kids) := by
  obtain ⟨f', hz', -, rfl⟩ := jsmnParse_ok hn hparse
  rw [hz] at hz'
  cases hz'
  obtain ⟨hs, hw⟩ := zipParse_good hz
  obtain ⟨r', hdrop⟩ := drop_sub hsub
  rw [hdrop]
  exact nodeCopies_spec (hw.sub hsub).2 (hs.sub hsub)

/-- An array of a given content. -/
private theorem map_range_getD (l : List JsmnTok) :
    (List.range l.length).map (fun n => l.getD n JsmnTok.zero) = l := by
  apply List.ext_getElem
  · simp
  · intro n h1 h2
    simp [List.getElem?_eq_getElem h2]

/-- On a blank message the size copied can be that of an earlier one. -/
private theorem stale_header (h : Layout (cstr msg)) : ¬ HeaderInside msg := by
  intro hin
  obtain ⟨buf, js, a, kids, lo, hi, hbuf, hw, hs, ha, hcount, hfound⟩ :=
    stale_object h (okMembers_plain 10000)
  have hcount' : (tree a kids).count = 5 := hcount
  -- the array holds the tokens of the earlier message
  let arr := tokens (tree a kids) ++ List.replicate 251 JsmnTok.zero
  have hlen : arr.length = 256 := by
    rw [List.length_append, length_tokens, hcount', List.length_replicate]
  have harr : (List.range 256).map (fun n => arr.getD n JsmnTok.zero)
      = arr := hlen ▸ map_range_getD arr
  obtain ⟨p, -, hparse⟩ := jsmnParse_blank (hbuf.symm ▸ h)
    (Nat.le_of_eq hlen.symm)
  obtain ⟨ts, hts, hfits⟩ : ∃ ts, headerReadCopies buf arr = some ts
      ∧ ((∀ t ∈ ts, Inside 5 t) ↔ SizeFits buf a kids) :=
    headerReadCopies_spec hw hs
  have hcopies : headerCopies buf (fun n => arr.getD n JsmnTok.zero)
      = some ts := by
    rw [headerCopies, harr, hparse]
    exact hts
  obtain ⟨st, hst, -⟩ := hfound (ascii "status") (.string (ascii "okay"))
    (by decide) (by decide)
  obtain ⟨sz, hsz, hhsz⟩ := hfound (ascii "size")
    (.word (decimalNat 10000)) (by decide) (by decide)
  have hshort := hfits.mp (hin buf _ ts hbuf hcopies) ha (by rw [hst]; rfl)
    sz hsz hhsz.type (by
      rw [byteAt_holds hhsz (show _ = [49, 48, 48, 48, 48] by decide)]
      decide)
  rw [hhsz.stop] at hshort
  revert hshort
  simp only [Nat.add_sub_cancel_left]
  decide

/-- The members of a node with an address of 46 characters. -/
def longNode : Members :=
  [("ip", .string (List.replicate 46 49)), ("port", .word (ascii "1")),
    ("ipv", .word (ascii "4"))]

/-- The members of the long node need no escapes. -/
private theorem longNode_plain : PlainMembers longNode := by
  have hword : (Piece.word (ascii "1")).Plain
      ∧ (Piece.word (ascii "4")).Plain := by
    refine ⟨⟨by decide, by decide⟩, by decide, by decide⟩
  exact .cons (by decide +kernel)
    (isBody_of_plain fun c hc => by rw [List.eq_of_mem_replicate hc]; decide)
    (.cons (by decide +kernel) hword.1 (.cons (by decide +kernel) hword.2
      plainMembers_nil))

/-- So can the address of a node. -/
private theorem stale_node (h : Layout (cstr msg)) (i : Nat) :
    ¬ NodeInside inet msg i := by
  intro hin
  obtain ⟨buf, js, a, kids, lo, hi, hbuf, hw, hs, -, -, hfound⟩ :=
    stale_object h longNode_plain
  let arr := List.replicate i JsmnTok.zero ++ tokens (tree a kids)
  obtain ⟨p, hp, hparse⟩ := jsmnParse_blank (hbuf.symm ▸ h)
    (Nat.zero_le arr.length)
  have hdrop : arr.drop i = tokens (tree a kids) ++ [] := by
    rw [List.append_nil, List.drop_left' List.length_replicate]
  obtain ⟨ts, hts, hfits⟩ : ∃ ts, nodeCopies inet buf (arr.drop i) = some ts
      ∧ ((∀ t ∈ ts, Inside INET6_ADDRSTRLEN t)
        ↔ NodeFits inet buf kids) := by
    rw [hdrop]
    exact nodeCopies_spec hw hs
  obtain ⟨ip, hip, hhip⟩ := hfound (ascii "ip")
    (.string (List.replicate 46 49)) (by decide) (by decide)
  obtain ⟨port, hport, hhport⟩ := hfound (ascii "port")
    (.word (ascii "1")) (by decide) (by decide)
  obtain ⟨ipv, hipv, hhipv⟩ := hfound (ascii "ipv")
    (.word (ascii "4")) (by decide) (by decide)
  have hp1 : byteAt buf port.val.start = 49 :=
    byteAt_holds hhport (show _ = [49] by decide)
  have hv4 : byteAt buf ipv.val.start = 52 :=
    byteAt_holds hhipv (show _ = [52] by decide)
  have hfields : nodeFields buf kids = some (ip.val, port.val, 52) := by
    unfold nodeFields
    simp only [hip, hport, hipv, hp1, hv4]
    rw [if_pos ⟨hhip.type, hhport.type, by decide, hhipv.type, by decide⟩]
  have hshort := (hfits.mp (hin buf arr arr 0 p ts hbuf (Nat.zero_le _)
    hparse (fun hne => absurd hp hne) hts) _ _ _ hfields).1
  rw [hhip.stop, Nat.add_sub_cancel_left] at hshort
  revert hshort
  decide

-- =================================================================== in bounds

/-- `parse_header` keeps within its array exactly when the message is not
blank and the size fits. -/
theorem headerInside_iff :
    HeaderInside msg ↔ ¬ Layout (cstr msg) ∧ HeaderFits msg := by
  constructor
  · intro h
    refine ⟨fun hblank => stale_header hblank h, fun a kids rest hz => ?_⟩
    obtain ⟨ts, hts, hfits⟩ :=
      headerCopies_object (fun _ => JsmnTok.zero) hz
    exact hfits.mp (h msg _ ts rfl hts)
  · intro h buf stack ts hbuf hts
    obtain ⟨hblank, h⟩ := h
    have hz := zipParse_congr hbuf 256
    cases hzm : zipParse msg 256 with
    | error e =>
        rw [headerCopies_error stack (hz.trans hzm)] at hts
        cases hts
        exact fun t ht => nomatch ht
    | ok f =>
        cases f with
        | nil => exact absurd (zipParse_blank.mp hzm) hblank
        | node a kids rest =>
            obtain ⟨ts', hts', hfits⟩ :=
              headerCopies_object stack (hz.trans hzm)
            rw [hts] at hts'
            cases hts'
            have hs := zipParse_spans hzm
            exact hfits.mpr ((h a kids rest hzm).congr hbuf.symm hs.2.1
              hs.2.2.le)

/-- `parse_node` keeps within its array exactly when the message is not
blank and the node fits. -/
theorem nodeInside_iff :
    NodeInside inet msg i ↔ ¬ Layout (cstr msg) ∧ TokenFits inet msg i := by
  constructor
  · intro h
    refine ⟨fun hblank => stale_node hblank i h,
      fun num f a kids hz hsub => ?_⟩
    have hspec := jsmnParse_spec msg
      (show num ≤ (List.replicate num JsmnTok.zero).length by simp)
    rw [hz] at hspec
    obtain ⟨p, hp, hparse⟩ := hspec
    obtain ⟨ts, hts, hfits⟩ := nodeCopies_at (by simp) hparse hz hsub
    exact hfits.mp (h msg _ _ num p ts rfl (by simp) hparse
      (fun _ => hp ▸ sub_lt hsub) hts)
  · intro h buf tok tok' num p ts hbuf hn hparse hi hts
    obtain ⟨hblank, h⟩ := h
    obtain ⟨f, hz, hp, -⟩ := jsmnParse_ok hn hparse
    have hzm := (zipParse_congr hbuf num).symm.trans hz
    have hne : p.toknext ≠ 0 := by
      intro h0
      cases f with
      | nil => exact hblank (zipParse_blank.mp hzm)
      | node a kids rest => simp [hp] at h0
    obtain ⟨⟨a, kids⟩, hsub⟩ := sub_some (hp ▸ hi hne)
    obtain ⟨ts', hts', hfits⟩ := nodeCopies_at hn hparse hz hsub
    rw [hts] at hts'
    cases hts'
    have hs := zipParse_spans hzm
    exact hfits.mpr ((h num f a kids hzm hsub).congr hbuf.symm
      (hs.sub hsub) (hs.sub_le hsub))

/-- Where the copy is inside, it changes nothing. -/
theorem parseHeaderCopying_inside (h : HeaderInside msg)
    (hbuf : cstr buf = cstr msg) (stack : Nat → JsmnTok) :
    parseHeaderCopying buf stack = parseHeader buf stack := by
  have hcopies : ∃ ts, headerCopies buf stack = some ts := by
    cases hz : zipParse buf 256 with
    | error e => exact ⟨_, headerCopies_error stack hz⟩
    | ok f =>
        cases f with
        | nil =>
            have hblank : Layout (cstr msg) := hbuf ▸ zipParse_blank.mp hz
            exact absurd hblank (headerInside_iff.mp h).1
        | node a kids rest =>
            obtain ⟨ts, hts, -⟩ := headerCopies_object stack hz
            exact ⟨ts, hts⟩
  obtain ⟨ts, hts⟩ := hcopies
  rw [parseHeaderCopying, hts]
  exact if_pos fun t ht => inside_iff.mp (h buf stack ts hbuf hts t ht)

/-- Text that ends in the delimiter, up to its NUL. -/
theorem cstr_delimited {text : Text}
    (htext : text = flatText ms ++ delim) (hms : PlainMembers ms) :
    cstr text = flatText ms ++ delim := by
  rw [htext]
  apply cstr_eq_self
  intro hmem
  rcases List.mem_append.mp hmem with h | h
  · exact nul_notMem_flatText hms h
  · exact absurd h (by decide)

/-- A header that announces no size has none to copy. -/
theorem headerInside_flat (hms : PlainMembers ms)
    (hcstr : cstr msg = flatText ms ++ delim) (hroom : ms.length < 128)
    (hsize : lookup (ascii "size").isPrefixOf ms = none) :
    HeaderInside msg := by
  have hz : zipParse msg 256 = .ok _ :=
    zipParse_flat hms (show Layout delim by decide) hcstr (by omega)
  rw [headerInside_iff, hcstr]
  refine ⟨fun h => absurd (h LBRACE (List.mem_cons_self ..)) (by decide),
    fun a kids rest hz' _ _ q hq => ?_⟩
  rw [hz] at hz'
  cases hz'
  rw [no_argument_flat hms hcstr (by decide) hsize] at hq
  cases hq

/-- The header of a response announces its size in as many characters as
its numeral has. -/
theorem headerInside_okHeader :
    HeaderInside (okHeader size) ↔ size < 10 ^ 4 := by
  have hms := okMembers_plain size
  have hcstr := cstr_delimited (okHeader_eq size) hms
  have hblank : ¬ Layout (cstr (okHeader size)) := by
    rw [hcstr]
    exact fun h => absurd (h LBRACE (List.mem_cons_self ..)) (by decide)
  have hz : zipParse (okHeader size) 256 = .ok _ :=
    zipParse_flat hms (show Layout delim by decide) hcstr
      (show 1 + 2 * 2 ≤ 256 by decide)
  have hskip : (ascii "size").isPrefixOf (ascii "status") = false := by
    decide
  obtain ⟨p, hp, -⟩ : Argument (okHeader size) (flatKids (okMembers size))
      (ascii "status") (.string (ascii "okay")) :=
    argument_flat hms hcstr (by decide) (lookup_self ..)
  obtain ⟨q, hq, hhq⟩ : Argument (okHeader size) (flatKids (okMembers size))
      (ascii "size") (.word (decimalNat size)) :=
    argument_flat hms hcstr (by decide) (by
      rw [okMembers, lookup_skip _ hskip, lookup_self])
  obtain ⟨c, cs, hc, hdigit⟩ := head_decimalNat size
  have hlen : q.val.stop - q.val.start = (decimalNat size).length := by
    rw [hhq.stop, Nat.add_sub_cancel_left]
    rfl
  rw [headerInside_iff, ← length_decimalNat_le (by decide)]
  constructor
  · intro h
    obtain ⟨-, h⟩ := h
    have := h _ _ _ hz rfl (by rw [hp]; rfl) q hq hhq.type
      (by rw [byteAt_holds hhq hc]; exact hdigit)
    omega
  · refine fun h => ⟨hblank, fun a kids rest hz' => ?_⟩
    rw [hz] at hz'
    cases hz'
    intro _ _ q' hq' _ _
    rw [hq] at hq'
    cases hq'
    omega

-- ================================================================= the readers

/-- The size is read where it is copied, not from the copy. -/
theorem headerSize_copies {tok : List JsmnTok} {isize : Int}
    (h : isize ≠ -1) :
    headerSize msg tok isize = (do
      match ← sizeCopies msg tok isize with
      | [] => return none
      | t :: _ => do
          let s ← stringAt msg t.start
          let lsize := (strtol s).1
          return (if lsize < 0 then none else some lsize.toNat)) := by
  rw [headerSize, sizeCopies, if_neg h, if_neg h]
  cases tokenAt tok isize with
  | none => rfl
  | some t =>
      simp only [bind, Option.bind_some]
      by_cases ht : t.type ≠ .primitive
      · rw [if_pos ht, if_pos ht]
        rfl
      rw [if_neg ht, if_neg ht]
      cases charAt msg t.start with
      | none => rfl
      | some c =>
          simp only [Option.bind_some]
          split <;> rfl

/-- The model of `parse_node` gives up just where a copy does not fit. -/
theorem parseNode_isSome (hw : All (Written msg) kids) {lo hi : Nat}
    (hs : LabSpans lo kids hi) :
    (parseNode inet msg (tokens (tree a kids) ++ r)).isSome
      ↔ NodeFits inet msg kids := by
  rw [parseNode_spec hw hs, readNode, NodeFits]
  cases hn : nodeFields msg kids with
  | none => simp
  | some n =>
      obtain ⟨ip, port, v⟩ := n
      simp only [copyVal]
      by_cases hlen : INET6_ADDRSTRLEN ≤ ip.stop - ip.start
      · apply iff_of_false (by simp [hlen])
        intro h
        exact absurd (h ip port v rfl).1 (Nat.not_lt.mpr hlen)
      have hlt := Nat.lt_of_not_le hlen
      simp only [if_neg hlen, bind, Option.bind_some]
      cases hsa : inet.pton (familyOf v) (valText msg ip) with
      | none =>
          apply iff_of_true rfl
          intro ip' port' v' heq
          cases heq
          simp [hlt, hsa]
      | some sa =>
          by_cases hlen' : INET6_ADDRSTRLEN ≤ port.stop - port.start
          · apply iff_of_false (by simp [hlen'])
            intro h
            exact absurd ((h ip port v rfl).2 (by rw [hsa]; rfl))
              (Nat.not_lt.mpr hlen')
          · refine iff_of_true ?_ fun ip' port' v' heq => ?_
            · simp only [if_neg hlen', Option.bind_some]
              cases nodePort (valText msg port) <;> rfl
            · cases heq
              exact ⟨hlt, fun _ => Nat.lt_of_not_le hlen'⟩

/-- A header is read without writing past `s`, and a node without
writing past its array, exactly when the message is not blank and the
value copied is short enough; a header that announces a size is from
`10 ^ 4` bytes on not. -/
theorem scratch_copies_iff (inet : Inet) (msg : List UInt8) :
    (HeaderInside msg ↔ ¬ Layout (cstr msg) ∧ HeaderFits msg)
      ∧ (∀ i, NodeInside inet msg i
        ↔ ¬ Layout (cstr msg) ∧ TokenFits inet msg i)
      ∧ ∀ size, HeaderInside (okHeader size) ↔ size < 10 ^ 4 :=
  ⟨headerInside_iff, fun _ => nodeInside_iff, fun _ => headerInside_okHeader⟩

/-- A list of clients of 10000 bytes. -/
theorem large_response_overflows : ¬ HeaderInside (okHeader 10000) := by
  rw [headerInside_okHeader]
  decide

end Psnet.Protocol
