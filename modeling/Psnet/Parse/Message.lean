/-
`parse_message` and the value lookups, in terms of the parse of the
text.

A request that is an object is read through its pairs: `method` and the
arguments are pairs found by `findPair`, whatever the array held before
(`parseMessage_object`, `jsmnGetValues_spec`). A text without any token
leaves the array as it was, and `parse_message` looks at a token of
somebody else (`parseMessage_blank`).

# Two buffers

A connection's buffer holds a message and what older ones left behind it,
and a router changes a character of a message it has parsed. `Alike` says
what two buffers must have in common for a handler to do the same on both:
the parse, and the comparisons with the keys it looks up. Equal texts are
alike (`Alike.of_cstr`), and texts that differ in digits are by keys
without digits.
-/
import Psnet.Jsmn.Lookup
import Psnet.Parse.Model

namespace Psnet.Parse

open Net Jsmn Forest

/-- The text of a value, as a C string. -/
def valText (msg : List UInt8) (v : Lab) : Text :=
  ((msg.drop v.start).take (v.stop - v.start)).takeWhile (· ≠ 0)

/-- What `jsmn_get_values` finds. -/
def findPairs (msg : List UInt8) (kids : Forest Lab)
    (keys : List Text) : List (Option Pair) :=
  keys.map fun key => findPair msg key kids

variable {msg : List UInt8} {tok : List JsmnTok} {ntok : Nat} {a : Lab}
  {kids rest : Forest Lab}

/-- The tokens of the first value come first in the array. -/
theorem tokens_root (a : Lab) (kids rest : Forest Lab)
    (r : List JsmnTok) :
    tokens (.node a kids rest) ++ r
      = tokens (tree a kids) ++ (tokens rest ++ r) := by simp

/-- Where tokenizing fails, the message is refused and the count of tokens
kept. -/
theorem parseMessage_error (hn : ntok ≤ tok.length) {e : JsmnErr}
    (h : zipParse msg ntok = .error e) :
    parseMessage msg tok ntok = some (-1, tok, ntok) := by
  have hspec := jsmnParse_spec msg hn
  rw [h] at hspec
  simp [parseMessage, hspec]

/-- From an object it returns the index of the method, and counts the
tokens. -/
theorem parseMessage_object (hn : ntok ≤ tok.length)
    (h : zipParse msg ntok = .ok (.node a kids rest))
    (ha : a.type = .object) :
    parseMessage msg tok ntok
      = some (answer (findPair msg (ascii "method") kids),
          tokens (.node a kids rest)
            ++ tok.drop (Forest.node a kids rest).count,
          (Forest.node a kids rest).count) := by
  have hspec := jsmnParse_spec msg hn
  rw [h] at hspec
  obtain ⟨p, hp, hparse⟩ := hspec
  have hval := jsmnGetValue_spec msg (ascii "method")
    (tokens_root a kids rest _) (zipParse_good h).2.2.1
    (r := tokens rest ++ tok.drop (Forest.node a kids rest).count)
  simp only [parseMessage, hparse, bind, Option.bind_some, hval, hp]
  rw [tokens_node, List.cons_append, List.getElem?_cons_zero,
    Option.bind_some, if_neg (by simp [Lab.tok, ha])]
  rfl

/-- A text that starts with something else is no request. -/
theorem parseMessage_other (hn : ntok ≤ tok.length)
    (h : zipParse msg ntok = .ok (.node a kids rest))
    (ha : a.type ≠ .object) :
    parseMessage msg tok ntok
      = some (-1, tokens (.node a kids rest)
          ++ tok.drop (Forest.node a kids rest).count, ntok) := by
  have hspec := jsmnParse_spec msg hn
  rw [h] at hspec
  obtain ⟨p, -, hparse⟩ := hspec
  simp only [parseMessage, hparse, bind, Option.bind_some]
  rw [tokens_node, List.cons_append, List.getElem?_cons_zero,
    Option.bind_some, if_pos (by simpa [Lab.tok] using ha)]
  rfl

/-- On a text without tokens, the first token of the array decides. -/
theorem parseMessage_blank (hn : ntok ≤ tok.length)
    (h : zipParse msg ntok = .ok .nil) {t : JsmnTok}
    (ht : tok[0]? = some t) :
    parseMessage msg tok ntok
      = if t.type ≠ .object then some (-1, tok, ntok)
        else (jsmnGetValue msg tok (ascii "method")).map
          fun i => (i, tok, 0) := by
  have hspec := jsmnParse_spec msg hn
  rw [h] at hspec
  obtain ⟨p, hp, hparse⟩ := hspec
  simp only [tokens_nil, count_nil, List.drop_zero, List.nil_append]
    at hp hparse
  simp only [parseMessage, hparse, bind, Option.bind_some, ht, hp]
  split
  · rfl
  · cases jsmnGetValue msg tok (ascii "method") <;> rfl

/-- Every key is looked up; the call fails if one is missing, and leaves the
others filled in. -/
theorem jsmnGetValues_spec {js : List UInt8} (hw : All (Written js) kids)
    {r : List JsmnTok} (keys : List Text) :
    jsmnGetValues msg (tokens (tree a kids) ++ r) keys
      = some (if (findPairs msg kids keys).any Option.isNone then -1 else 0,
          (findPairs msg kids keys).map answer) := by
  induction keys with
  | nil => rfl
  | cons key keys ih =>
      have hval := @jsmnGetValue_spec msg key _ a kids
        (tokens (tree a kids) ++ r) r rfl hw
      simp only [jsmnGetValues, hval, ih, bind, Option.bind_some, findPairs,
        List.map_cons, List.any_cons]
      cases findPair msg key kids with
      | none => simp [answer, pure]
      | some p =>
          have : ((p.idx : Int) = -1) = False := by
            simp only [eq_iff_iff, iff_false]
            omega
          simp only [answer, this, ↓reduceIte, Option.isNone_some,
            Bool.false_or]
          rfl

/-- What is found has an index. -/
theorem answer_ne (p : Pair) : answer (some p) ≠ -1 := by
  simp only [answer]
  omega

/-- What is found is a pair of the object whose key starts with the one
asked for. -/
theorem findPair_mem {key : Text} {p : Pair}
    (h : findPair msg key kids = some p) :
    p ∈ pairs kids 1 ∧ startsWith msg p.key.start key = true :=
  ⟨List.mem_of_find?_eq_some h, by simpa using List.find?_some h⟩

/-- The token a lookup answers with. -/
theorem tokenAt_answer {js : List UInt8} (hw : All (Written js) kids)
    {r : List JsmnTok} {key : Text} {p : Pair} (h : findPair msg key kids = some p) :
    tokenAt (tokens (tree a kids) ++ r) (answer (some p))
      = some (p.val.tok p.kids.width) := by
  have htok := (@pairs_tok _ _ _ (findPair_mem h).1 _ hw
    (tokens (tree a kids) ++ r) r (by simp)).2.1
  have hnn : ¬ answer (some p) < 0 :=
    Int.not_lt.mpr (Int.natCast_nonneg _)
  rw [tokenAt, if_neg hnn]
  exact htok

/-- A duplicated token is the text of its value. -/
theorem jsmnTokdup_tok {v : Lab} {n : Nat} (h : v.start ≤ v.stop) :
    jsmnTokdup msg (v.tok n) = some (valText msg v) := by
  have hlen : (jsmnToklen (v.tok n)).toNat = v.stop - v.start := by
    simp only [jsmnToklen, Lab.tok]
    omega
  unfold jsmnTokdup valText
  rw [hlen, if_neg]
  · rfl
  · simp only [Lab.tok]
    omega

/-- A value cut off behind its end is its text. -/
theorem cstr_cut {v : Lab} (h : v.start ≤ v.stop) :
    cstr ((msg.set v.stop 0).drop v.start) = valText msg v := by
  unfold valText
  by_cases hlt : v.stop < msg.length
  · have hcut : (msg.set v.stop 0).drop v.start
        = (msg.drop v.start).take (v.stop - v.start)
          ++ 0 :: msg.drop (v.stop + 1) := by
      rw [List.set_eq_take_append_cons_drop, if_pos hlt,
        List.drop_append_of_le_length (by simp; omega), List.drop_take]
    rw [hcut, cstr_append_nul]
    rfl
  · rw [List.set_eq_of_length_le (Nat.le_of_not_lt hlt),
      List.take_of_length_le (by simp; omega)]
    rfl

/-- A value's text does not change where the value does not stand. -/
theorem valText_set {v : Lab} {p : Nat} (c : UInt8)
    (h : p < v.start ∨ v.stop ≤ p) :
    valText (msg.set p c) v = valText msg v := by
  unfold valText
  congr 1
  apply List.ext_getElem?
  intro k
  simp only [List.getElem?_take, List.getElem?_drop]
  split
  · rw [List.getElem?_set_ne (by omega)]
  · rfl

-- ================================================================= dispatching

/-- The value is exactly `str`. -/
def valEq (msg : List UInt8) (v : Lab) (str : Text) : Bool :=
  decide ((v.stop : Int) - v.start = str.length)
    && startsWith msg v.start str

/-- A token is compared by the text of its value. -/
private theorem jsmnTokeq_tok (v : Lab) (n : Nat) (str : Text) :
    jsmnTokeq msg (v.tok n) str = some (valEq msg v str) := by
  unfold jsmnTokeq valEq
  rw [tokStartsWith_tok]
  by_cases h : jsmnToklen (v.tok n) = str.length
  · have h' : (v.stop : Int) - v.start = str.length := h
    simp [h, h']
  · have h' : ¬ ((v.stop : Int) - v.start = str.length) := h
    simp [h, h']

/-- The command a method's value names. -/
def command {μ : Type} (msg : List UInt8) (v : Lab)
    (cmds : List (String × μ)) : Option μ :=
  (cmds.find? fun c => valEq msg v (ascii c.1)).map Prod.snd

/-- The table of commands is searched for the text of the value. -/
theorem cmdEqual_tok {μ : Type} (v : Lab) (n : Nat)
    (cmds : List (String × μ)) :
    cmdEqual msg (v.tok n) cmds = some (command msg v cmds) := by
  induction cmds with
  | nil => rfl
  | cons c cmds ih =>
      obtain ⟨cmd, m⟩ := c
      simp only [cmdEqual, jsmnTokeq_tok, bind, Option.bind_some, command,
        List.find?_cons]
      cases valEq msg v (ascii cmd) with
      | true => rfl
      | false => exact ih

/-- A request whose method is one of `cmds`. -/
structure Request (μ : Type) where
  method : μ
  obj : Lab
  kids : Forest Lab
  rest : Forest Lab

/-- The request a text makes, when there is room for `num` tokens. -/
def request {μ : Type} (cmds : List (String × μ)) (msg : List UInt8)
    (num : Nat) : Option (Request μ) :=
  match zipParse msg num with
  | .ok (.node a kids rest) =>
      if a.type = .object then do
        let p ← findPair msg (ascii "method") kids
        let m ← command msg p.val cmds
        return ⟨m, a, kids, rest⟩
      else none
  | _ => none

/-- What a request is made of. -/
theorem request_some {μ : Type} {cmds : List (String × μ)} {num : Nat}
    {q : Request μ} (h : request cmds msg num = some q) :
    zipParse msg num = .ok (.node q.obj q.kids q.rest)
      ∧ q.obj.type = .object
      ∧ ∃ p, findPair msg (ascii "method") q.kids = some p
        ∧ command msg p.val cmds = some q.method := by
  unfold request at h
  split at h
  · next a kids rest hz =>
    split at h
    · next ha =>
      cases hp : findPair msg (ascii "method") kids with
      | none => simp [hp] at h
      | some p =>
          cases hm : command msg p.val cmds with
          | none => simp [hp, hm] at h
          | some m =>
              simp only [hp, hm, bind, Option.bind_some, pure,
                Option.some.injEq] at h
              subst h
              exact ⟨hz, ha, p, hp, hm⟩
    · cases h
  · cases h

/-- The request of an object with a method. -/
theorem request_eq {μ : Type} {cmds : List (String × μ)} {num : Nat}
    {p : Pair} (hz : zipParse msg num = .ok (.node a kids rest))
    (ha : a.type = .object)
    (hp : findPair msg (ascii "method") kids = some p) :
    request cmds msg num
      = (command msg p.val cmds).map fun m => ⟨m, a, kids, rest⟩ := by
  simp only [request, hz, ha, ↓reduceIte, hp, bind, Option.bind_some]
  cases command msg p.val cmds <;> rfl

/-- How a request is dispatched: what `parse_message` returns for it, and
what the tests of its method come to. -/
theorem request_dispatch {μ : Type} {cmds : List (String × μ)}
    {q : Request μ} (tok : List JsmnTok) (hn : ntok ≤ tok.length)
    (hq : request cmds msg ntok = some q) :
    ∃ i t r, i ≠ -1
      ∧ parseMessage msg tok ntok
        = some (i, tokens (tree q.obj q.kids) ++ r,
            (Forest.node q.obj q.kids q.rest).count)
      ∧ tokenAt (tokens (tree q.obj q.kids) ++ r) i = some t
      ∧ cmdEqual msg t cmds = some (some q.method) := by
  obtain ⟨hz, ha, p, hp, hm⟩ := request_some hq
  have hw := (zipParse_good hz).2.2.1
  refine ⟨_, _, tokens q.rest ++ tok.drop
    (Forest.node q.obj q.kids q.rest).count, answer_ne p, ?_,
    tokenAt_answer hw hp, (cmdEqual_tok ..).trans (congrArg some hm)⟩
  rw [parseMessage_object hn hz ha, hp, tokens_root]

/-- How a text with tokens that is no request is dispatched: it is refused,
or its method is none of the commands. -/
theorem request_refused {μ : Type} {cmds : List (String × μ)}
    (tok : List JsmnTok) (hn : ntok ≤ tok.length)
    (hfilled : zipParse msg ntok ≠ .ok .nil)
    (hq : request cmds msg ntok = none) :
    ∃ i tok' n, parseMessage msg tok ntok = some (i, tok', n)
      ∧ (i ≠ -1 → ∃ t, tokenAt tok' i = some t
        ∧ cmdEqual msg t cmds = some none) := by
  cases hz : zipParse msg ntok with
  | error e => exact ⟨_, _, _, parseMessage_error hn hz, fun h => (h rfl).elim⟩
  | ok f =>
      cases f with
      | nil => exact (hfilled hz).elim
      | node a kids rest =>
          by_cases ha : a.type = .object
          · refine ⟨_, _, _, parseMessage_object hn hz ha, ?_⟩
            cases hp : findPair msg (ascii "method") kids with
            | none => exact fun h => (h rfl).elim
            | some p =>
                rw [request_eq hz ha hp, Option.map_eq_none_iff] at hq
                refine fun _ => ⟨p.val.tok p.kids.width, ?_, ?_⟩
                · rw [tokens_root]
                  exact tokenAt_answer (zipParse_good hz).2.2.1 hp
                · rw [cmdEqual_tok, hq]
          · exact ⟨_, _, _, parseMessage_other hn hz ha,
              fun h => (h rfl).elim⟩

-- ============================================================ texts read alike

/-- Two texts with one parse, in which the same keys stand at the same
places. -/
structure Alike (keys : List Text) (msg msg' : List UInt8) : Prop where
  parse : ∀ num, zipParse msg num = zipParse msg' num
  keys : ∀ key ∈ keys, ∀ i ≤ (cstr msg).length,
    startsWith msg i key = startsWith msg' i key

/-- Buffers that hold the same C string are read alike. -/
theorem Alike.of_cstr {keys : List Text} {msg' : List UInt8}
    (h : cstr msg = cstr msg') (hk : ∀ key ∈ keys, ∀ c ∈ key, c ≠ 0) :
    Alike keys msg msg' where
  parse := zipParse_congr h
  keys key hkey _ hi := startsWith_congr h (hk key hkey) hi

/-- So are texts that differ in digits only, by keys without digits. -/
theorem Alike.of_mask {keys : List Text} {msg' : List UInt8}
    (h : msg.map mask = msg'.map mask)
    (hk : ∀ key ∈ keys, ∀ c ∈ key, ¬ (48 ≤ c ∧ c ≤ 57)) :
    Alike keys msg msg' where
  parse := zipParse_mask h
  keys key hkey i _ := startsWith_mask h (hk key hkey) i

variable {keys : List Text} {msg' : List UInt8} {lo hi : Nat}

/-- A lookup depends on what stands at the keys. -/
theorem findPair_congr (hs : LabSpans lo kids hi) {key : Text}
    (h : ∀ i ≤ hi, startsWith msg i key = startsWith msg' i key) :
    findPair msg key kids = findPair msg' key kids := by
  have hin := (pairs_spans (i := 1) hs).1
  unfold findPair
  generalize pairs kids 1 = ps at hin
  induction ps with
  | nil => rfl
  | cons p ps ih =>
      obtain ⟨-, h1, h2, h3⟩ := hin p (List.mem_cons_self ..)
      rw [List.find?_cons, List.find?_cons, h p.key.start (by omega),
        ih fun q hq => hin q (List.mem_cons_of_mem _ hq)]

/-- Messages that are alike have the same keys in the same places. -/
theorem findPair_alike (h : Alike keys msg msg')
    (hs : LabSpans lo kids hi) (hhi : hi ≤ (cstr msg).length) {key : Text}
    (hkey : key ∈ keys) :
    findPair msg key kids = findPair msg' key kids :=
  findPair_congr hs fun i hi => h.keys key hkey i (Nat.le_trans hi hhi)

/-- Messages that are alike ask for the same command. -/
theorem command_alike {μ : Type} {cmds : List (String × μ)}
    (h : Alike keys msg msg') (hc : ∀ c ∈ cmds, ascii c.1 ∈ keys) {v : Lab}
    (hv : v.start ≤ (cstr msg).length) :
    command msg v cmds = command msg' v cmds := by
  unfold command
  congr 1
  induction cmds with
  | nil => rfl
  | cons c cmds ih =>
      rw [List.find?_cons, List.find?_cons, valEq, valEq,
        h.keys _ (hc c (List.mem_cons_self ..)) _ hv,
        ih fun d hd => hc d (List.mem_cons_of_mem _ hd)]

/-- Texts read alike make the same request. -/
theorem request_alike {μ : Type} {cmds : List (String × μ)}
    (h : Alike keys msg msg') (hm : ascii "method" ∈ keys)
    (hc : ∀ c ∈ cmds, ascii c.1 ∈ keys) (num : Nat) :
    request cmds msg num = request cmds msg' num := by
  unfold request
  rw [← h.parse]
  cases hz : zipParse msg num with
  | error e => rfl
  | ok f =>
      cases f with
      | nil => rfl
      | node a kids rest =>
          have hs := zipParse_spans hz
          have hend := hs.2.2.le
          simp only [← findPair_alike h hs.2.1 hend hm]
          cases hp : findPair msg (ascii "method") kids with
          | none => rfl
          | some p =>
              have hin := (pairs_spans (i := 1) hs.2.1).1 p
                (findPair_mem hp).1
              simp only [bind, Option.bind_some,
                command_alike h hc (v := p.val) (by omega)]

/-- Read alike, two texts are the same message to an array that starts
with no object. -/
theorem parseMessage_alike (h : Alike keys msg msg')
    (hm : ascii "method" ∈ keys) (hn : ntok ≤ tok.length) {t : JsmnTok}
    (ht : tok[0]? = some t) (hno : t.type ≠ .object) :
    parseMessage msg tok ntok = parseMessage msg' tok ntok := by
  have hparse := h.parse ntok
  cases hz : zipParse msg ntok with
  | error e =>
      rw [parseMessage_error hn hz, parseMessage_error hn (hparse ▸ hz)]
  | ok f =>
      have hz' := hparse ▸ hz
      cases f with
      | nil =>
          rw [parseMessage_blank hn hz ht, parseMessage_blank hn hz' ht,
            if_pos hno, if_pos hno]
      | node a kids rest =>
          by_cases ha : a.type = .object
          · have hs := zipParse_spans hz
            rw [parseMessage_object hn hz ha, parseMessage_object hn hz' ha,
              findPair_alike h hs.2.1 hs.2.2.le hm]
          · rw [parseMessage_other hn hz ha, parseMessage_other hn hz' ha]

/-- The array keeps its size, and the room for tokens never grows. -/
theorem parseMessage_keeps (hn : ntok ≤ tok.length) {i : Int}
    {tok' : List JsmnTok} {ntok' : Nat}
    (h : parseMessage msg tok ntok = some (i, tok', ntok')) :
    tok'.length = tok.length ∧ ntok' ≤ ntok := by
  have hdrop : ∀ f : Forest Lab, f.count ≤ ntok →
      (tokens f ++ tok.drop f.count).length = tok.length := by
    intro f hf
    rw [List.length_append, length_tokens, List.length_drop]
    omega
  cases hz : zipParse msg ntok with
  | error e =>
      rw [parseMessage_error hn hz] at h
      cases h
      exact ⟨rfl, Nat.le_refl _⟩
  | ok f =>
      have hcount := zipParse_count hz
      cases f with
      | nil =>
          cases ht : tok[0]? with
          | none =>
              have hspec := jsmnParse_spec msg hn
              rw [hz] at hspec
              obtain ⟨p, -, hparse⟩ := hspec
              simp [parseMessage, hparse, ht] at h
          | some t =>
              -- a blank message writes no token
              rw [parseMessage_blank hn hz ht] at h
              split at h
              · cases h
                exact ⟨rfl, Nat.le_refl _⟩
              · obtain ⟨i, -, heq⟩ := Option.map_eq_some_iff.mp h
                cases heq
                exact ⟨rfl, Nat.zero_le _⟩
      | node a kids rest =>
          by_cases ha : a.type = .object
          · rw [parseMessage_object hn hz ha] at h
            cases h
            exact ⟨hdrop _ hcount, hcount⟩
          · rw [parseMessage_other hn hz ha] at h
            cases h
            exact ⟨hdrop _ hcount, Nat.le_refl _⟩

/-- The text of a value in the C string. -/
private theorem valText_cstr {v : Lab} (hv : v.stop ≤ (cstr msg).length)
    (hle : v.start ≤ v.stop) : valText (cstr msg) v = valText msg v := by
  unfold valText
  congr 1
  obtain ⟨t, ht⟩ := List.takeWhile_prefix (l := msg) (p := (· ≠ 0))
  rw [← cstr] at ht
  nth_rewrite 2 [← ht]
  rw [List.drop_append_of_le_length (by omega),
    List.take_append_of_le_length (by simp; omega)]

/-- The text of a value lies within the message. -/
theorem valText_congr {v : Lab} (h : cstr msg = cstr msg')
    (hv : v.stop ≤ (cstr msg).length) (hle : v.start ≤ v.stop) :
    valText msg v = valText msg' v := by
  rw [← valText_cstr hv hle, h, valText_cstr (h ▸ hv) hle]

-- ============================================================= one argument

/-- Storing a character does not change how long the buffer is. -/
theorem setChar_length {msg msg' : List UInt8} {i : Int} {c : UInt8}
    (h : setChar msg i c = some msg') : msg'.length = msg.length := by
  unfold setChar at h
  split at h
  · cases h
  · cases h
    exact List.length_set

/-- A store at an index that is no negative number. -/
theorem setChar_nat (msg : List UInt8) (i : Nat) (c : UInt8) :
    setChar msg i c = some (msg.set i c) :=
  if_neg (Int.not_lt.mpr (Int.natCast_nonneg i))

/-- The C string from an index that is no negative number. -/
theorem stringAt_nat (msg : List UInt8) (i : Nat) :
    stringAt msg i = some (cstr (msg.drop i)) :=
  if_neg (Int.not_lt.mpr (Int.natCast_nonneg i))

/-- An argument is found in neither of two buffers that agree as far as
the object goes, or in both at one place, up to which they agree. -/
theorem jsmnGetValue_agree {js : List UInt8} {n : Nat}
    (h : AgreeTo n msg msg') (hs : LabSpans lo kids hi) (hhi : hi ≤ n)
    (hw : All (Written js) kids) (key : Text) (hkey : ∀ c ∈ key, c ≠ 0)
    (r r' : List JsmnTok) :
    (jsmnGetValue msg (tokens (tree a kids) ++ r) key = some (-1)
        ∧ jsmnGetValue msg' (tokens (tree a kids) ++ r') key = some (-1))
      ∨ ∃ i v k, i ≠ -1 ∧ v.start ≤ v.stop ∧ v.stop ≤ n
        ∧ jsmnGetValue msg (tokens (tree a kids) ++ r) key = some i
        ∧ jsmnGetValue msg' (tokens (tree a kids) ++ r') key = some i
        ∧ tokenAt (tokens (tree a kids) ++ r) i = some (Lab.tok v k)
        ∧ tokenAt (tokens (tree a kids) ++ r') i = some (Lab.tok v k) := by
  have hpair : findPair msg key kids = findPair msg' key kids :=
    findPair_congr hs fun i hi => h.startsWith hkey (Nat.le_trans hi hhi)
  rw [jsmnGetValue_spec msg key rfl hw, jsmnGetValue_spec msg' key rfl hw,
    ← hpair]
  cases hp : findPair msg key kids with
  | none => exact Or.inl ⟨rfl, rfl⟩
  | some p =>
      have hin := (pairs_spans (i := 1) hs).1 p (findPair_mem hp).1
      exact Or.inr ⟨_, p.val, p.kids.width, answer_ne p, hin.2.2.1, by omega,
        rfl, rfl, tokenAt_answer hw hp, tokenAt_answer hw hp⟩

end Psnet.Parse
