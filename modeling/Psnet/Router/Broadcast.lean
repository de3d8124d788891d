/-
What a router does with a broadcast, in terms of the parse of its text.

`Broadcast msg kids h i` says that the object with members `kids` has
the pairs `h` and `i` under the keys `hops` and `id`. The character the
router bumps stands in the value of `h`, which neither holds nor lies in
that of `i`, so the id cached is the one received
(`processBroadcast_pass`). Bumping a digit to a digit changes neither
the parse nor the lookups (`bump_parse`, `bump_findPair`).

# The order of the two lookups

The handler looks both pairs up in the message as received, bumps the
character, and then duplicates the id from the changed buffer. A key is
compared by its first characters only, so it has to be shown that one pair
is not found under both (`Broadcast.ne`: no text starts with `hops` and
with `id`); the values of two pairs do not overlap, since the spans of
siblings do not.
-/
import Psnet.Parse.Message
import Psnet.Router.Service

namespace Psnet.Router

open Net Jsmn Parse Forest DeltaList Client Server

variable {msg : List UInt8} {kids rest : Forest Lab} {a : Lab} {h i : Pair}
  {st : RouterState} {mi : MsgInfo} {r : List JsmnTok} {lo hi : Nat}

/-- The pairs a broadcast is read by. -/
structure Broadcast (msg : List UInt8) (kids : Forest Lab) (h i : Pair) :
    Prop where
  hops : findPair msg (ascii "hops") kids = some h
  id : findPair msg (ascii "id") kids = some i

/-- The message with the character at `p` increased. -/
def bump (msg : List UInt8) (p : Nat) : List UInt8 :=
  msg.set p (byteAt msg p + 1)

/-- A broadcast that has made no hop yet. -/
def broadcastText (id : String) : Text :=
  ascii "\x7b\"method\":\"broadcast\",\"hops\":\"0\",\"id\":\""
    ++ ascii id ++ ascii "\"\x7d"

-- ================================================================ the handler

/-- Without one of its two arguments a broadcast is dropped. -/
private theorem processBroadcast_missing (hw : All (Written mi.msg) kids)
    (hm : ∀ h i, ¬ Broadcast mi.msg kids h i) :
    processBroadcast st mi (tokens (tree a kids) ++ r)
      = some (st, mi, none) := by
  have hany : (findPairs mi.msg kids [ascii "hops", ascii "id"]).any
      Option.isNone = true := by
    simp only [findPairs, List.map_cons, List.map_nil, List.any_cons,
      List.any_nil, Bool.or_false, Bool.or_eq_true, Option.isNone_iff_eq_none]
    by_contra hcon
    rw [not_or] at hcon
    obtain ⟨h, hh⟩ := Option.ne_none_iff_exists'.mp hcon.1
    obtain ⟨i, hi⟩ := Option.ne_none_iff_exists'.mp hcon.2
    exact hm h i ⟨hh, hi⟩
  simp only [processBroadcast, jsmnGetValues_spec hw, hany, bind,
    Option.bind_some, if_true]
  rfl

/-- A broadcast with both arguments. -/
private theorem processBroadcast_some (hw : All (Written mi.msg) kids)
    (hs : LabSpans lo kids hi) (hb : Broadcast mi.msg kids h i) :
    processBroadcast st mi (tokens (tree a kids) ++ r)
      = if hopsOk (byteAt mi.msg h.val.start) then do
          let mi := { mi with msg := bump mi.msg h.val.start }
          let (cached, msgCache) ← cacheMsg st.msgCache (valText mi.msg i.val)
          let st := { st with msgCache := msgCache }
          if cached ≠ 0 then return (st, mi, none)
          else do
            let sent ← floodMessage st.routers st.clientTable mi
            return (st, mi, some sent)
        else some (st, mi, none) := by
  have hany : (findPairs mi.msg kids [ascii "hops", ascii "id"]).any
      Option.isNone = false := by simp [findPairs, hb.hops, hb.id]
  have hi := findPair_mem hb.id
  have hspan := ((pairs_spans hs).1 i hi.1).2.2.1
  simp only [processBroadcast, jsmnGetValues_spec hw, hany, bind,
    Option.bind_some, Bool.false_eq_true, ↓reduceIte,
    show ¬ ((0 : Int) = -1) by omega]
  simp only [findPairs, List.map_cons, List.map_nil, hb.hops, hb.id,
    List.getElem?_cons_zero, List.getElem?_cons_succ, Option.bind_some,
    tokenAt_answer hw hb.hops, tokenAt_answer hw hb.id]
  have hnn : ¬ ((h.val.tok h.kids.width).start < 0) :=
    Int.not_lt.mpr (Int.natCast_nonneg _)
  have hnat : (h.val.tok h.kids.width).start.toNat = h.val.start := rfl
  simp only [charAt, setChar, if_neg hnn, hnat, Option.bind_some,
    jsmnTokdup_tok hspan]
  by_cases hok : hopsOk (byteAt mi.msg h.val.start) = true
  · simp only [hok, Bool.not_true, Bool.false_eq_true, ↓reduceIte]
    rfl
  · simp [hok]

-- ============================================================ the two values

/-- Whether a character is one of `0`, `1`, `2`. -/
theorem hopsOk_iff {v : UInt8} :
    hopsOk v = true ↔ 48 ≤ v.toNat ∧ v.toNat < 51 := by
  have h51 : (48 + MAX_HOPS - 1).toNat = 51 := by decide
  simp [hopsOk, UInt8.le_iff_toNat_le, UInt8.lt_iff_toNat_lt, h51]

/-- The two arguments are two pairs: no text starts with both keys. -/
theorem Broadcast.ne (hb : Broadcast msg kids h i) : h ≠ i := by
  intro heq
  subst heq
  have hh := (findPair_mem hb.hops).2
  have hi := (findPair_mem hb.id).2
  have h1 : byteAt msg h.key.start = 104 := by
    have : ascii "hops" = 104 :: ascii "ops" := by decide
    rw [this, startsWith, Bool.and_eq_true, beq_iff_eq] at hh
    exact hh.1
  have h2 : byteAt msg h.key.start = 105 := by
    have : ascii "id" = 105 :: ascii "d" := by decide
    rw [this, startsWith, Bool.and_eq_true, beq_iff_eq] at hi
    exact hi.1
  rw [h1] at h2
  exact absurd h2 (by decide)

/-- The character the router looks at is in the hops value. -/
theorem Broadcast.hops_lt (hb : Broadcast msg kids h i)
    (hw : All (Written msg) kids) (hs : LabSpans lo kids hi)
    (hok : hopsOk (byteAt msg h.val.start) = true) :
    h.val.start < h.val.stop := by
  have hmem := (findPair_mem hb.hops).1
  have hle := ((pairs_spans hs).1 h hmem).2.2.1
  have hwr := (@pairs_tok _ _ _ hmem _ hw (tokens (tree h.key kids)) []
    (by simp)).2.2
  have hne : ∀ c : UInt8, hopsOk c = false → byteAt msg h.val.start ≠ c := by
    intro c hc hbyte
    rw [hbyte, hc] at hok
    cases hok
  unfold Written at hwr
  cases ht : h.val.type with
  | object => rw [ht] at hwr; exact absurd hwr (hne _ (by decide))
  | array => rw [ht] at hwr; exact absurd hwr (hne _ (by decide))
  | string =>
      rw [ht] at hwr
      apply Nat.lt_of_le_of_ne hle
      intro heq
      exact hne _ (by decide) (heq ▸ hwr.2)
  | primitive => rw [ht] at hwr; exact hwr.2

/-- The router's edit does not touch the id. -/
theorem Broadcast.valText_bump (hb : Broadcast msg kids h i)
    (hw : All (Written msg) kids) (hs : LabSpans lo kids hi)
    (hok : hopsOk (byteAt msg h.val.start) = true) :
    valText (bump msg h.val.start) i.val = valText msg i.val := by
  have hlt := hb.hops_lt hw hs hok
  apply valText_set
  rcases pairs_apart hs (findPair_mem hb.hops).1 (findPair_mem hb.id).1
    hb.ne with hle | hle
  · exact Or.inl (by omega)
  · exact Or.inr hle

-- ==================================================================== the edit

/-- A digit is bumped to a digit. -/
theorem bump_mask {p : Nat} (hok : hopsOk (byteAt msg p) = true) :
    (bump msg p).map mask = msg.map mask := by
  obtain ⟨h1, h2⟩ := hopsOk_iff.mp hok
  have hm : ∀ c : UInt8, 48 ≤ c.toNat → c.toNat ≤ 57 → mask c = 48 := by
    intro c hc hc'
    rw [mask, if_pos]
    simpa [UInt8.le_iff_toNat_le] using ⟨hc, hc'⟩
  have hsucc : (byteAt msg p + 1).toNat = (byteAt msg p).toNat + 1 := by
    rw [UInt8.toNat_add]
    exact Nat.mod_eq_of_lt (by simp; omega)
  rw [bump, List.map_set, hm (byteAt msg p + 1) (by omega) (by omega)]
  refine List.ext_getElem? fun k => ?_
  rw [List.getElem?_set]
  split
  · next hk =>
    subst hk
    have hlt : p < msg.length := by
      by_contra hge
      simp [byteAt, Nat.le_of_not_lt hge] at h1
    rw [if_pos (by simpa using hlt)]
    have : msg[p] = byteAt msg p := by simp [byteAt, hlt]
    simp [hlt, this, hm _ h1 (by omega)]
  · rfl

theorem bump_parse {p : Nat} (hok : hopsOk (byteAt msg p) = true)
    (num : Nat) : zipParse (bump msg p) num = zipParse msg num :=
  zipParse_mask (bump_mask hok) num

theorem bump_findPair {p : Nat} (hok : hopsOk (byteAt msg p) = true)
    (key : Text) (hk : ∀ c ∈ key, ¬ (48 ≤ c ∧ c ≤ 57)) :
    findPair (bump msg p) key kids = findPair msg key kids := by
  unfold findPair
  congr 1
  funext q
  exact startsWith_mask (bump_mask hok) hk _

theorem length_bump (msg : List UInt8) (p : Nat) :
    (bump msg p).length = msg.length := List.length_set

/-- Only the character at `p` changes. -/
theorem byteAt_bump {p q : Nat} (hok : hopsOk (byteAt msg p) = true) :
    byteAt (bump msg p) q
      = if q = p then byteAt msg p + 1 else byteAt msg q := by
  have hlt : p < msg.length := by
    by_contra hge
    obtain ⟨h1, -⟩ := hopsOk_iff.mp hok
    simp [byteAt, Nat.le_of_not_lt hge] at h1
  unfold bump
  rw [byteAt, List.getD_eq_getElem?_getD]
  by_cases hq : q = p
  · subst hq
    rw [List.getElem?_set_self hlt, if_pos rfl]
    rfl
  · rw [List.getElem?_set_ne (Ne.symm hq), if_neg hq]
    rfl

-- ============================================================ UDP messages

/-- The hops position and the id of a broadcast that may be passed on:
it has both arguments, and its hops character is below the limit. -/
def eligible (msg : List UInt8) (kids : Forest Lab) :
    Option (Nat × Text) :=
  match findPair msg (ascii "hops") kids, findPair msg (ascii "id") kids with
  | some h, some i =>
      if hopsOk (byteAt msg h.val.start) then
        some (h.val.start, valText msg i.val)
      else none
  | _, _ => none

/-- An eligible broadcast is passed on unless its id is cached. -/
def passOn (st : RouterState) (mi : MsgInfo) (p : Nat) (id : Text) :
    Option (RouterState × MsgInfo × Option (List UdpSend)) := do
  let mi := { mi with msg := bump mi.msg p }
  let (cached, msgCache) ← cacheMsg st.msgCache id
  let st := { st with msgCache := msgCache }
  if cached ≠ 0 then return (st, mi, none)
  else do
    let sent ← floodMessage st.routers st.clientTable mi
    return (st, mi, some sent)

theorem eligible_some {p : Nat} {id : Text}
    (he : eligible msg kids = some (p, id)) :
    ∃ h i, Broadcast msg kids h i ∧ p = h.val.start
      ∧ id = valText msg i.val ∧ hopsOk (byteAt msg p) = true := by
  unfold eligible at he
  split at he
  · next h i hh hi =>
    split at he
    · next hok =>
      cases he
      exact ⟨h, i, ⟨hh, hi⟩, rfl, rfl, hok⟩
    · cases he
  · cases he

/-- `process_broadcast` on the tokens of the message itself. -/
theorem processBroadcast_spec (hw : All (Written mi.msg) kids)
    (hs : LabSpans lo kids hi) :
    processBroadcast st mi (tokens (tree a kids) ++ r)
      = match eligible mi.msg kids with
        | none => some (st, mi, none)
        | some (p, id) => passOn st mi p id := by
  unfold eligible
  cases hh : findPair mi.msg (ascii "hops") kids with
  | none =>
      apply processBroadcast_missing hw
      intro h i hb
      rw [hb.hops] at hh
      cases hh
  | some h =>
      cases hi : findPair mi.msg (ascii "id") kids with
      | none =>
          apply processBroadcast_missing hw
          intro h i hb
          rw [hb.id] at hi
          cases hi
      | some i =>
          have hb : Broadcast mi.msg kids h i := ⟨hh, hi⟩
          rw [processBroadcast_some hw hs hb]
          by_cases hok : hopsOk (byteAt mi.msg h.val.start) = true
          · simp only [hok, ↓reduceIte, passOn, ← hb.valText_bump hw hs hok]
          · simp [hok]

theorem zeroTokens_room : JSMN_NTOK ≤ zeroTokens.length := by
  simp [zeroTokens]

/-- The tokens `handle_message` hands to a handler. -/
theorem handleMessage_request (st : RouterState) {q : Request UdpMethod}
    (hq : request udpCommands mi.msg JSMN_NTOK = some q) :
    ∃ r, handleMessage st mi = match q.method with
      | .connect => do
          let st ← processConnect st mi (tokens (tree q.obj q.kids) ++ r)
          return (st, none)
      | .broadcast => do
          let (st, _, sent) ←
            processBroadcast st mi (tokens (tree q.obj q.kids) ++ r)
          return (st, sent) := by
  obtain ⟨i, t, r, hi, hparse, ht, hc⟩ :=
    request_dispatch _ zeroTokens_room hq
  refine ⟨r, ?_⟩
  simp only [handleMessage, hparse, bind, Option.bind_some, if_neg hi, ht,
    hc]
  cases q.method <;> rfl

/-- Whatever is no request leaves the router alone. -/
theorem handleMessage_none
    (hq : request udpCommands mi.msg JSMN_NTOK = none) :
    handleMessage st mi = some (st, none) := by
  by_cases hz : zipParse mi.msg JSMN_NTOK = .ok .nil
  · have hparse := parseMessage_blank zeroTokens_room hz
      (t := JsmnTok.zero) rfl
    rw [if_pos (by decide)] at hparse
    simp only [handleMessage, hparse, bind, Option.bind_some]
    rfl
  · obtain ⟨i, tok, n, hparse, hmethod⟩ :=
      request_refused zeroTokens zeroTokens_room hz hq
    simp only [handleMessage, hparse, bind, Option.bind_some]
    by_cases hi : i = -1
    · rw [if_pos hi]
      rfl
    · obtain ⟨t, ht, hc⟩ := hmethod hi
      simp only [if_neg hi, ht, hc, Option.bind_some]
      rfl

/-- A UDP broadcast. -/
theorem handleMessage_broadcast (st : RouterState) {q : Request UdpMethod}
    (hq : request udpCommands mi.msg JSMN_NTOK = some q)
    (hm : q.method = .broadcast) :
    handleMessage st mi = match eligible mi.msg q.kids with
      | none => some (st, none)
      | some (p, id) =>
          (passOn st mi p id).map fun r => (r.1, r.2.2) := by
  obtain ⟨r, hr⟩ := handleMessage_request st hq
  have hgood := zipParse_good (request_some hq).1
  rw [hr, hm]
  simp only [bind, processBroadcast_spec hgood.2.2.1 hgood.1.2.1]
  cases eligible mi.msg q.kids with
  | none => rfl
  | some e =>
      obtain ⟨p, id⟩ := e
      cases hpass : passOn st mi p id <;> simp only [hpass] <;> rfl

/-- The hops position and the id of a UDP message that may be passed
on. -/
def passable (msg : List UInt8) : Option (Nat × Text) :=
  (request udpCommands msg JSMN_NTOK).bind fun q =>
    if q.method = .broadcast then eligible msg q.kids else none

/-- A flooded message may be passed on, and leaves with its hops
character increased. -/
theorem handleMessage_flood {st' : RouterState} {sent : List UdpSend}
    (h : handleMessage st mi = some (st', some sent)) :
    ∃ p id, passable mi.msg = some (p, id)
      ∧ floodMessage st.routers st.clientTable
          { mi with msg := bump mi.msg p } = some sent
      ∧ st'.routers = st.routers ∧ st'.clientTable = st.clientTable := by
  unfold passable
  cases hq : request udpCommands mi.msg JSMN_NTOK with
  | none =>
      rw [handleMessage_none hq] at h
      cases h
  | some q =>
      cases hm : q.method with
      | connect =>
          obtain ⟨r, hr⟩ := handleMessage_request st hq
          rw [hr, hm] at h
          simp only [bind, pure, Option.bind_eq_some_iff] at h
          obtain ⟨st₁, -, hst⟩ := h
          cases hst
      | broadcast =>
          rw [handleMessage_broadcast _ hq hm] at h
          -- only an eligible broadcast floods, and one its cache does not
          -- have
          cases he : eligible mi.msg q.kids with
          | none => simp [he] at h
          | some e =>
              obtain ⟨p, id⟩ := e
              refine ⟨p, id, by simp [hm, he], ?_⟩
              simp only [he, Option.map_eq_some_iff] at h
              obtain ⟨⟨st₁, mi₁, sent₁⟩, hpass, heq⟩ := h
              obtain ⟨rfl, rfl⟩ := Prod.mk.inj heq
              simp only [passOn, bind, Option.bind_eq_some_iff,
                Prod.exists] at hpass
              obtain ⟨cached, t', hcache, hpass⟩ := hpass
              split at hpass
              · cases hpass
              · obtain ⟨sent₂, hsent, hpass⟩ :=
                  Option.bind_eq_some_iff.mp hpass
                cases hpass
                exact ⟨hsent, rfl, rfl⟩

-- ============================================================= read alike

/-- The keys a UDP message is read by. -/
def udpKeys : List Text :=
  [ascii "method", ascii "connect", ascii "broadcast", ascii "hops",
    ascii "id"]

/-- What a message is read for stands in its C string. -/
theorem eligible_spans {num : Nat}
    (hz : zipParse msg num = .ok (.node a kids rest)) :
    LabSpans a.start kids a.stop ∧ a.stop ≤ (cstr msg).length := by
  have hs := zipParse_spans hz
  exact ⟨hs.2.1, hs.2.2.le⟩

/-- What is passed on depends on the C string only. -/
theorem eligible_congr {msg' : List UInt8} (h : cstr msg = cstr msg')
    (hs : LabSpans lo kids hi) (hhi : hi ≤ (cstr msg).length) :
    eligible msg kids = eligible msg' kids := by
  have halike : Alike udpKeys msg msg' := .of_cstr h (by decide)
  unfold eligible
  rw [← findPair_alike halike hs hhi
      (show ascii "hops" ∈ udpKeys by decide),
    ← findPair_alike halike hs hhi (show ascii "id" ∈ udpKeys by decide)]
  cases hh : findPair msg (ascii "hops") kids with
  | none => rfl
  | some h' =>
      cases hid : findPair msg (ascii "id") kids with
      | none => rfl
      | some i =>
          have hb := (pairs_spans hs).1 h' (findPair_mem hh).1
          have hi' := (pairs_spans hs).1 i (findPair_mem hid).1
          have hbyte : byteAt msg h'.val.start = byteAt msg' h'.val.start := by
            rw [← byteAt_cstr (by omega), h, byteAt_cstr (by rw [← h]; omega)]
          simp only [hbyte, valText_congr h (v := i.val) (by omega)
            (by omega)]

theorem passable_congr {msg' : List UInt8} (h : cstr msg = cstr msg') :
    passable msg = passable msg' := by
  have halike : Alike udpKeys msg msg' := .of_cstr h (by decide)
  unfold passable
  rw [← request_alike halike (by decide) (by decide)]
  cases hq : request udpCommands msg JSMN_NTOK with
  | none => rfl
  | some q =>
      obtain ⟨hs, hhi⟩ := eligible_spans (request_some hq).1
      simp only [Option.bind_some, eligible_congr h hs hhi]

/-- What makes a message passable. -/
theorem passable_some {p : Nat} {id : Text}
    (h : passable msg = some (p, id)) :
    ∃ q, request udpCommands msg JSMN_NTOK = some q
      ∧ q.method = .broadcast ∧ eligible msg q.kids = some (p, id) := by
  obtain ⟨q, hq, he⟩ := Option.bind_eq_some_iff.mp h
  split at he
  · next hm => exact ⟨q, hq, hm, he⟩
  · cases he

/-- The hops character of a passable message stands in its C string. -/
theorem passable_lt {p : Nat} {id : Text}
    (h : passable msg = some (p, id)) :
    p < (cstr msg).length ∧ hopsOk (byteAt msg p) = true := by
  obtain ⟨q, hq, -, he⟩ := passable_some h
  obtain ⟨h', i, hb, rfl, -, hok⟩ := eligible_some he
  obtain ⟨hs, hhi⟩ := eligible_spans (request_some hq).1
  have hin := (pairs_spans hs).1 h' (findPair_mem hb.hops).1
  refine ⟨lt_cstr (by omega) ?_, hok⟩
  intro hzero
  rw [hzero] at hok
  cases hok

/-- A router down the path reads the same id at the same place, as long
as the hops character is below the limit. -/
theorem passable_bump {p : Nat} {id : Text}
    (h : passable msg = some (p, id)) :
    passable (bump msg p)
      = if hopsOk (byteAt msg p + 1) then some (p, id) else none := by
  obtain ⟨q, hq, hm, he⟩ := passable_some h
  obtain ⟨h', i, hb, rfl, rfl, hok⟩ := eligible_some he
  have halike : Alike udpKeys msg (bump msg h'.val.start) :=
    .of_mask (bump_mask hok).symm (by decide)
  have hgood := zipParse_good (request_some hq).1
  unfold passable eligible
  rw [← request_alike halike (by decide) (by decide), hq]
  simp only [Option.bind_some, hm, ↓reduceIte,
    bump_findPair hok (ascii "hops") (by decide),
    bump_findPair hok (ascii "id") (by decide), hb.hops, hb.id,
    byteAt_bump hok, hb.valText_bump hgood.2.2.1 hgood.1.2.1 hok]

-- ======================================================= what a copy keeps

/-- An argument of a UDP message: where it stands and its text. -/
def argument (msg : List UInt8) (key : Text) : Option (Int × Text) := do
  let (method, tok, _) ← parseMessage msg zeroTokens JSMN_NTOK
  if method = -1 then none
  else do
    let i ← jsmnGetValue msg tok key
    let t ← tokenAt tok i
    let s ← jsmnTokdup msg t
    return (t.start, s)

/-- Texts read alike are the same message. -/
theorem parse_alike {msg' : List UInt8} (h : Alike udpKeys msg msg') :
    parseMessage msg zeroTokens JSMN_NTOK
      = parseMessage msg' zeroTokens JSMN_NTOK :=
  parseMessage_alike h (by decide) zeroTokens_room (t := JsmnTok.zero) rfl
    (by decide)

/-- An argument of an object with a method. -/
private theorem argument_object {key : Text}
    (hz : zipParse msg JSMN_NTOK = .ok (.node a kids rest))
    (ha : a.type = .object)
    (hm : findPair msg (ascii "method") kids ≠ none) :
    argument msg key = (findPair msg key kids).map fun p =>
      ((p.val.start : Int), valText msg p.val) := by
  obtain ⟨p, hp⟩ := Option.ne_none_iff_exists'.mp hm
  have hgood := zipParse_good hz
  have hw := hgood.2.2.1
  simp only [argument, parseMessage_object zeroTokens_room hz ha, hp, bind,
    Option.bind_some, if_neg (answer_ne p), tokens_root,
    jsmnGetValue_spec msg key rfl hw]
  cases hk : findPair msg key kids with
  | none => rfl
  | some i =>
      have hspan := (pairs_spans hgood.1.2.1).1 i (findPair_mem hk).1
      simp only [tokenAt_answer hw hk, Option.bind_some,
        jsmnTokdup_tok hspan.2.2.1, Option.map_some]
      rfl

/-- A message that is refused has no arguments. -/
private theorem argument_refused {key : Text} {tok : List JsmnTok} {n : Nat}
    (h : parseMessage msg zeroTokens JSMN_NTOK = some (-1, tok, n)) :
    argument msg key = none := by
  simp only [argument, h, bind, Option.bind_some, ↓reduceIte]

/-- The arguments depend on the C string only. -/
theorem argument_congr {msg' : List UInt8} (h : cstr msg = cstr msg')
    {key : Text} (hkey : key ∈ udpKeys) :
    argument msg key = argument msg' key := by
  have halike : Alike udpKeys msg msg' := .of_cstr h (by decide)
  have hparse := parse_alike halike
  have hrefused : ∀ tok n,
      parseMessage msg zeroTokens JSMN_NTOK = some (-1, tok, n) →
      argument msg key = argument msg' key := by
    intro tok n hmsg
    rw [argument_refused hmsg, argument_refused (hparse ▸ hmsg)]
  cases hz : zipParse msg JSMN_NTOK with
  | error e => exact hrefused _ _ (parseMessage_error zeroTokens_room hz)
  | ok f =>
      cases f with
      | nil =>
          apply hrefused zeroTokens JSMN_NTOK
          rw [parseMessage_blank zeroTokens_room hz
            (t := JsmnTok.zero) rfl, if_pos (by decide)]
      | node a kids rest =>
          by_cases ha : a.type = .object
          · by_cases hm : findPair msg (ascii "method") kids = none
            · have := parseMessage_object zeroTokens_room hz ha
              rw [hm] at this
              exact hrefused _ _ this
            · obtain ⟨hs, hhi⟩ := eligible_spans hz
              have hm' := hm
              rw [findPair_alike halike hs hhi (by decide)] at hm'
              rw [argument_object hz ha hm,
                argument_object (halike.parse _ ▸ hz) ha hm',
                ← findPair_alike halike hs hhi hkey]
              apply Option.map_congr
              intro p hp
              have hin := (pairs_spans hs).1 p (findPair_mem hp).1
              rw [valText_congr h (by omega) hin.2.2.1]
          · exact hrefused _ _ (parseMessage_other zeroTokens_room hz ha)

/-- The edit leaves the hops token and the id where they are. -/
theorem argument_bump {p : Nat} {id : Text}
    (h : passable msg = some (p, id)) :
    (argument msg (ascii "hops")).map Prod.fst = some (p : Int)
      ∧ (argument (bump msg p) (ascii "hops")).map Prod.fst
        = some (p : Int)
      ∧ argument (bump msg p) (ascii "id")
        = argument msg (ascii "id") := by
  obtain ⟨q, hq, -, he⟩ := passable_some h
  obtain ⟨h', i, hb, rfl, rfl, hok⟩ := eligible_some he
  obtain ⟨hz, ha, m, hm, -⟩ := request_some hq
  have hgood := zipParse_good hz
  have hz' := bump_parse hok JSMN_NTOK ▸ hz
  have hm' := @bump_findPair _ q.kids _ hok (ascii "method") (by decide)
  rw [argument_object hz ha (by simp [hm]), argument_object hz ha
    (by simp [hm]), argument_object hz' ha (by simp [hm', hm]),
    argument_object hz' ha (by simp [hm', hm]),
    bump_findPair hok _ (by decide), bump_findPair hok _ (by decide), hb.hops,
    hb.id]
  refine ⟨rfl, rfl, ?_⟩
  simp only [Option.map_some, hb.valText_bump hgood.2.2.1 hgood.1.2.1 hok]

end Psnet.Router
