/-
The hop limit, on the number a broadcast carries.

`process_broadcast` tests and increases one character, the first of the
hops value, whatever number the value denotes. A value of one digit is
treated as it should be; a longer one that starts with 0, 1 or 2 is
passed on with its first digit increased, however large it is
(`hop_limit`).

# Three conditions

`Counts` is a message with a number under `hops`, and `HopLimit` what is
claimed of it: a copy goes out below the limit only, and carries the number
plus one. This holds when the message is not passed on (`Passes`); and,
when the number has one digit, if there is nobody to be sent a copy
(`Unheard`) or `len` covers the number (`SentWhole`).
-/
import Psnet.Parse.Written
import Psnet.Router.Forward

namespace Psnet.Router

open Net Jsmn Parse Forest DeltaList Client Server

variable {msg : List UInt8} {num n : Nat} {a : Lab} {kids rest : Forest Lab}
  {h : Pair} {st st' : RouterState} {mi mi' : MsgInfo} {r : List JsmnTok}
  {out : Option (List UdpSend)}

/-- The text is an object that has the number `n` under `hops`, in
decimal and unquoted, as the pair `h`. -/
structure Counts (msg : List UInt8) (num : Nat) (a : Lab)
    (kids rest : Forest Lab) (h : Pair) (n : Nat) : Prop where
  parsed : zipParse msg num = .ok (.node a kids rest)
  object : a.type = .object
  hops : findPair msg (ascii "hops") kids = some h
  primitive : h.val.type = .primitive
  numeral : valText msg h.val = decimalNat n

/-- A router that receives the text reads `n` under `hops`. -/
def CarriesHops (msg : List UInt8) (h : Pair) (n : Nat) : Prop :=
  ∃ a kids rest, Counts msg JSMN_NTOK a kids rest h n

/-- What is forwarded has made fewer hops than the limit allows, and
every copy says that it has made one more. -/
def HopLimit (h : Pair) (n : Nat) (out : Option (List UdpSend)) : Prop :=
  ∀ sent, out = some sent → n < MAX_HOPS.toNat - 1
    ∧ ∀ s ∈ sent, ∃ copy, s.payload = some copy
        ∧ CarriesHops copy h (n + 1)

/-- The router passes the message on: it has both arguments, the first
character of its hops value is below the limit, and its id is not
cached. -/
def Passes (st : RouterState) (msg : List UInt8) (kids : Forest Lab) :
    Prop :=
  ∃ p id, eligible msg kids = some (p, id)
    ∧ deltaContains cacheConf st.msgCache id = some 0

/-- The bytes that `len` counts are in the buffer, and the number is
read from them too. -/
def SentWhole (mi : MsgInfo) (h : Pair) (n : Nat) : Prop :=
  mi.len ≤ mi.msg.length ∧ CarriesHops (mi.msg.take mi.len) h n

-- ================================================================ the outcome

/-- Whether a message is cached already is what `delta_contains` says. -/
private theorem cacheMsg_contains {t t' : Table Text} {id : Text} {rc : Int}
    (h : cacheMsg t id = some (rc, t')) :
    deltaContains cacheConf t id = some rc := by
  simp only [cacheMsg, deltaUpdate, bind, Option.bind_eq_some_iff] at h
  obtain ⟨⟨node, prev⟩, hget, h⟩ := h
  simp only [deltaContains, hget, bind, Option.bind_some]
  cases node with
  | none =>
      simp only [Option.bind_eq_some_iff] at h
      obtain ⟨_, -, _, -, h⟩ := h
      cases h
      rfl
  | some b =>
      simp only [Option.bind_eq_some_iff] at h
      obtain ⟨_, -, _, -, h⟩ := h
      cases h
      rfl

/-- What a call of the handler that completes hands to `udp_send`. -/
private theorem processBroadcast_out (hc : Counts mi.msg num a kids rest h n)
    (hrun : processBroadcast st mi (tokens (tree a kids) ++ r)
      = some (st', mi', out)) :
    (¬ Passes st mi.msg kids ∧ out = none)
      ∨ Passes st mi.msg kids ∧ hopsOk (byteAt mi.msg h.val.start) = true
        ∧ ∃ routers clients, Roster st.routers st.clientTable routers clients
          ∧ out = some (((routers.filter fun r => !ipAddrEquals r mi.addr)
            ++ clients).map fun sa =>
              ⟨sa, mi.len, bump mi.msg h.val.start⟩) := by
  have hgood := zipParse_good hc.parsed
  rw [processBroadcast_spec hgood.2.2.1 hgood.1.2.1] at hrun
  cases he : eligible mi.msg kids with
  | none =>
      rw [he] at hrun
      cases hrun
      refine Or.inl ⟨?_, rfl⟩
      intro h
      obtain ⟨p, id, hp, -⟩ := h
      rw [he] at hp
      cases hp
  | some e =>
      obtain ⟨p, id⟩ := e
      obtain ⟨h', i, hb, rfl, -, hok⟩ := eligible_some he
      obtain rfl : h' = h := Option.some.inj (hb.hops.symm.trans hc.hops)
      simp only [he, passOn, bind, Option.bind_eq_some_iff] at hrun
      obtain ⟨⟨rc, t'⟩, hcache, hrun⟩ := hrun
      have hcont := cacheMsg_contains hcache
      -- `cache_msg` answers 0 just for an id it does not have
      have hpass : Passes st mi.msg kids ↔ rc = 0 := by
        constructor
        · intro h
          obtain ⟨p', id', he', h0⟩ := h
          obtain ⟨rfl, rfl⟩ := Prod.mk.inj (Option.some.inj (he.symm.trans he'))
          exact Option.some.inj (hcont.symm.trans h0)
        · intro heq
          subst heq
          exact ⟨_, _, he, hcont⟩
      by_cases h0 : rc = 0
      · refine Or.inr ⟨hpass.mpr h0, hok, ?_⟩
        simp only [h0, ne_eq, not_true, ↓reduceIte,
          Option.bind_eq_some_iff] at hrun
        obtain ⟨sent, hsent, hrun⟩ := hrun
        cases hrun
        obtain ⟨routers, clients, hro, hflood⟩ := floodMessage_roster hsent
        exact ⟨routers, clients, hro, congrArg some hflood⟩
      · refine Or.inl ⟨mt hpass.mp h0, ?_⟩
        simp only [ne_eq, h0, not_false_eq_true, ↓reduceIte] at hrun
        cases hrun
        rfl

-- ================================================================= the numeral

/-- The first character of a numeral stands where its value does. -/
theorem Counts.first (hc : Counts msg num a kids rest h n) :
    ∃ d ds, decimalNat n = d :: ds ∧ byteAt msg h.val.start = d
      ∧ isDigit d = true := by
  obtain ⟨d, ds, hd⟩ := List.exists_cons_of_ne_nil (decimalNat_digits n).1
  refine ⟨d, ds, hd, ?_, (decimalNat_digits n).2 d (hd ▸
    List.mem_cons_self ..)⟩
  have hval := hc.numeral
  rw [hd, valText] at hval
  obtain ⟨u, hu⟩ := List.takeWhile_prefix (p := (· ≠ 0))
    (l := (msg.drop h.val.start).take (h.val.stop - h.val.start))
  rw [hval] at hu
  obtain ⟨v, hv⟩ := List.take_prefix (h.val.stop - h.val.start)
    (msg.drop h.val.start)
  rw [← hu] at hv
  exact (byteAt_drop_cons hv.symm).1

/-- A digit the router lets pass is bumped to the next. -/
private theorem hopsOk_digitChar {d : Nat} (hd : d < 10) :
    hopsOk (digitChar d) = true ↔ d < MAX_HOPS.toNat - 1 := by
  rw [hopsOk_iff, toNat_digitChar hd, show MAX_HOPS.toNat - 1 = 3 from rfl]
  omega

private theorem digitChar_succ (d : Nat) : digitChar d + 1 = digitChar
    (d + 1) := by
  simp [digitChar, ← Nat.add_assoc, UInt8.ofNat_add]

/-- The first character of a value is the one bumped. -/
private theorem valText_bump_iff {v : Lab}
    (hok : hopsOk (byteAt msg v.start) = true) (c : UInt8) :
    valText (bump msg v.start) v = [c + 1] ↔ valText msg v = [c] := by
  obtain ⟨h1, h2⟩ := hopsOk_iff.mp hok
  have hne : ∀ b : UInt8, 48 ≤ b.toNat → b ≠ 0 := by
    intro b hb heq
    subst heq
    exact absurd hb (by decide)
  have hsucc : (byteAt msg v.start + 1).toNat
      = (byteAt msg v.start).toNat + 1 := by
    rw [UInt8.toNat_add]
    exact Nat.mod_eq_of_lt (by simp; omega)
  obtain ⟨-, hdrop⟩ := drop_eq_cons (hne _ h1)
  have hset : (bump msg v.start).drop v.start
      = (byteAt msg v.start + 1) :: msg.drop (v.start + 1) := by
    rw [bump, List.drop_set, if_neg (Nat.lt_irrefl _), Nat.sub_self, hdrop,
      List.set_cons_zero]
  unfold valText
  rw [hset, hdrop]
  cases v.stop - v.start with
  | zero => simp
  | succ k =>
      rw [List.take_succ_cons, List.take_succ_cons,
        List.takeWhile_cons_of_pos (by simpa using hne _ (by omega)),
        List.takeWhile_cons_of_pos (by simpa using hne _ h1)]
      simp

/-- A number of one digit is bumped to the next number. -/
theorem CarriesHops.bump_iff (hn : n < MAX_HOPS.toNat - 1)
    (hok : hopsOk (byteAt msg h.val.start) = true) :
    CarriesHops (bump msg h.val.start) h (n + 1) ↔ CarriesHops msg h n := by
  have hn3 : n < 3 := hn
  have hnum : valText (bump msg h.val.start) h.val = decimalNat (n + 1)
      ↔ valText msg h.val = decimalNat n := by
    rw [decimalNat_digit (by omega), decimalNat_digit (by omega),
      ← digitChar_succ]
    exact valText_bump_iff hok _
  constructor
  · intro h
    obtain ⟨a, kids, rest, hp, ho, hh, ht, hv⟩ := h
    exact ⟨a, kids, rest, bump_parse hok _ ▸ hp, ho,
      (bump_findPair hok _ (by decide)).symm.trans hh, ht, hnum.mp hv⟩
  · intro h
    obtain ⟨a, kids, rest, hp, ho, hh, ht, hv⟩ := h
    exact ⟨a, kids, rest, (bump_parse hok _).trans hp, ho,
      (bump_findPair hok _ (by decide)).trans hh, ht, hnum.mpr hv⟩

/-- The copies of a message passed on say what they should exactly when
the bytes that `len` counts hold the number. -/
private theorem copy_iff (hn : n < MAX_HOPS.toNat - 1)
    (hok : hopsOk (byteAt mi.msg h.val.start) = true) (sa : Sockaddr) :
    (∃ copy, (UdpSend.mk sa mi.len (bump mi.msg h.val.start)).payload
        = some copy ∧ CarriesHops copy h (n + 1)) ↔ SentWhole mi h n := by
  unfold UdpSend.payload SentWhole
  simp only [length_bump]
  by_cases hlen : mi.len ≤ mi.msg.length
  · have hbyte : h.val.start < mi.len →
        byteAt (mi.msg.take mi.len) h.val.start
          = byteAt mi.msg h.val.start := by
      intro hlt
      simp [byteAt, List.getElem?_take_of_lt hlt]
    have hout : ¬ h.val.start < mi.len → ∀ m,
        ¬ CarriesHops (List.take mi.len m) h n
          ∧ ¬ CarriesHops (List.take mi.len m) h (n + 1) := by
      intro hge m
      constructor <;>
      · intro h
        obtain ⟨a', kids', rest', hc'⟩ := h
        obtain ⟨d, ds, -, hd, hdig⟩ := hc'.first
        rw [byteAt, List.getD_eq_getElem?_getD,
          List.getElem?_eq_none (by simp; omega)] at hd
        subst hd
        cases hdig
    simp only [hlen, ↓reduceIte, Option.some.injEq, exists_eq_left',
      true_and]
    by_cases hlt : h.val.start < mi.len
    · have htake : (bump mi.msg h.val.start).take mi.len
          = bump (mi.msg.take mi.len) h.val.start := by
        rw [bump, bump, List.take_set, hbyte hlt]
      rw [htake]
      exact CarriesHops.bump_iff hn (hbyte hlt ▸ hok)
    · exact iff_of_false (hout hlt _).2 (hout hlt _).1
  · simp [hlen]

-- =================================================================== the limit

/-- Nobody is sent a message from `sender`. -/
def Unheard (st : RouterState) (sender : Sockaddr) : Prop :=
  ∃ routers, Roster st.routers st.clientTable routers []
    ∧ ∀ r ∈ routers, ipAddrEquals r sender = true

private theorem unheard_iff {routers clients : List Sockaddr}
    {sender : Sockaddr}
    (hro : Roster st.routers st.clientTable routers clients) :
    Unheard st sender
      ↔ (routers.filter fun r => !ipAddrEquals r sender) ++ clients = [] := by
  simp only [List.append_eq_nil_iff, List.filter_eq_nil_iff,
    Bool.not_eq_true, Bool.not_eq_false']
  constructor
  · intro h
    obtain ⟨routers', hro', hall⟩ := h
    obtain ⟨rfl, rfl⟩ := hro.unique hro'
    exact ⟨hall, rfl⟩
  · intro h
    obtain ⟨hall, rfl⟩ := h
    exact ⟨routers, hro, hall⟩

/-- The limit is kept exactly by the messages that are not passed on,
and by those with a number of one digit, if what is sent of them holds
it. -/
theorem hop_limit (hc : Counts mi.msg num a kids rest h n)
    (hrun : processBroadcast st mi (tokens (tree a kids) ++ r)
      = some (st', mi', out)) :
    HopLimit h n out ↔ ¬ Passes st mi.msg kids
      ∨ n < 10 ∧ (Unheard st mi.addr ∨ SentWhole mi h n) := by
  rcases processBroadcast_out hc hrun with
    ⟨hno, rfl⟩ | ⟨hpass, hok, routers, clients, hro, rfl⟩
  · exact iff_of_true (fun sent hsent => nomatch hsent) (Or.inl hno)
  obtain ⟨d, ds, hd, hbyte, -⟩ := hc.first
  -- a number of one digit that is passed on is below the limit
  have hsmall : n < 10 ↔ n < MAX_HOPS.toNat - 1 := by
    refine ⟨fun hn => ?_, fun hn => Nat.lt_trans hn (by decide)⟩
    rw [decimalNat_digit hn] at hd
    rw [← hopsOk_digitChar hn, (List.cons.inj hd).1, ← hbyte]
    exact hok
  simp only [hpass, not_true, false_or, hsmall, unheard_iff hro]
  unfold HopLimit
  simp only [Option.some.injEq, forall_eq']
  apply and_congr_right
  intro hn
  simp only [List.forall_mem_map, copy_iff hn hok]
  cases (routers.filter fun r => !ipAddrEquals r mi.addr) ++ clients with
  | nil => simp
  | cons sa sas =>
      constructor
      · exact fun hall => Or.inr (hall sa (List.mem_cons_self ..))
      · rintro (hnil | hwhole) s -
        · cases hnil
        · exact hwhole

/-- Over UDP a message is sent on in full. -/
private theorem sentWhole_udp {old : MsgInfo} {sender : Sockaddr}
    {d : List UInt8} (hold : old.msg.length = MSG_MAX)
    (hc : Counts (udpReceive old sender d).msg JSMN_NTOK a kids rest h n) :
    SentWhole (udpReceive old sender d) h n := by
  have hfits : (recvBytes d).length ≤ old.msg.length :=
    hold ▸ Nat.le_trans (recvBytes_length d) (by decide)
  refine ⟨(length_store hfits).symm ▸ hfits, a, kids, rest, ?_⟩
  rw [show (udpReceive old sender d).msg.take
    (udpReceive old sender d).len = recvBytes d from take_store ..]
  have hcstr : cstr (udpReceive old sender d).msg = cstr (recvBytes d) :=
    cstr_store ..
  obtain ⟨hs, hhi⟩ := eligible_spans hc.parsed
  have halike : Alike udpKeys (udpReceive old sender d).msg (recvBytes d) :=
    .of_cstr hcstr (by decide)
  have hin := (pairs_spans hs).1 h (findPair_mem hc.hops).1
  exact {
    parsed := (zipParse_congr hcstr _).symm.trans hc.parsed
    object := hc.object
    hops := (findPair_alike halike hs hhi (by decide)).symm.trans hc.hops
    primitive := hc.primitive
    numeral := (valText_congr hcstr (by omega) (by omega)).symm.trans
      hc.numeral }

-- ============================================================= two examples

/-- The members of a broadcast that has made `n` hops. -/
def hopsMembers (n : Nat) : Members :=
  [("method", .string (ascii "broadcast")), ("hops", .word (decimalNat n)),
    ("id", .string (ascii "a"))]

/-- What the hub makes of it. -/
def hopsInfo (n : Nat) : MsgInfo :=
  udpReceive zeroInfo (host6 9) (flatText (hopsMembers n))

def hopsObject (n : Nat) : Lab :=
  ⟨.object, 0, (flatText (hopsMembers n)).length⟩

theorem hopsInfo_counts (h : (flatText (hopsMembers n)).length < MSG_MAX) :
    ∃ p, Counts (hopsInfo n).msg JSMN_NTOK (hopsObject n)
      (flatKids (hopsMembers n)) .nil p n := by
  have hkeys : isBody (ascii "method") = true ∧ isBody (ascii "hops") = true
      ∧ isBody (ascii "id") = true := by decide +kernel
  have hstrings : isBody (ascii "broadcast") = true
      ∧ isBody (ascii "a") = true := by decide +kernel
  have hms : PlainMembers (hopsMembers n) :=
    .cons hkeys.1 hstrings.1 (.cons hkeys.2.1
      (decimal_natCast n ▸ plain_decimal n)
      (.cons hkeys.2.2 hstrings.2 plainMembers_nil))
  have hmsg : cstr (hopsInfo n).msg = flatText (hopsMembers n) ++ [] := by
    rw [hopsInfo, udpReceive, cstr_store, recvBytes_of_lt h,
      cstr_eq_self (nul_notMem_flatText hms), List.append_nil]
  have hroom : 1 + 2 * (hopsMembers n).length ≤ JSMN_NTOK := by
    simp [hopsMembers, JSMN_NTOK]
  have hskip : (ascii "hops").isPrefixOf (ascii "method") = false := by
    decide
  obtain ⟨p, hp, hv⟩ := argument_flat hms hmsg
    (show KeyText (ascii "hops") by decide)
    (v := .word (decimalNat n)) (by
      rw [hopsMembers, lookup_skip _ hskip, lookup_self])
  exact ⟨p, zipParse_flat hms (by decide) hmsg hroom, rfl, hp, hv.type,
    valText_holds hv⟩

/-- What the hub does with it. -/
def hopsRun (n : Nat) :
    Option (RouterState × MsgInfo × Option (List UdpSend)) :=
  processBroadcast hub (hopsInfo n)
    (tokens (tree (hopsObject n) (flatKids (hopsMembers n))) ++ [])

/-- After one hop a broadcast has another before it. -/
theorem hop_limit_one :
    ∃ h st' mi' out, Counts (hopsInfo 1).msg JSMN_NTOK (hopsObject 1)
        (flatKids (hopsMembers 1)) .nil h 1
      ∧ hopsRun 1 = some (st', mi', out) ∧ HopLimit h 1 out := by
  obtain ⟨h, hc⟩ := @hopsInfo_counts 1 (by decide +kernel)
  have hrun : (hopsRun 1).isSome = true := by decide +kernel
  obtain ⟨⟨st', mi', out⟩, hrun⟩ := Option.isSome_iff_exists.mp hrun
  exact ⟨h, st', mi', out, hc, hrun, (hop_limit hc hrun).mpr
    (Or.inr ⟨by decide, Or.inr (sentWhole_udp List.length_replicate hc)⟩)⟩

/-- After ten hops it is sent to both routers, as one after twenty. -/
theorem ten_hops_pass :
    ∃ h st' mi' out, Counts (hopsInfo 10).msg JSMN_NTOK (hopsObject 10)
        (flatKids (hopsMembers 10)) .nil h 10
      ∧ hopsRun 10 = some (st', mi', out)
      ∧ out.map (List.map UdpSend.payload)
        = some [some (flatText (hopsMembers 20)),
          some (flatText (hopsMembers 20))]
      ∧ ¬ HopLimit h 10 out := by
  obtain ⟨h, hc⟩ := @hopsInfo_counts 10 (by decide +kernel)
  have hrun : (hopsRun 10).bind (fun r => r.2.2.map
      (List.map UdpSend.payload)) = some [some (flatText (hopsMembers 20)),
        some (flatText (hopsMembers 20))] := by decide +kernel
  obtain ⟨⟨st', mi', out⟩, hrun, hout⟩ := Option.bind_eq_some_iff.mp hrun
  refine ⟨h, st', mi', out, hc, hrun, hout, fun hlimit => ?_⟩
  obtain ⟨sent, rfl, -⟩ := Option.map_eq_some_iff.mp hout
  exact absurd (hlimit sent rfl).1 (by decide)

end Psnet.Router
