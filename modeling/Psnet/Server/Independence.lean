/-
Whether an answer on a connection depends on the requests before it.

The token array, the number of tokens left and the buffer outlive a
request. The number of tokens left is what the last message had, so a
longer message is refused; and a message without any token is looked up
in the tokens of an earlier one, in a buffer that still holds most of
that message. `Unaffected` is the exact condition under which neither
shows.

# By the parse of the message

The three cases of `zipParse` are the three of the proof. A message that
is no JSON is refused for any number of tokens left; one without tokens is
looked up in the array (`answer_blank_iff`); and one with tokens is either
parsed as on a fresh connection (`answer_congr`) or not at all.
-/
import Psnet.Server.Connection

namespace Psnet.Server

open Net Jsmn Parse Forest Client

variable {σ μ : Type} {sv : Service σ μ} {st : σ} {c : Conn}
  {m : List UInt8}

/-- A message read into the buffer of a connection. -/
def Conn.receive (c : Conn) (m : List UInt8) : Conn :=
  c.read (store c.mi.msg m)

/-- What the peer sees of a request: the handler it is dispatched to,
the bytes sent back, and whether the connection stays open. -/
def Service.answer (sv : Service σ μ) (st : σ) (c : Conn) :
    Option (Option μ × Text × Bool) :=
  (sv.handleRequest st c).map fun r =>
    (r.2.2.method, r.2.2.wire, r.2.2.keep)

/-- The message is no JSON; or it has no token, and what stands in the
array is no object or has no method in the buffer as it is now; or it
has no more tokens than there is room for, or no method anyway. -/
@[irreducible] def Unaffected (c : Conn) (m : List UInt8) : Prop :=
  match zipParse m JSMN_NTOK with
  | .error _ => True
  | .ok .nil => ∃ t, c.tok[0]? = some t ∧ (t.type ≠ .object
      ∨ jsmnGetValue (store c.mi.msg m) c.tok (ascii "method") = some (-1))
  | .ok (.node a kids rest) => (Forest.node a kids rest).count ≤ c.ntok
      ∨ a.type ≠ .object ∨ findPair m (ascii "method") kids = none

/-- A message with tokens for which there is room is not affected. -/
theorem unaffected_of_room {f : Forest Lab}
    (hz : zipParse m JSMN_NTOK = .ok f) (hpos : 0 < f.count)
    (hroom : f.count ≤ c.ntok) : Unaffected c m := by
  unfold Unaffected
  rw [hz]
  cases f with
  | nil => cases hpos
  | node a kids rest => exact Or.inl hroom

-- ================================================================== the answers

/-- The answer to a message that `parse_message` refuses. -/
private theorem answer_refused {tok : List JsmnTok} {n : Nat}
    (h : parseMessage c.mi.msg c.tok c.ntok = some (-1, tok, n)) :
    sv.answer st c = some (none, sv.noMethod, false) := by
  rw [Service.answer, handleRequest_refused h]
  rfl

/-- A message with a method is never answered like one without. -/
private theorem answer_ne_refused (hsv : sv.Lawful) {i : Int}
    {tok : List JsmnTok} {n : Nat}
    (h : parseMessage c.mi.msg c.tok c.ntok = some (i, tok, n))
    (hi : i ≠ -1) :
    sv.answer st c ≠ some (none, sv.noMethod, false) := by
  intro hans
  obtain ⟨⟨st', c', r⟩, hr, heq⟩ := Option.map_eq_some_iff.mp hans
  simp only [Service.handleRequest, h, bind, Option.bind_some, if_neg hi,
    Option.bind_eq_some_iff] at hr
  obtain ⟨t, -, cmd, -, hr⟩ := hr
  cases cmd with
  | none =>
      cases hr
      exact hsv.errors (congrArg (fun x => x.2.1) heq).symm
  | some m =>
      simp only [Option.bind_eq_some_iff] at hr
      obtain ⟨p, -, hr⟩ := hr
      cases hr
      cases congrArg Prod.fst heq

/-- With room for its tokens, a message is answered by its text. -/
private theorem answer_congr (hsv : sv.Lawful) {c' : Conn} {f : Forest Lab}
    (hn : c.ntok ≤ c.tok.length) (hn' : c'.ntok ≤ c'.tok.length)
    (hhost : SameHost c.mi.addr c'.mi.addr)
    (htext : cstr c.mi.msg = cstr c'.mi.msg) (hf : f ≠ .nil)
    (hz : zipParse c.mi.msg c.ntok = .ok f)
    (hz' : zipParse c'.mi.msg c'.ntok = .ok f) :
    sv.answer st c = sv.answer st c' := by
  obtain ⟨a, kids, rest, rfl⟩ : ∃ a kids rest, f = .node a kids rest := by
    cases f with
    | nil => exact absurd rfl hf
    | node a kids rest => exact ⟨a, kids, rest, rfl⟩
  -- the two messages show the same keys and names
  have halike : Parse.Alike (ascii "method" :: sv.commands.map
      fun cmd => ascii cmd.1) c.mi.msg c'.mi.msg := by
    refine .of_cstr htext fun key hkey => ?_
    rcases List.mem_cons.mp hkey with rfl | hkey
    · decide
    · obtain ⟨cmd, hcmd, rfl⟩ := List.mem_map.mp hkey
      exact hsv.names cmd hcmd
  have hspans := zipParse_spans hz
  have hend := hspans.2.2.le
  -- what is no object, has no method, or no known one, is refused alike
  by_cases ha : a.type = .object
  · have hp' := findPair_alike halike hspans.2.1 hend
      (List.mem_cons_self ..)
    have hparse := parseMessage_object hn hz ha
    have hparse' := parseMessage_object hn' hz' ha
    rw [← hp'] at hparse'
    cases hp : findPair c.mi.msg (ascii "method") kids with
    | none =>
        rw [hp] at hparse hparse'
        rw [answer_refused hparse, answer_refused hparse']
    | some p =>
        have hin := (pairs_spans (i := 1) hspans.2.1).1 p
          (findPair_mem hp).1
        have hcmd := @command_alike _ _ _ _ sv.commands halike
          (fun cmd hc => List.mem_cons_of_mem _ (List.mem_map_of_mem hc))
          p.val (by omega)
        have hq := @request_eq _ _ _ _ _ sv.commands _ _ hz ha hp
        have hq' := @request_eq _ _ _ _ _ sv.commands _ _ hz' ha (hp' ▸ hp)
        rw [← hcmd] at hq'
        cases hm : command c.mi.msg p.val sv.commands with
        | none =>
            rw [hp] at hparse hparse'
            have hw := (zipParse_good hz).2.2.1
            have hw' := (zipParse_good hz').2.2.1
            rw [tokens_root] at hparse hparse'
            rw [Service.answer, Service.answer,
              handleRequest_unknown hparse (answer_ne p)
                (tokenAt_answer hw hp) (by rw [cmdEqual_tok, hm]),
              handleRequest_unknown hparse' (answer_ne p)
                (tokenAt_answer hw' (hp' ▸ hp))
                (by rw [cmdEqual_tok, ← hcmd, hm])]
            rfl
        | some mth =>
            rw [hm, Option.map_some] at hq hq'
            obtain ⟨r, tok, n, hr⟩ := handleRequest_request sv st hn hq
            obtain ⟨r', tok', n', hr'⟩ :=
              handleRequest_request sv st hn' hq'
            -- the handler reads the message and the host, and both agree
            have hreads := @Service.Lawful.reads _ _ _ hsv st c.mi c'.mi
              a kids r r' mth ⟨hhost, htext,
                ⟨(zipParse_good hz).2.2.1, (zipParse_good hz').2.2.1⟩,
                ⟨_, _, hspans.2.1, hend⟩⟩
            have hwire : ∀ x : Option (σ × MsgInfo × Text
                × Option (List UdpSend)), ∀ tok n,
                (x.map fun p => ((p.1, (⟨p.2.1, tok, n⟩ : Conn),
                  (⟨some mth, p.2.2.1, p.2.2.2, true⟩ : Reply μ)))).map
                    (fun r => (r.2.2.method, r.2.2.wire, r.2.2.keep))
                  = (x.map (·.2.2.1)).map fun w => (some mth, w, true) := by
              intro x tok n
              cases x <;> rfl
            rw [Service.answer, Service.answer, hr, hr', hwire, hwire, hreads]
  · rw [answer_refused (parseMessage_other hn hz ha),
      answer_refused (parseMessage_other hn' hz' ha)]

/-- With room for its tokens, a message is answered like one without a
method exactly when it has none. -/
private theorem answer_refused_iff (hsv : sv.Lawful) {a : Lab}
    {kids rest : Forest Lab} (hn : c.ntok ≤ c.tok.length)
    (hz : zipParse c.mi.msg c.ntok = .ok (.node a kids rest)) :
    sv.answer st c = some (none, sv.noMethod, false)
      ↔ a.type ≠ .object ∨ findPair c.mi.msg (ascii "method") kids = none := by
  by_cases ha : a.type = .object
  · have hobj := parseMessage_object hn hz ha
    cases hp : findPair c.mi.msg (ascii "method") kids with
    | none =>
        rw [hp] at hobj
        exact iff_of_true (answer_refused hobj) (Or.inr rfl)
    | some p =>
        rw [hp] at hobj
        refine iff_of_false (answer_ne_refused hsv hobj (answer_ne p)) ?_
        simp [ha]
  · exact iff_of_true (answer_refused (parseMessage_other hn hz ha))
      (Or.inl ha)

-- ============================================================== the comparison

/-- Up to its terminator the buffer holds the message. -/
private theorem cstr_receive (c : Conn) (m : List UInt8) :
    cstr (c.receive m).mi.msg = cstr m := cstr_store _ m

private theorem zipParse_receive (c : Conn) (m : List UInt8) (n : Nat) :
    zipParse (c.receive m).mi.msg n = zipParse m n :=
  zipParse_congr (cstr_receive c m) n

section Fresh

variable {old' : MsgInfo} {peer : Sockaddr}

/-- A fresh connection has the whole array to itself. -/
private theorem fresh_room :
    ((Conn.fresh old' peer zeroTokens).receive m).ntok
      ≤ ((Conn.fresh old' peer zeroTokens).receive m).tok.length :=
  Nat.le_of_eq List.length_replicate.symm

/-- Its array starts with no object, so a message without tokens is
refused. -/
private theorem answer_fresh_blank (hz : zipParse m JSMN_NTOK = .ok .nil) :
    sv.answer st ((Conn.fresh old' peer zeroTokens).receive m)
      = some (none, sv.noMethod, false) := by
  have hzero : ((Conn.fresh old' peer zeroTokens).receive m).tok[0]?
      = some JsmnTok.zero := rfl
  have hblank := parseMessage_blank fresh_room
    ((zipParse_receive (Conn.fresh old' peer zeroTokens) m _).trans hz) hzero
  rw [if_pos (by decide)] at hblank
  exact answer_refused hblank

end Fresh

/-- A message without tokens is looked up in what the array holds. -/
private theorem answer_blank_iff (hsv : sv.Lawful)
    (hroom : c.ntok ≤ c.tok.length) (hpos : 0 < c.tok.length)
    (hz : zipParse m JSMN_NTOK = .ok .nil) :
    sv.answer st (c.receive m) = some (none, sv.noMethod, false)
      ↔ ∃ t, c.tok[0]? = some t ∧ (t.type ≠ .object
        ∨ jsmnGetValue (store c.mi.msg m) c.tok (ascii "method")
          = some (-1)) := by
  have hcz : zipParse (c.receive m).mi.msg c.ntok = .ok .nil :=
    (zipParse_receive c m _).trans (zipParse_room hz (Nat.zero_le _))
  obtain ⟨t, ht⟩ : ∃ t, c.tok[0]? = some t :=
    ⟨_, List.getElem?_eq_getElem hpos⟩
  have hblank : parseMessage (c.receive m).mi.msg (c.receive m).tok
      (c.receive m).ntok = _ := parseMessage_blank hroom hcz ht
  simp only [ht, Option.some.injEq, exists_eq_left']
  by_cases hobj : t.type = .object
  case neg =>
    rw [if_pos hobj] at hblank
    exact iff_of_true (answer_refused hblank) (Or.inl hobj)
  rw [if_neg (not_not_intro hobj)] at hblank
  refine Iff.trans ?_ (or_iff_right (not_not_intro hobj)).symm
  change _ = Option.map _ (jsmnGetValue (store c.mi.msg m) c.tok
    (ascii "method")) at hblank
  cases hg : jsmnGetValue (store c.mi.msg m) c.tok (ascii "method") with
  | none =>
      rw [hg, Option.map_none] at hblank
      refine iff_of_false ?_ (by simp)
      simp [Service.answer, Service.handleRequest, hblank]
  | some i =>
      rw [hg, Option.map_some] at hblank
      by_cases hi : i = -1
      · subst hi
        exact iff_of_true (answer_refused hblank) rfl
      · exact iff_of_false (answer_ne_refused hsv hblank hi) (by simpa using hi)

/-- A message is answered as on a fresh connection exactly when what the
requests before it left does not affect it. -/
theorem Service.Lawful.answer_iff (hsv : sv.Lawful) {old old' : MsgInfo}
    {peer : Sockaddr} (hc : Open (tcpAccept old peer) c) :
    sv.answer st (c.receive m)
        = sv.answer st ((Conn.fresh old' peer zeroTokens).receive m)
      ↔ Unaffected c m := by
  have hcroom : (c.receive m).ntok ≤ (c.receive m).tok.length :=
    Nat.le_trans hc.room (Nat.le_of_eq hc.tok.symm)
  have hparse := zipParse_receive c m
  have hfresh := zipParse_receive (Conn.fresh old' peer zeroTokens) m
  unfold Unaffected
  cases hz : zipParse m JSMN_NTOK with
  | error e =>
      obtain ⟨e', he'⟩ := zipParse_error hc.room hz
      rw [answer_refused (parseMessage_error hcroom ((hparse _).trans he')),
        answer_refused (parseMessage_error fresh_room ((hfresh _).trans hz))]
      exact iff_of_true rfl trivial
  | ok forest =>
      cases forest with
      | nil =>
          -- a blank message leaves the tokens, which a fresh connection has
          -- not used
          rw [answer_fresh_blank hz]
          exact answer_blank_iff hsv hcroom (by rw [hc.tok]; decide) hz
      | node a kids rest =>
          -- the connection has no more tokens than a fresh one, and they
          -- may be too few
          have hless := zipParse_less c.ntok hz
          split at hless
          · next hle =>
            rw [answer_congr hsv hcroom fresh_room hc.mi.host
              ((cstr_receive c m).trans (cstr_receive _ m).symm) (by simp)
              ((hparse _).trans hless) ((hfresh _).trans hz)]
            exact iff_of_true rfl (Or.inl hle)
          · next hle =>
            obtain ⟨e, he⟩ := hless
            have hspans := zipParse_spans hz
            have hpair : findPair m (ascii "method") kids
                = findPair ((Conn.fresh old' peer zeroTokens).receive m).mi.msg
                  (ascii "method") kids :=
              findPair_alike (.of_cstr (cstr_receive _ m).symm (by decide))
                hspans.2.1 hspans.2.2.le (List.mem_singleton_self _)
            rw [answer_refused (parseMessage_error hcroom
              ((hparse _).trans he)), eq_comm,
              answer_refused_iff hsv fresh_room ((hfresh _).trans hz),
              ← hpair]
            exact (or_iff_right hle).symm

end Psnet.Server
