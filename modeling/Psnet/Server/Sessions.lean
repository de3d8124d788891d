/-
Requests on one connection, for the two servers there are.

The two commands of a tracker and a router differ, the loop around them
does not: what is said of `handle_connection` is said of any service with
lawful handlers, and then of these two (`requests_independent`). A message
that fills the buffer is handled without a terminator
(`messages_terminated`).
-/
import Psnet.Net.Delimiter
import Psnet.Router.Forward
import Psnet.Server.Independence
import Psnet.Tracker.Connection

namespace Psnet.Server

open Net Jsmn Parse DeltaList Client

/-- On every connection the router or the tracker serves, whatever was
asked on it before, the next message is answered as if it were the first
exactly when what the array and the buffer still hold does not affect
it. -/
theorem requests_independent {inet : Inet} {old old' : MsgInfo}
    {peer : Sockaddr} {c : Conn} (m : List UInt8) :
    ((Router.service inet).Serves old peer c →
      ∀ st : Router.RouterState,
        (Router.service inet).answer st (c.receive m)
            = (Router.service inet).answer st
                ((Conn.fresh old' peer zeroTokens).receive m)
          ↔ Unaffected c m)
    ∧ ((Tracker.service inet).Serves old peer c →
      ∀ st : Table Sockaddr,
        (Tracker.service inet).answer st (c.receive m)
            = (Tracker.service inet).answer st
                ((Conn.fresh old' peer zeroTokens).receive m)
          ↔ Unaffected c m) := by
  constructor
  · intro hc st
    have hlaw := Router.service_lawful inet
    exact hlaw.answer_iff (hc.isOpen hlaw)
  · intro hc st
    have hlaw := Tracker.service_lawful inet
    exact hlaw.answer_iff (hc.isOpen hlaw)

/-- What `parse_message` relies on: a NUL in the buffer, and before it
nothing but what was received. -/
def Terminated (buf received : List UInt8) : Prop :=
  0 ∈ buf.take MSG_MAX ∧ ∃ rest, received = cstr buf ++ rest

/-- A message read into a buffer of `MSG_MAX` bytes. -/
private theorem terminated_iff {s rest buf buf' : List UInt8} {n : Nat}
    (hbuf : buf.length = MSG_MAX)
    (hread : tcpReadMsg s buf = (n, buf', rest)) (hn : 0 < n) :
    Terminated buf' (s.take n)
      ↔ (∃ k < MSG_MAX, EndsAt s k ∧ EvenBefore s k)
        ∨ 0 ∈ s.take MSG_MAX := by
  obtain ⟨hlen, hle, rfl⟩ := tcpReadMsg_pos hread hn
  have hcount := congrArg Prod.fst hread
  have hloop : readLoop buf.length 0 s = some n := by
    unfold tcpReadMsg at hcount
    split at hcount
    · exact absurd hcount (Nat.ne_of_lt hn)
    · next k hk => exact hk.trans (congrArg some hcount)
  rw [← readLoop_stops, ← hbuf, hloop]
  have hreceived : ∃ rest, s.take n = cstr (store buf (s.take n)) ++ rest := by
    rw [cstr_store]
    exact ⟨_, (List.takeWhile_append_dropWhile).symm⟩
  simp only [Option.some.injEq, exists_eq_right', Terminated, hreceived,
    and_true, ← hbuf]
  rcases Nat.lt_or_ge n buf.length with hlt | hge
  · refine iff_of_true ?_ (Or.inl hlt)
    rw [List.take_of_length_le (Nat.le_of_eq (length_store (by omega))),
      store_of_lt (by omega)]
    simp
  · have hfull : store buf (s.take n) = s.take buf.length := by
      rw [store, if_neg (by omega), show n = buf.length by omega]
    rw [hfull, List.take_take, Nat.min_self, or_iff_right (by omega)]

/-- Each time the router or the tracker calls `parse_message` on a
connection, the buffer holds a C string of received bytes exactly when a
delimiter with an even number of CRs before it ends before the last byte
of a full buffer, or the sender sent a NUL. -/
theorem messages_terminated {inet : Inet} {old : MsgInfo}
    {peer : Sockaddr} {c : Conn} {s rest buf : List UInt8} {n : Nat}
    (hold : old.msg.length = MSG_MAX)
    (hserves : (Router.service inet).Serves old peer c
      ∨ (Tracker.service inet).Serves old peer c)
    (hread : tcpReadMsg s c.mi.msg = (n, buf, rest)) (hn : 0 < n) :
    Terminated buf (s.take n)
      ↔ (∃ k < MSG_MAX, EndsAt s k ∧ EvenBefore s k)
        ∨ 0 ∈ s.take MSG_MAX := by
  have hopen : Open (tcpAccept old peer) c := by
    rcases hserves with h | h
    · exact h.isOpen (Router.service_lawful inet)
    · exact h.isOpen (Tracker.service_lawful inet)
  exact terminated_iff (hopen.mi.size.trans hold) hread hn

-- ============================================================== two requests

def pingText : Text := ascii "\x7b\"method\":\"ping\"\x7d\r\n\r\n"

def listText : Text := ascii "\x7b\"method\":\"list\",\"num\":1\x7d\r\n\r\n"

def discoverText : Text :=
  ascii "\x7b\"method\":\"discover\",\"num\":1\x7d\r\n\r\n"

/-- A connection on which nothing was asked yet. -/
def accepted : Conn :=
  .fresh Router.zeroInfo (host6 9) zeroTokens

/-- The connection after a message that was answered. -/
private theorem serves_second {σ μ : Type} (sv : Service σ μ) (st : σ)
    (n : Nat) (m : Text) (hread : tcpReadMsg m accepted.mi.msg
      = (m.length, store accepted.mi.msg m, [])) (hm : 0 < m.length)
    (hrun : (sv.handleRequest st (accepted.receive m)).map
      (fun r => (r.2.2.keep, r.2.1.ntok)) = some (true, n)) :
    ∃ c, sv.Serves Router.zeroInfo (host6 9) c ∧ c.ntok = n := by
  obtain ⟨⟨st', c, r⟩, hhandled, hr⟩ := Option.map_eq_some_iff.mp hrun
  exact ⟨c, .request (.accept _ List.length_replicate) hread hm hhandled
    (congrArg Prod.fst hr), congrArg Prod.snd hr⟩

/-- A second request with as many tokens as the first is not affected,
on either server. -/
theorem requests_independent_twice :
    (∃ c : Conn, c.ntok = 3 ∧ (Router.service Router.noInet).answer .boot
        (c.receive pingText)
      = (Router.service Router.noInet).answer .boot
          (accepted.receive pingText))
    ∧ ∃ c : Conn, c.ntok = 5 ∧ (Tracker.service Router.noInet).answer Table.empty
        (c.receive listText)
      = (Tracker.service Router.noInet).answer Table.empty
          (accepted.receive listText) := by
  have hcount : ∀ {m : Text} {n : Nat}, (zipParse m JSMN_NTOK).toOption.map
      Forest.count = some (n + 1) → ∀ c : Conn, c.ntok = n + 1 →
      Unaffected c m := by
    intro m n h c hc
    cases hz : zipParse m JSMN_NTOK with
    | error e => simp [hz, Except.toOption] at h
    | ok f =>
        simp only [hz, Except.toOption, Option.map_some,
          Option.some.injEq] at h
        exact unaffected_of_room hz (by omega) (by omega)
  obtain ⟨c, hc, hn⟩ := serves_second (Router.service Router.noInet) .boot
    3 pingText (by decide +kernel) (by decide) (by decide +kernel)
  obtain ⟨d, hd, hk⟩ := serves_second (Tracker.service Router.noInet)
    Table.empty 5 listText (by decide +kernel) (by decide)
    (by decide +kernel)
  have hping : Unaffected c pingText :=
    hcount (by decide +kernel) c hn
  have hlist : Unaffected d listText :=
    hcount (by decide +kernel) d hk
  exact ⟨⟨c, hn, ((requests_independent pingText).1 hc _).mpr hping⟩,
    ⟨d, hk, ((requests_independent listText).2 hd _).mpr hlist⟩⟩

/-- A router that has answered a ping refuses to list its routers: the
array has room for three tokens now, and the request has five. -/
theorem long_after_short :
    ∃ c, (Router.service Router.noInet).Serves Router.zeroInfo
        (host6 9) c
      ∧ (Router.service Router.noInet).answer .boot
          (c.receive discoverText)
        ≠ (Router.service Router.noInet).answer .boot
            (accepted.receive discoverText) := by
  obtain ⟨c, hc, hn⟩ := serves_second (Router.service Router.noInet) .boot
    3 pingText (by decide +kernel) (by decide) (by decide +kernel)
  have hlaw := Router.service_lawful Router.noInet
  refine ⟨c, hc, fun heq => ?_⟩
  have hun : Unaffected c discoverText :=
    (hlaw.answer_iff (hc.isOpen hlaw)).mp heq
  have hcount : (zipParse discoverText JSMN_NTOK).toOption.map (fun f =>
      match f with
      | .node a kids rest => decide ((Forest.node a kids rest).count ≤ 3
          ∨ a.type ≠ .object
          ∨ (findPair discoverText (ascii "method") kids).isNone)
      | .nil => true) = some false := by decide +kernel
  unfold Unaffected at hun
  rw [hn] at hun
  revert hun hcount
  cases zipParse discoverText JSMN_NTOK with
  | error e => exact fun _ h => nomatch h
  | ok f =>
      cases f with
      | nil => simp [Except.toOption]
      | node a kids rest =>
          simp only [Except.toOption, Option.map_some, Option.some.injEq,
            decide_eq_false_iff_not, Option.isNone_iff_eq_none]
          exact fun h h' => h' h

-- ========================================================= full and empty buffers

/-- A ping is terminated. -/
theorem messages_terminated_ping :
    Terminated (store accepted.mi.msg pingText) (pingText.take 21) := by
  have hread : tcpReadMsg pingText accepted.mi.msg
      = (21, store accepted.mi.msg pingText, []) := by decide +kernel
  have hserves : (Router.service Router.noInet).Serves Router.zeroInfo
      (host6 9) accepted := .accept _ List.length_replicate
  exact (messages_terminated List.length_replicate (Or.inl hserves) hread
    (by decide)).mpr (Or.inl ⟨21, by decide, by decide⟩)

/-- A full buffer without a NUL is handed to the parser. -/
theorem full_buffer_unterminated :
    ∃ s n buf rest, (Router.service Router.noInet).Serves Router.zeroInfo
        (host6 9) accepted
      ∧ tcpReadMsg s accepted.mi.msg = (n, buf, rest) ∧ 0 < n
      ∧ ¬ Terminated buf (s.take n) := by
  have hread : tcpReadMsg (List.replicate MSG_MAX 97) accepted.mi.msg
      = (MSG_MAX, List.replicate MSG_MAX 97, []) := by decide +kernel
  refine ⟨_, _, _, _, .accept _ List.length_replicate, hread, by decide,
    fun ⟨hnul, _⟩ => ?_⟩
  have := List.eq_of_mem_replicate (List.mem_of_mem_take hnul)
  cases this

end Psnet.Server
