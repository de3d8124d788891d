/-
The answers of a connection, read one after the other.

Whatever a router or a tracker is asked, it answers with a header and just
the body the header announces, or, to a broadcast, with nothing
(`router_tells`, `tracker_tells`). So the statements of `psnet_request`
that read an answer (`run_readMsg`) take one answer from the connection
and no byte of the next, and all answers are read in order
(`answers_read`). They are answers of less than `10 ^ 4` characters: the
size of a longer body is copied past the array of `parse_header`.

# Where a connection may end

The last answer may be an error before the connection is closed: it is
then read like the others, and it has no body. `Framed` is what an answer
looks like on the wire, and `Tells` what it tells the requester; each
command of each daemon answers with one (`answers_router`,
`answers_tracker`), whatever the tables hold.
-/
import Psnet.Server.Sessions
import Psnet.Tracker.Directory

namespace Psnet.Protocol

open Net Jsmn Parse DeltaList Client Server

-- ================================================================== the requester

/-- The locals an answer is read into: the header buffer and the token
array of `parse_header`. -/
structure Memory where
  hdr : List UInt8
  stack : Nat → JsmnTok
  size : hdr.length = HDR_MAX

/-- The statements of `psnet_request` that read an answer, up to a read
that fails or falls short: the status, the body and what is left to
receive. `none` is also a size that is copied past its array. -/
def readAnswer (mem : Memory) (r : Recvs) :
    Option ((PsnetStatus × Text) × Recvs) :=
  let (rv, hdr, r) := recvMsg r mem.hdr
  if rv ≤ 0 ∨ rv = HDR_MAX then none
  else do
    match ← parseHeaderCopying hdr mem.stack with
    | none => none
    | some (status, size) =>
        let (rv, body) := tcpReadBytes r size
        if rv ≠ size then none
        else return ((status, body), { r with bytes := r.bytes.drop size })

/-- A read that gets all it asks for. -/
private theorem tcpReadBytes_size {r : Recvs} {n : Nat}
    (h : (tcpReadBytes r n).1 = n) :
    n ≤ r.bytes.length := by
  by_contra hlt
  rw [tcpReadBytes, if_neg hlt, Recvs.atEnd] at h
  cases hfin : r.fin with
  | none =>
      rw [hfin, Option.elim_none] at h
      omega
  | some e =>
      have := Errno.rv_neg e
      rw [hfin, Option.elim_some] at h
      omega

/-- With its copy inside the array, `parse_header` is `parse_header`. -/
private theorem parseHeader_of_copying {msg : List UInt8}
    {stack : Nat → JsmnTok} {o : Option (PsnetStatus × Nat)}
    (h : parseHeaderCopying msg stack = some o) :
    Parse.parseHeader msg stack = some o := by
  obtain ⟨ts, -, h⟩ := Option.bind_eq_some_iff.mp h
  split at h
  · exact h
  · cases h

/-- `psnet_request` from its read on does just this: it returns the length
of the body, and the body with a NUL after it, if there is one. -/
def Requests (c : Call) (l : Locals) (a : PsnetStatus × Text) : Prop :=
  ∀ tr k, ∃ l', run tr c k 3 .readMsg l = some l' ∧ l'.rv = a.2.length
    ∧ l'.resp = if a.2 = [] then l.resp else .buffer (a.2 ++ [0])

/-- What is read is what `psnet_request` makes of it. -/
theorem run_readMsg {c : Call} {l : Locals}
    (hsize : l.hdr.length = HDR_MAX) {a : PsnetStatus × Text} {r : Recvs}
    (h : readAnswer ⟨l.hdr, c.stack, hsize⟩ l.recv = some (a, r))
    (hresp : c.hasResp = true) : Requests c l a := by
  intro tr k
  unfold readAnswer at h
  dsimp only at h
  split at h
  · cases h
  next hmsg =>
  obtain ⟨o, hcopying, h⟩ := Option.bind_eq_some_iff.mp h
  have hparse := parseHeader_of_copying hcopying
  rcases o with - | ⟨status, size⟩
  · cases h
  dsimp only at h
  split at h
  · cases h
  next hbody =>
  cases h
  rw [not_or] at hmsg
  -- the locals after the header and after its parsing
  let l₁ : Locals := { l with
    rv := (recvMsg l.recv l.hdr).1
    hdr := (recvMsg l.recv l.hdr).2.1
    recv := (recvMsg l.recv l.hdr).2.2 }
  let l₂ : Locals := { l₁ with
    header := some (l₁.hdr.take l₁.rv.toNat, size)
    rv := 0 }
  have h₁ : exec tr c k l .readMsg = some (.parseHeader, l₁) := by
    simp only [exec]
    rw [if_neg hmsg.1, if_neg hmsg.2]
  have h₂ : exec tr c k l₁ .parseHeader
      = some (if size = 0 then .cleanup else .readBytes, l₂) := by
    simp only [exec, l₁, hparse, bind, Option.bind_some, hresp,
      Bool.true_eq_false, or_false]
    rfl
  by_cases hzero : size = 0
  · subst hzero
    refine ⟨l₂, ?_, ?_, ?_⟩
    · simp only [run, h₁, h₂, bind, Option.bind_some, if_true]
    · simp [l₂, tcpReadBytes]
    · simp [l₂, l₁, tcpReadBytes]
  · have hrv : (tcpReadBytes l₁.recv size).1 = size := not_not.mp hbody
    have hsize := tcpReadBytes_size hrv
    have hlen : (tcpReadBytes l₁.recv size).2.length = size := by
      rw [tcpReadBytes, if_pos hsize]
      exact List.length_take_of_le hsize
    rw [if_neg hzero] at h₂
    have h₃ : exec tr c k l₂ .readBytes = some (.cleanup, { l₂ with
        rv := size
        resp := .buffer ((tcpReadBytes l₁.recv size).2 ++ [0]) }) := by
      simp only [exec, l₂]
      rw [hrv, if_neg (by omega), if_neg (by omega)]
    refine ⟨{ l₂ with
      rv := size
      resp := .buffer ((tcpReadBytes l₁.recv size).2 ++ [0]) }, ?_, ?_, ?_⟩
    · simp only [run, h₁, h₂, h₃, bind, Option.bind_some]
    · exact congrArg _ hlen.symm
    · rw [if_neg fun h => hzero (by rw [← hlen, h, List.length_nil])]

/-- So many answers, one after the other. -/
def readAnswers (mem : Nat → Memory) :
    Nat → Recvs → Option (List (PsnetStatus × Text) × Recvs)
  | 0, r => some ([], r)
  | n + 1, r => do
      let (a, r) ← readAnswer (mem n) r
      let (as, r) ← readAnswers mem n r
      return (a :: as, r)

/-- A header that announces just the body after it, in no more characters
than `parse_header` copies. -/
def Framed (wire : Text) (a : PsnetStatus × Text) : Prop :=
  ∃ hdr, wire = hdr ++ a.2 ∧ 0 < hdr.length ∧ ReadsAs hdr a.1 a.2.length
    ∧ HeaderInside hdr

/-- An answer is read, and not a byte more. -/
theorem readAnswer_framed {wire more : Text} {a : PsnetStatus × Text}
    {r : Recvs} (h : Framed wire a) (mem : Memory)
    (hr : r.bytes = wire ++ more) :
    readAnswer mem r = some (a, { r with bytes := more }) := by
  obtain ⟨hdr, rfl, hpos, hreads, hinside⟩ := h
  obtain ⟨hread, hshort, hparse⟩ :=
    hreads (a.2 ++ more) mem.hdr mem.stack mem.size
  rw [← parseHeaderCopying_inside hinside (cstr_store ..)] at hparse
  rw [← List.append_assoc, ← hr] at hread
  have hrv : ¬ ((hdr.length : Int) ≤ 0 ∨ (hdr.length : Int) = HDR_MAX) := by
    omega
  have hle : a.2.length ≤ (a.2 ++ more).length := by
    rw [List.length_append]
    omega
  simp only [readAnswer, Tracker.recvMsg_of_tcpReadMsg hread hpos, if_neg hrv,
    hparse, bind, Option.bind_some, tcpReadBytes, if_pos hle,
    List.take_left, List.drop_left, ne_eq, not_true_eq_false, if_false]
  rfl

/-- And so are all. -/
theorem readAnswers_framed {wires : List Text}
    {as : List (PsnetStatus × Text)} {more : Text}
    (h : List.Forall₂ Framed wires as) (mem : Nat → Memory) {r : Recvs}
    (hr : r.bytes = wires.flatten ++ more) :
    readAnswers mem as.length r = some (as, { r with bytes := more }) := by
  induction h generalizing r with
  | nil =>
      rw [List.flatten_nil, List.nil_append] at hr
      subst hr
      rfl
  | @cons wire a wires as hone _ ih =>
      rw [List.flatten_cons, List.append_assoc] at hr
      have hrest := @ih { r with bytes := wires.flatten ++ more } rfl
      simp only [List.length_cons, readAnswers,
        readAnswer_framed hone (mem as.length) hr, bind, Option.bind_some,
        hrest]
      rfl

-- ==================================================================== the answers

/-- A body that is not too long, and its header. -/
private theorem framed_okHeader {body : Text} (h : body.length < 10 ^ 4) :
    Framed (okHeader body.length ++ body) (.okay, body) := by
  refine ⟨_, rfl, ?_, readsAs_okHeader (by omega),
    headerInside_okHeader.mpr h⟩
  rw [length_okHeader]
  omega

/-- An error has no body. -/
private theorem framed_sendError {no : Int} {str : Text}
    (hno : -2 ^ 31 ≤ no ∧ no < 2 ^ 31) (hstr : ReasonText str) :
    Framed (sendError no str) (.error, []) := by
  have hplain := errorMembers_plain no hstr
  have hskip : (ascii "size").isPrefixOf (ascii "status") = false
      ∧ (ascii "size").isPrefixOf (ascii "code") = false
      ∧ (ascii "size").isPrefixOf (ascii "reason") = false := by decide
  refine ⟨_, (List.append_nil _).symm, ?_, readsAs_sendError hno hstr,
    headerInside_flat hplain (cstr_delimited (sendError_eq no str) hplain)
      (by simp [errorMembers]) (by simp [errorMembers, lookup_skip, hskip])⟩
  rw [length_sendError]
  omega

/-- Nor has what a ping is answered. -/
private theorem framed_sendOk : Framed sendOk (.okay, []) := by
  have hbody : isBody (ascii "status") = true
      ∧ isBody (ascii "okay") = true := by decide +kernel
  have hplain : PlainMembers [("status", .string (ascii "okay"))] :=
    .cons hbody.1 hbody.2 plainMembers_nil
  have htext : sendOk
      = flatText [("status", .string (ascii "okay"))] ++ delim := by
    decide +kernel
  have hcontrol : CR ∉ flatText [("status", .string (ascii "okay"))]
      ∧ 0 ∉ flatText [("status", .string (ascii "okay"))] := by
    decide +kernel
  have hskip : (ascii "size").isPrefixOf (ascii "status") = false := by
    decide
  have hlen : sendOk.length = 21 := by decide +kernel
  refine ⟨sendOk, (List.append_nil _).symm, by omega, ?_,
    headerInside_flat hplain (cstr_delimited htext hplain) (by decide)
      (by simp [lookup_skip, hskip])⟩
  exact readsAs_flat true htext hplain hcontrol.1 hcontrol.2
    (by unfold HDR_MAX; omega) (by decide) (lookup_self ..) (fun u => rfl)
    (Or.inr ⟨by simp [lookup_skip, hskip], rfl⟩)

/-- A list of nodes and its header. -/
private theorem framed_response {jlist : List ResponseNode}
    (hsizes : ∀ n ∈ jlist, n.len ≤ n.data.length)
    (h : (sendResponse (Net.makeResponseWithBody jlist)).length < 10 ^ 4) :
    Framed (sendResponse (Net.makeResponseWithBody jlist))
      (.okay, nodesText jlist) := by
  have hwire : sendResponse (Net.makeResponseWithBody jlist)
      = okHeader (nodesText jlist).length ++ nodesText jlist := by
    rw [length_nodesText hsizes]
    simp [sendResponse, Net.makeResponseWithBody, nodesText,
      ResponseNode.ofText]
  rw [hwire] at h ⊢
  rw [List.length_append] at h
  exact framed_okHeader (by omega)

/-- A node made from a text announces no more than it holds. -/
private theorem ofText_size (s : Text) :
    (ResponseNode.ofText s).len ≤ (ResponseNode.ofText s).data.length :=
  Nat.le_refl _

/-- The two brackets announce what they hold. -/
private theorem bracket_sizes : openNode.len ≤ openNode.data.length
    ∧ closeNode.len ≤ closeNode.data.length := by decide

/-- What `make_list` adds counts in full. -/
private theorem makeList_sizes (inet : Inet) (client : Sockaddr)
    {arg : MakeListArg} (h : ∀ n ∈ arg.list, n.len ≤ n.data.length) :
    ∀ n ∈ (makeList inet client arg).1.list, n.len ≤ n.data.length := by
  unfold makeList
  split
  · exact h
  split
  · exact h
  · intro n hn
    rcases List.mem_append.mp hn with hn | hn
    · exact h n hn
    · rw [List.mem_singleton.mp hn]
      exact ofText_size _

/-- The visit of the table adds only nodes that announce what they hold. -/
private theorem foreachLoop_sizes {inet : Inet}
    {h : Linked.Heap DeltaList.Addr (DeltaNode Sockaddr)} {k : Nat}
    {a : Option DeltaList.Addr} {arg arg' : MakeListArg}
    (hr : foreachLoop h (makeList inet) k a arg = some arg')
    (hsizes : ∀ n ∈ arg.list, n.len ≤ n.data.length) :
    ∀ n ∈ arg'.list, n.len ≤ n.data.length := by
  induction k generalizing a arg with
  | zero => cases hr
  | succ k ih =>
      cases a with
      | none =>
          cases hr
          exact hsizes
      | some a =>
          rw [foreachLoop] at hr
          split at hr
          · cases hr
          · next node _ =>
            have hnext := makeList_sizes inet node.data hsizes
            dsimp only at hr
            split at hr
            · cases hr
              exact hnext
            · exact ih hr hnext

/-- No node `clients_to_json` writes announces more than it holds. -/
private theorem clientsToJson_sizes {inet : Inet} {t : Table Sockaddr}
    {ign : Option Sockaddr} {num : Text} {rc : Int} {jlist : List ResponseNode}
    (h : clientsToJson inet t [] ign num = some (rc, jlist)) :
    ∀ n ∈ jlist, n.len ≤ n.data.length := by
  unfold clientsToJson at h
  dsimp only at h
  split at h
  · cases h
    exact fun n hn => absurd hn List.not_mem_nil
  · obtain ⟨arg, harg, heq⟩ := Option.bind_eq_some_iff.mp h
    cases heq
    have hlist := foreachLoop_sizes harg fun n hn => by
      rw [List.nil_append, List.mem_singleton] at hn
      exact hn ▸ bracket_sizes.1
    intro n hn
    rcases List.mem_append.mp hn with hn | hn
    · exact Tracker.trimLast_sizes hlist n hn
    · exact List.mem_singleton.mp hn ▸ bracket_sizes.2

/-- No node `routers_to_json` writes does so either. -/
private theorem routersToJson_sizes {inet : Inet} {m : Mem}
    {jlist : List ResponseNode}
    (h : Router.routersToJson inet m [] = some jlist) :
    ∀ n ∈ jlist, n.len ≤ n.data.length := by
  obtain ⟨its, -, h⟩ := Option.bind_eq_some_iff.mp h
  obtain ⟨sas, -, heq⟩ := Option.bind_eq_some_iff.mp h
  cases heq
  intro n hn
  rcases List.mem_append.mp hn with hn | hn
  · refine Tracker.trimLast_sizes (fun n hn => ?_) n hn
    rw [List.nil_append, List.mem_cons] at hn
    rcases hn with rfl | hn
    · exact bracket_sizes.1
    · obtain ⟨sa, -, rfl⟩ := List.mem_map.mp hn
      exact ofText_size _
  · exact List.mem_singleton.mp hn ▸ bracket_sizes.2

-- =================================================================== the services

/-- An answer that a requester can read, if it is not too long. -/
def Answers (wire : Text) : Prop :=
  wire.length < 10 ^ 4 → ∃ a, Framed wire a ∧ (a.1 = .error → a.2 = [])

/-- An answer that is an error. -/
def Refuses (wire : Text) : Prop := Framed wire (.error, [])

/-- A refusal is an answer. -/
theorem Refuses.answers {wire : Text} (h : Refuses wire) : Answers wire :=
  fun _ => ⟨_, h, fun _ => rfl⟩

/-- A header and the body it announces are an answer. -/
private theorem answers_okHeader (body : Text) :
    Answers (okHeader body.length ++ body) := by
  intro h
  rw [List.length_append] at h
  exact ⟨_, framed_okHeader (by omega), nofun⟩

/-- Every error text of the router is a refusal. -/
private theorem refuses_nodeError (e : Router.InputError) :
    Refuses (Router.nodeError e) := by
  refine framed_sendError ?_ ?_
  · cases e <;> decide
  · unfold ReasonText
    cases e <;> decide +kernel

/-- Every error text of the tracker is a refusal. -/
private theorem refuses_dirError (e : Tracker.InputError) :
    Refuses (Tracker.dirError e) := by
  refine framed_sendError ?_ ?_
  · cases e <;> decide
  · unfold ReasonText
    cases e <;> decide +kernel

/-- Nodes behind the header made for them are an answer. -/
private theorem answers_response {jlist : List ResponseNode}
    (hsizes : ∀ n ∈ jlist, n.len ≤ n.data.length) :
    Answers (sendResponse (Net.makeResponseWithBody jlist)) :=
  fun h => ⟨_, framed_response hsizes h, nofun⟩

/-- What `send_clients` writes is an answer. -/
private theorem answers_sendClients {inet : Inet} {t : Table Sockaddr}
    {ign : Option Sockaddr} {num wire : Text}
    (h : Tracker.sendClients inet t ign num = some wire) :
    Answers wire := by
  obtain ⟨⟨rc, jlist⟩, hjson, h⟩ := Option.bind_eq_some_iff.mp h
  dsimp only at h
  split at h
  · cases h
    exact (refuses_dirError _).answers
  · cases h
    exact answers_response (clientsToJson_sizes hjson)

/-- What the router's `process_discover` writes is an answer. -/
private theorem answers_routerDiscover {inet : Inet} {st : Router.RouterState}
    {mi : MsgInfo} {tok : List JsmnTok} {wire : Text}
    (h : Router.processDiscover inet st mi tok = some wire) :
    Answers wire := by
  obtain ⟨num, -, h⟩ := Option.bind_eq_some_iff.mp h
  split at h
  · cases h
    exact (refuses_nodeError _).answers
  obtain ⟨t, -, h⟩ := Option.bind_eq_some_iff.mp h
  obtain ⟨s, -, h⟩ := Option.bind_eq_some_iff.mp h
  split at h
  · cases h
    exact (refuses_nodeError _).answers
  obtain ⟨jlist, hjson, heq⟩ := Option.bind_eq_some_iff.mp h
  cases heq
  exact answers_response (routersToJson_sizes hjson)

/-- The handlers of a router. -/
theorem answers_router {inet : Inet} {st st' : Router.RouterState}
    {mi mi' : MsgInfo} {tok : List JsmnTok} {m : Router.Method} {wire : Text}
    {sent : Option (List UdpSend)} (hm : m ≠ .broadcast)
    (h : Router.process inet st mi tok m = some (st', mi', wire, sent)) :
    Answers wire := by
  cases m with
  | broadcast => exact absurd rfl hm
  | ip =>
      cases h
      exact answers_okHeader _
  | info =>
      cases h
      exact answers_okHeader _
  | ping =>
      cases h
      exact fun _ => ⟨_, framed_sendOk, nofun⟩
  | discover =>
      obtain ⟨text, htext, heq⟩ := Option.bind_eq_some_iff.mp h
      cases heq
      exact answers_routerDiscover htext

/-- What `process_list` writes is an answer. -/
private theorem answers_processList {inet : Inet} {t : Table Sockaddr}
    {mi mi' : MsgInfo} {tok : List JsmnTok} {wire : Text}
    (h : Tracker.processList inet t mi tok = some (mi', wire)) :
    Answers wire := by
  obtain ⟨num, -, h⟩ := Option.bind_eq_some_iff.mp h
  split at h
  · cases h
    exact (refuses_dirError _).answers
  obtain ⟨tnum, -, h⟩ := Option.bind_eq_some_iff.mp h
  obtain ⟨msg, -, h⟩ := Option.bind_eq_some_iff.mp h
  obtain ⟨s, -, h⟩ := Option.bind_eq_some_iff.mp h
  obtain ⟨sent, hsent, heq⟩ := Option.bind_eq_some_iff.mp h
  cases heq
  exact answers_sendClients hsent

/-- What the tracker's `process_discover` writes is an answer. -/
private theorem answers_processDiscover {inet : Inet} {t : Table Sockaddr}
    {mi mi' : MsgInfo} {tok : List JsmnTok} {wire : Text}
    (h : Tracker.processDiscover inet t mi tok = some (mi', wire)) :
    Answers wire := by
  obtain ⟨num, -, h⟩ := Option.bind_eq_some_iff.mp h
  split at h
  · cases h
    exact (refuses_dirError _).answers
  obtain ⟨tnum, -, h⟩ := Option.bind_eq_some_iff.mp h
  obtain ⟨msg, -, h⟩ := Option.bind_eq_some_iff.mp h
  obtain ⟨port, -, h⟩ := Option.bind_eq_some_iff.mp h
  split at h
  · cases h
    exact (refuses_dirError _).answers
  obtain ⟨tport, -, h⟩ := Option.bind_eq_some_iff.mp h
  obtain ⟨msg', -, h⟩ := Option.bind_eq_some_iff.mp h
  obtain ⟨s, -, h⟩ := Option.bind_eq_some_iff.mp h
  split at h
  · cases h
    exact (refuses_dirError _).answers
  · obtain ⟨s', -, h⟩ := Option.bind_eq_some_iff.mp h
    obtain ⟨sent, hsent, heq⟩ := Option.bind_eq_some_iff.mp h
    cases heq
    exact answers_sendClients hsent

/-- The handlers of a tracker. -/
theorem answers_tracker {inet : Inet} {t t' : Table Sockaddr}
    {mi mi' : MsgInfo} {tok : List JsmnTok} {m : Tracker.Method} {wire : Text}
    {sent : Option (List UdpSend)}
    (h : Tracker.process inet t mi tok m = some (t', mi', wire, sent)) :
    Answers wire := by
  cases m with
  | list =>
      obtain ⟨⟨mi₁, text⟩, hlist, heq⟩ := Option.bind_eq_some_iff.mp h
      cases heq
      exact answers_processList hlist
  | discover =>
      obtain ⟨⟨mi₁, text⟩, hdisc, heq⟩ := Option.bind_eq_some_iff.mp h
      cases heq
      exact answers_processDiscover hdisc
  | info =>
      cases h
      exact answers_okHeader _

-- =================================================================== the dispatch

section

variable {σ μ : Type} {sv : Service σ μ} {st st' : σ} {c c' : Conn}
  {r : Server.Reply μ}

/-- A reply is one of the two errors of the dispatch, and the last, or a
handler's. -/
private theorem handleRequest_reply
    (h : sv.handleRequest st c = some (st', c', r)) :
    r.method = none ∧ (r.wire = sv.noMethod ∨ r.wire = sv.badMethod)
      ∨ ∃ m mi tok mi' wire sent, r.method = some m ∧ r.wire = wire
        ∧ r.keep = true
        ∧ sv.process st mi tok m = some (st', mi', wire, sent) := by
  simp only [Service.handleRequest, bind, Option.bind_eq_some_iff] at h
  obtain ⟨⟨method, tok, ntok⟩, -, h⟩ := h
  split at h
  · cases h
    exact Or.inl ⟨rfl, Or.inl rfl⟩
  · simp only [Option.bind_eq_some_iff] at h
    obtain ⟨t, -, m, -, h⟩ := h
    cases m with
    | none =>
        cases h
        exact Or.inl ⟨rfl, Or.inr rfl⟩
    | some m =>
        simp only [Option.bind_eq_some_iff] at h
        obtain ⟨⟨st₁, mi', wire, sent⟩, hp, h⟩ := h
        cases h
        exact Or.inr ⟨m, c.mi, tok, mi', wire, sent, rfl, rfl, rfl, hp⟩

/-- `r` tells the requester what became of its request: a header with its
body, an error where the connection is closed after it. -/
def Tells (r : Server.Reply μ) (a : PsnetStatus × Text) : Prop :=
  Framed r.wire a ∧ (a.1 = .error → a.2 = []) ∧ (r.keep = false → a.1 = .error)

/-- A refusal tells the status, and no body. -/
private theorem tells_refused (h : Refuses r.wire) : Tells r (.error, []) :=
  ⟨h, fun _ => rfl, fun _ => rfl⟩

/-- An answer on a connection that stays open tells its status and its body,
if the header does not overrun the reader's array. -/
private theorem tells_answered (h : Answers r.wire)
    (hlen : r.wire.length < 10 ^ 4)
    (hkeep : r.keep = true) : ∃ a, Tells r a := by
  obtain ⟨a, hframed, herror⟩ := h hlen
  exact ⟨a, hframed, herror, fun hclosed => by rw [hkeep] at hclosed; cases hclosed⟩

end

/-- The router answers every request but a broadcast. -/
theorem router_tells {inet : Inet} {st st' : Router.RouterState}
    {c c' : Conn} {r : Server.Reply Router.Method}
    (h : (Router.service inet).handleRequest st c = some (st', c', r))
    (hlen : r.wire.length < 10 ^ 4) :
    if r.method = some .broadcast then r.wire = [] else ∃ a, Tells r a := by
  rcases handleRequest_reply h with
    ⟨hnone, hw⟩ | ⟨m, mi, tok, mi', wire, sent, hm, hw, hkeep, hp⟩
  · rw [hnone, if_neg nofun]
    rcases hw with hw | hw
    · exact ⟨_, tells_refused (hw ▸ refuses_nodeError _)⟩
    · exact ⟨_, tells_refused (hw ▸ refuses_nodeError _)⟩
  · by_cases hb : m = .broadcast
    · subst hb
      rw [hm, if_pos rfl, hw]
      obtain ⟨q, -, heq⟩ := Option.bind_eq_some_iff.mp hp
      cases heq
      rfl
    · rw [hm, if_neg fun h => hb (Option.some.inj h)]
      exact tells_answered (hw ▸ answers_router hb hp) hlen hkeep

/-- The tracker answers every request. -/
theorem tracker_tells {inet : Inet} {t t' : Table Sockaddr} {c c' : Conn}
    {r : Server.Reply Tracker.Method}
    (h : (Tracker.service inet).handleRequest t c = some (t', c', r))
    (hlen : r.wire.length < 10 ^ 4) : ∃ a, Tells r a := by
  rcases handleRequest_reply h with
    ⟨-, hw⟩ | ⟨m, mi, tok, mi', wire, sent, -, hw, hkeep, hp⟩
  · rcases hw with hw | hw
    · exact ⟨_, tells_refused (hw ▸ refuses_dirError _)⟩
    · exact ⟨_, tells_refused (hw ▸ refuses_dirError _)⟩
  · exact tells_answered (hw ▸ answers_tracker hp) hlen hkeep

/-- A reply that some state and connection give to some message. -/
def GivenBy {σ μ : Type} (sv : Service σ μ) (r : Server.Reply μ) : Prop :=
  ∃ st st' c c', sv.handleRequest st c = some (st', c', r)

/-- The replies are read, one after the other, for what they tell. -/
def ReadInOrder {μ : Type} (rs : List (Server.Reply μ)) : Prop :=
  ∃ as, List.Forall₂ Tells rs as ∧ ∀ mem more fin,
    readAnswers mem as.length ⟨(rs.map (·.wire)).flatten ++ more, fin⟩
      = some (as, ⟨more, fin⟩)

/-- Replies that tell something one by one are read one by one. -/
private theorem readInOrder {μ : Type} {rs : List (Server.Reply μ)}
    (h : ∀ r ∈ rs, ∃ a, Tells r a) : ReadInOrder rs := by
  obtain ⟨as, has⟩ := forall₂_of_accepted h
  refine ⟨as, has, fun mem more fin => ?_⟩
  have hframed : List.Forall₂ Framed (rs.map (·.wire)) as :=
    List.forall₂_map_left_iff.mpr (has.imp fun _ _ ha => ha.1)
  exact readAnswers_framed hframed mem rfl

/-- What a connection is answered, the router's broadcasts apart, is read
in order; and what is read is what `psnet_request` makes of it. -/
theorem answers_read (inet : Inet) :
    (∀ rs : List (Server.Reply Router.Method),
      (∀ r ∈ rs, GivenBy (Router.service inet) r ∧ r.wire.length < 10 ^ 4) →
      (rs.map (·.wire)).flatten
          = ((rs.filter (·.method ≠ some .broadcast)).map (·.wire)).flatten
        ∧ ReadInOrder (rs.filter (·.method ≠ some .broadcast)))
    ∧ (∀ rs : List (Server.Reply Tracker.Method),
      (∀ r ∈ rs, GivenBy (Tracker.service inet) r ∧ r.wire.length < 10 ^ 4) →
      ReadInOrder rs)
    ∧ ∀ (c : Call) (l : Locals) (hsize : l.hdr.length = HDR_MAX) a r,
      readAnswer ⟨l.hdr, c.stack, hsize⟩ l.recv = some (a, r) →
      c.hasResp = true → Requests c l a := by
  refine ⟨fun rs h => ⟨?_, readInOrder fun r hr => ?_⟩,
    fun rs h => readInOrder fun r hr => ?_,
    fun c l hsize a r => run_readMsg hsize⟩
  · induction rs with
    | nil => rfl
    | cons r rs ih =>
        rw [List.forall_mem_cons] at h
        obtain ⟨⟨⟨st, st', c, c', hreply⟩, hlen⟩, hrest⟩ := h
        have htells := router_tells hreply hlen
        rw [List.map_cons, List.flatten_cons, ih hrest]
        by_cases hb : r.method = some .broadcast
        · rw [if_pos hb] at htells
          rw [htells, List.filter_cons_of_neg (by simpa using hb)]
          rfl
        · rw [List.filter_cons_of_pos (by simpa using hb)]
          rfl
  · obtain ⟨hmem, hb⟩ := List.mem_filter.mp hr
    obtain ⟨⟨st, st', c, c', hreply⟩, hlen⟩ := h r hmem
    have htells := router_tells hreply hlen
    rwa [if_neg (by simpa using hb)] at htells
  · obtain ⟨⟨st, st', c, c', hreply⟩, hlen⟩ := h r hr
    exact tracker_tells hreply hlen

/-- What the router answers to `text` on a connection just accepted. -/
private theorem given_accepted (text : Text) (m : Option Router.Method)
    (n : Nat)
    (h : ((Router.service Router.noInet).handleRequest .boot
      (accepted.receive text)).map
        (fun r => (r.2.2.method, r.2.2.wire.length)) = some (m, n)) :
    ∃ r, GivenBy (Router.service Router.noInet) r ∧ r.method = m
      ∧ r.wire.length = n := by
  obtain ⟨⟨st, c, r⟩, hreply, hr⟩ := Option.map_eq_some_iff.mp h
  rw [Prod.mk.injEq] at hr
  exact ⟨r, ⟨_, _, _, _, hreply⟩, hr⟩

/-- A ping, a broadcast and a method there is not: the first and the last
are answered. -/
theorem answers_read_mixed :
    ∃ r₁ r₂ r₃ : Server.Reply Router.Method,
      (∀ r ∈ [r₁, r₂, r₃], GivenBy (Router.service Router.noInet) r)
      ∧ [r₁, r₂, r₃].map (·.method) = [some .ping, some .broadcast, none]
      ∧ ([r₁, r₂, r₃].map (·.wire)).flatten = r₁.wire ++ r₃.wire
      ∧ ReadInOrder [r₁, r₃] := by
  obtain ⟨r₁, h₁, hm₁, hn₁⟩ := given_accepted pingText (some .ping) 21
    (by decide +kernel)
  obtain ⟨r₂, h₂, hm₂, hn₂⟩ := given_accepted (Router.broadcastText "a")
    (some .broadcast) 0 (by decide +kernel)
  obtain ⟨r₃, h₃, hm₃, hn₃⟩ := given_accepted
    (ascii "\x7b\"method\":\"list\"\x7d\r\n\r\n") none 62
    (by decide +kernel)
  have hgiven : ∀ r ∈ [r₁, r₂, r₃],
      GivenBy (Router.service Router.noInet) r := by
    simp [h₁, h₂, h₃]
  have hshort : ∀ r ∈ [r₁, r₂, r₃], r.wire.length < 10 ^ 4 := by
    simp [hn₁, hn₂, hn₃]
  obtain ⟨hwire, hread⟩ := (answers_read Router.noInet).1 [r₁, r₂, r₃]
    fun r hr => ⟨hgiven r hr, hshort r hr⟩
  have hfilter : [r₁, r₂, r₃].filter (·.method ≠ some .broadcast)
      = [r₁, r₃] := by
    simp [hm₁, hm₂, hm₃]
  rw [hfilter] at hwire hread
  exact ⟨r₁, r₂, r₃, hgiven, by simp [hm₁, hm₂, hm₃],
    hwire.trans (by simp), hread⟩

end Psnet.Protocol
