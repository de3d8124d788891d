/-
Responses (common/protocol.c): how one is put together, sent, and read
by the client.

A response is a circular list of nodes. `make_response_with_body` counts
the bytes of the body, links a header behind the head and splices the
body in; `psnet_send_response` walks the list and sends node after node,
in as many pieces as the network likes. What comes out is a function of
the nodes alone (`response_framing`).

The nodes are named by addresses of any type. `none` is a use of a dead
address or a loop that does not end within `k` steps.

# What has to hold before

`Ready` says that the head and the nodes of the body are two rings in the
heap with no node in common and that the header's is not allocated yet. The
rings are those of `Lib.Ring`, and the stores those of `Lib.Stores`: the
header is linked by `Ring.link`, the body by `Ring.spliced`. The sending
side assumes of the network only that a `send` that is asked for bytes
takes one at least (`Sends.Accepts`); how many it takes is up to it.
-/
import Mathlib.Algebra.Order.BigOperators.Group.List
import Psnet.Lib.Stores
import Psnet.Net.Transport
import Psnet.Protocol.Builders
import Psnet.Protocol.Request

namespace Psnet.Protocol

open Net Jsmn Parse Client Linked

variable {A : Type}

/-- A `struct response_node`; a list head has links only. -/
structure RspNode (A : Type) where
  next : A
  prev : A
  node : Option ResponseNode

/-- The links of a response node. -/
def rspFields (A : Type) : Fields A (RspNode A) (Option ResponseNode) where
  next := RspNode.next
  prev := RspNode.prev
  data := RspNode.node
  setNext a n := { n with next := a }
  setPrev a n := { n with prev := a }
  next_setNext _ _ := rfl
  prev_setNext _ _ := rfl
  data_setNext _ _ := rfl
  next_setPrev _ _ := rfl
  prev_setPrev _ _ := rfl
  data_setPrev _ _ := rfl

/-- The text and the length at an address. -/
def nodeAt (h : Heap A (RspNode A)) (a : A) : Option ResponseNode :=
  (h a).bind RspNode.node

variable [DecidableEq A]

/-- The nodes `list_for_each` meets. -/
def listForEach (k : Nat) (h : Heap A (RspNode A)) (head : A) :
    Option (List A) := do
  let n ← h head
  cycle RspNode.next h head k n.next

/-- `list_add_tail`. -/
def listAddTail (h : Heap A (RspNode A)) (x head : A) :
    Option (Heap A (RspNode A)) := do
  let n ← h head
  linkBetween (rspFields A) h x n.prev head

/-- `list_splice_tail`. -/
def listSpliceTail (h : Heap A (RspNode A)) (list head : A) :
    Option (Heap A (RspNode A)) := do
  let l ← h list
  if l.next = list then return h
  else do
    let n ← h head
    spliceBetween (rspFields A) h l.next l.prev n.prev head

/-- `make_response_with_body`; `hdr` is the address `malloc` returns.
The links of the new node are written before they are read, and the
count is a `size_t`. -/
def makeResponseWithBody (k : Nat) (h : Heap A (RspNode A))
    (head body hdr : A) : Option (Heap A (RspNode A)) := do
  let pos ← listForEach k h body
  let nodes ← pos.mapM (nodeAt h)
  let len := (nodes.map ResponseNode.len).sum % 2 ^ 64
  let text := vsnprintf 100 (okHeader len)
  let h := Function.update h hdr
    (some ⟨hdr, hdr, some ⟨text.msg, text.len⟩⟩)
  let h ← listAddTail h hdr head
  listSpliceTail h body head

/-- The loop of `psnet_send_response` from `pos` on. -/
def sendNodes (send : Sends) (k : Nat) (h : Heap A (RspNode A))
    (head : A) : Nat → A → Sent → Option (Int × Sent)
  | 0, _, _ => none
  | m + 1, pos, out =>
      if pos = head then some (0, out)
      else do
        let n ← h pos
        let node ← n.node
        if node.data.length < node.len then none
        else do
          let (rv, out) ← tcpSendBytes send k (node.data.take node.len) out
          if rv < 0 then return (rv, out)
          else sendNodes send k h head m n.next out

/-- `psnet_send_response`: the return value and what was sent. -/
def psnetSendResponse (send : Sends) (k : Nat) (h : Heap A (RspNode A))
    (head : A) (out : Sent) : Option (Int × Sent) := do
  let n ← h head
  sendNodes send k h head k n.next out

/-- `psnet_send_error`: the text is printed to an array of
`42 + 3 + PSNET_ERRSTRLEN` bytes. -/
def psnetSendError (send : Sends) (k : Nat) (no : Int) (str : Text)
    (out : Sent) : Option (Int × Sent) :=
  tcpSendBytes send k (sendError no str) out

def PSNET_ERRSTRLEN : Nat := 100

-- ==================================================================== sending

omit [DecidableEq A] in
/-- Where every call accepts something, all is sent. -/
private theorem sendLoop_accepts {send : Sends} (hsend : send.Accepts)
    {k : Nat} (buf : List UInt8) (out : Sent) (hk : buf.length < k) :
    ∃ calls, sendLoop send k buf out
      = some (none, ⟨calls, out.wire ++ buf⟩) := by
  induction k generalizing buf out with
  | zero => omega
  | succ k ih =>
      cases buf with
      | nil => exact ⟨out.calls, by simp [sendLoop]⟩
      | cons c left =>
          obtain ⟨n, hn, hpos, hle⟩ := hsend out.calls (left.length + 1)
            (Nat.succ_pos _)
          have hshort : ((c :: left).drop n).length < k := by
            rw [List.length_drop]
            simp only [List.length_cons] at hk ⊢
            omega
          obtain ⟨calls, hcalls⟩ := ih ((c :: left).drop n)
            ⟨out.calls + 1, out.wire ++ (c :: left).take n⟩ hshort
          refine ⟨calls, ?_⟩
          simp only [sendLoop, hn, hcalls, List.append_assoc,
            List.take_append_drop]

/-- While `send` makes progress, all bytes are sent in the end. -/
theorem tcpSendBytes_accepts {send : Sends} (hsend : send.Accepts) {k : Nat}
    (buf : List UInt8) (out : Sent) (hk : buf.length < k) :
    ∃ calls, tcpSendBytes send k buf out
      = some ((buf.length : Int), ⟨calls, out.wire ++ buf⟩) := by
  obtain ⟨calls, hcalls⟩ := sendLoop_accepts hsend buf out hk
  exact ⟨calls, by simp [tcpSendBytes, hcalls]⟩

/-- Walking the list sends what its nodes hold. -/
theorem sendNodes_spec {send : Sends} (hsend : send.Accepts) {k m : Nat}
    {h : Heap A (RspNode A)} {head pos : A} {as : List A}
    {nodes : List ResponseNode} (out : Sent)
    (hwalk : cycle RspNode.next h head m pos = some as)
    (hnodes : as.map (nodeAt h) = nodes.map some)
    (hsize : ∀ n ∈ nodes, n.len ≤ n.data.length ∧ n.len < k) :
    ∃ calls, sendNodes send k h head m pos out
      = some (0, ⟨calls, out.wire ++ nodesText nodes⟩) := by
  induction m generalizing pos as nodes out with
  | zero => cases hwalk
  | succ m ih =>
      rw [cycle] at hwalk
      -- the walk is back at the head, and everything has been sent
      by_cases hpos : pos = head
      · rw [if_pos hpos, Option.some.injEq] at hwalk
        subst hwalk
        rw [List.map_nil, eq_comm, List.map_eq_nil_iff] at hnodes
        subst hnodes
        exact ⟨out.calls, by simp [sendNodes, hpos, nodesText]⟩
      · rw [if_neg hpos] at hwalk
        cases hn : h pos with
        | none => simp [hn] at hwalk
        | some n =>
            simp only [hn, Option.map_eq_some_iff] at hwalk
            obtain ⟨rest, hwalk, rfl⟩ := hwalk
            obtain ⟨node, nodes, rfl⟩ : ∃ node ns, nodes = node :: ns := by
              cases nodes with
              | nil => simp at hnodes
              | cons node ns => exact ⟨node, ns, rfl⟩
            simp only [List.map_cons, List.cons.injEq, nodeAt, hn,
              Option.bind_some] at hnodes
            obtain ⟨hle, hlt⟩ := hsize node (List.mem_cons_self ..)
            obtain ⟨calls, hcalls⟩ := tcpSendBytes_accepts hsend
              (node.data.take node.len) out (k := k) (by
                rw [List.length_take_of_le hle]
                exact hlt)
            obtain ⟨calls', hrest⟩ := ih
              ⟨calls, out.wire ++ node.data.take node.len⟩ hwalk hnodes.2
              fun n hn => hsize n (List.mem_cons_of_mem _ hn)
            refine ⟨calls', ?_⟩
            have hnn : ¬ (((node.data.take node.len).length : Int) < 0) := by
              omega
            simp only [sendNodes, if_neg hpos, hn, hnodes.1, bind,
              Option.bind_some, if_neg (Nat.not_lt.mpr hle), hcalls,
              if_neg hnn, hrest, nodesText, List.flatMap_cons,
              List.append_assoc]

-- ================================================================ the node list

/-- What `make_response_with_body` is called with: an empty list, and a
list of nodes each of which holds what it counts. -/
structure Ready (h : Heap A (RspNode A)) (head body hdr : A)
    (bs : List A) (nodes : List ResponseNode) : Prop where
  empty : Ring RspNode.next RspNode.prev h head []
  full : Ring RspNode.next RspNode.prev h body bs
  apart : head ∉ body :: bs
  fresh : h hdr = none
  holds : bs.map (nodeAt h) = nodes.map some
  sizes : ∀ n ∈ nodes, n.len ≤ n.data.length

variable {h : Heap A (RspNode A)} {head body hdr : A} {bs : List A}
  {nodes : List ResponseNode}

/-- The node of a header, in its 100 bytes. -/
def headerNode (len : Nat) : ResponseNode :=
  ⟨(vsnprintf 100 (okHeader len)).msg, (vsnprintf 100 (okHeader len)).len⟩

/-- `list_for_each` meets the nodes of a ring in order. -/
private theorem listForEach_ring {k : Nat}
    (hr : Ring RspNode.next RspNode.prev h head bs) (hk : bs.length < k) :
    listForEach k h head = some bs := by
  obtain ⟨n, hn⟩ := Option.isSome_iff_exists.mp
    (hr.isSome (List.mem_cons_self ..))
  simp only [listForEach, hn, bind, Option.bind_some]
  exact hr.cycle_eq hn hk

omit [DecidableEq A] in
/-- The nodes are read off their addresses one by one. -/
private theorem mapM_nodeAt {as : List A} {ns : List ResponseNode}
    (h' : as.map (nodeAt h) = ns.map some) :
    as.mapM (nodeAt h) = some ns := by
  induction as generalizing ns with
  | nil =>
      rw [List.map_nil, eq_comm, List.map_eq_nil_iff] at h'
      rw [h']
      rfl
  | cons a as ih =>
      cases ns with
      | nil => cases h'
      | cons n ns =>
          rw [List.map_cons, List.map_cons, List.cons.injEq] at h'
          simp [List.mapM_cons, h'.1, ih h'.2]

omit [DecidableEq A] in
/-- Storing links leaves the contents of the nodes. -/
private theorem nodeAt_kept {h' : Heap A (RspNode A)}
    (hk : Kept (rspFields A) h h') (a : A) : nodeAt h' a = nodeAt h a := by
  have := hk a
  simp only [rspFields] at this
  unfold nodeAt
  cases ha : h a <;> cases ha' : h' a <;> simp_all

/-- `list_add_tail` puts a node behind the others. -/
private theorem listAddTail_spec {x : A} {as : List A}
    (hr : Ring RspNode.next RspNode.prev h head as) (hx : (h x).isSome)
    (hoff : x ∉ head :: as) :
    ∃ h', listAddTail h x head = some h'
      ∧ Ring RspNode.next RspNode.prev h' head (as ++ [x])
      ∧ Kept (rspFields A) h h'
      ∧ ∀ b, b ∉ x :: head :: as → h' b = h b := by
  obtain ⟨h', hlink, hrest⟩ := hr.link (F := rspFields A) hx hoff
  obtain ⟨n, hn, hprev⟩ := Option.map_eq_some_iff.mp hr.ends.2
  refine ⟨h', ?_, hrest⟩
  simp only [listAddTail, hn, bind, Option.bind_some, hprev]
  exact hlink

/-- `list_splice_tail` puts a list behind the nodes of another. It leaves
out an empty one. -/
private theorem listSpliceTail_spec {as : List A}
    (ha : Ring RspNode.next RspNode.prev h head as)
    (hb : Ring RspNode.next RspNode.prev h body bs)
    (hoff : ∀ a ∈ head :: as, a ∉ bs) :
    ∃ h', listSpliceTail h body head = some h'
      ∧ Ring RspNode.next RspNode.prev h' head (as ++ bs)
      ∧ Kept (rspFields A) h h' := by
  obtain ⟨l, hl, hlnext⟩ := Option.map_eq_some_iff.mp hb.ends.1
  obtain ⟨l', hl', hlprev⟩ := Option.map_eq_some_iff.mp hb.ends.2
  rw [hl, Option.some.injEq] at hl'
  subst hl'
  cases bs with
  | nil =>
      refine ⟨h, ?_, (List.append_nil as).symm ▸ ha, fun _ => rfl⟩
      simp only [listSpliceTail, hl, bind, Option.bind_some, hlnext,
        List.head?_nil, Option.getD_none, ↓reduceIte]
      rfl
  | cons y t =>
      obtain ⟨z, hz⟩ : ∃ z, (y :: t).getLast? = some z :=
        Option.isSome_iff_exists.mp (by simp)
      obtain ⟨h', hsplice, hrest⟩ :=
        ha.spliced (F := rspFields A) hb rfl hz hoff
      obtain ⟨n, hn, hprev⟩ := Option.map_eq_some_iff.mp ha.ends.2
      have hne : ¬ y = body := by
        intro heq
        subst heq
        exact (List.nodup_cons.mp hb.nodup).1 (List.mem_cons_self ..)
      refine ⟨h', ?_, hrest⟩
      simp only [listSpliceTail, hl, bind, Option.bind_some, hlnext,
        List.head?_cons, Option.getD_some, if_neg hne, hlprev, hz, hn, hprev]
      exact hsplice

omit [DecidableEq A] in
/-- The header's address is that of no node in a list. -/
private theorem Ready.unlisted (hready : Ready h head body hdr bs nodes)
    {a : A} {l : List A} (hr : Ring RspNode.next RspNode.prev h a l) :
    ∀ b ∈ a :: l, b ≠ hdr := by
  intro b hb heq
  subst heq
  have := hr.isSome hb
  rw [hready.fresh] at this
  cases this

/-- The list that `make_response_with_body` makes: the header, and the
nodes of the body. -/
theorem makeResponseWithBody_spec {k : Nat}
    (hready : Ready h head body hdr bs nodes) (hk : bs.length < k) :
    ∃ h', makeResponseWithBody k h head body hdr = some h'
      ∧ Ring RspNode.next RspNode.prev h' head (hdr :: bs)
      ∧ (hdr :: bs).map (nodeAt h')
        = (headerNode ((nodes.map ResponseNode.len).sum % 2 ^ 64)
            :: nodes).map some := by
  have hhead := hready.unlisted hready.empty
  have hbody := hready.unlisted hready.full
  generalize hlen : (nodes.map ResponseNode.len).sum % 2 ^ 64 = len
  -- the new node
  generalize hh₁ : Function.update h hdr
    (some ⟨hdr, hdr, some (headerNode len)⟩) = h₁
  have hsame : ∀ b, b ≠ hdr → h₁ b = h b := fun b hb => by
    rw [← hh₁, Function.update_of_ne hb]
  have hnew : h₁ hdr = some ⟨hdr, hdr, some (headerNode len)⟩ := by
    rw [← hh₁, Function.update_self]
  -- linked in behind the head
  obtain ⟨h₂, hadd, hring, hkept, hoff⟩ :=
    listAddTail_spec (hready.empty.congr fun a ha => hsame a (hhead a ha))
      (by rw [hnew]; rfl) fun hmem => hhead hdr hmem rfl
  have hbody₂ : Ring RspNode.next RspNode.prev h₂ body bs := by
    refine hready.full.congr fun a ha => ?_
    rw [hoff a ?_, hsame a (hbody a ha)]
    simp only [List.mem_cons, List.not_mem_nil, or_false, not_or]
    exact ⟨hbody a ha, fun heq => hready.apart (heq ▸ ha)⟩
  -- and the body behind it
  obtain ⟨h₃, hsplice, hring₃, hkept₃⟩ := listSpliceTail_spec hring hbody₂ (by
    intro a ha hmem
    simp only [List.nil_append, List.mem_cons, List.not_mem_nil,
      or_false] at ha
    rcases ha with rfl | rfl
    · exact hready.apart (List.mem_cons_of_mem _ hmem)
    · exact hbody _ (List.mem_cons_of_mem _ hmem) rfl)
  refine ⟨h₃, ?_, hring₃, ?_⟩
  · simp only [makeResponseWithBody, listForEach_ring hready.full hk,
      mapM_nodeAt hready.holds, hlen, bind, Option.bind_some]
    rw [show Function.update h hdr (some ⟨hdr, hdr,
      some ⟨(vsnprintf 100 (okHeader len)).msg,
        (vsnprintf 100 (okHeader len)).len⟩⟩) = h₁ from hh₁, hadd]
    exact hsplice
  · -- the links are stored, the contents stay
    have hdata : ∀ b, nodeAt h₃ b = nodeAt h₁ b := fun b => by
      rw [nodeAt_kept hkept₃, nodeAt_kept hkept]
    have hhdr : nodeAt h₁ hdr = some (headerNode len) := by
      rw [nodeAt, hnew]
      rfl
    rw [List.map_cons, List.map_cons, hdata, hhdr, ← hready.holds]
    congr 1
    refine List.map_congr_left fun b hb => ?_
    rw [hdata, nodeAt, nodeAt, hsame b (hbody b (List.mem_cons_of_mem _ hb))]


-- ================================================================== the header

/-- Comparing at a position is comparing what is left from there. -/
private theorem startsWith_drop (js key : List UInt8) (i : Nat) :
    startsWith js i key = startsWith (js.drop i) 0 key := by
  have hgen : ∀ j, startsWith js (i + j) key
      = startsWith (js.drop i) j key := by
    induction key with
    | nil => exact fun _ => rfl
    | cons k key ih =>
        intro j
        rw [startsWith, startsWith, Nat.add_assoc, ih (j + 1)]
        simp [byteAt]
  exact hgen 0

/-- The number at the start of a word. -/
private theorem strtol_holds {msg : List UInt8} {l : Lab} {n : Nat}
    (hv : Holds msg l (.word (decimalNat n))) (hn : (n : Int) ≤ LONG_MAX) :
    (strtol (cstr (msg.drop l.start))).1 = n := by
  obtain ⟨u, hu, hend⟩ := hv.text
  have hcstr : cstr (decimalNat n ++ u) = decimalNat n ++ cstr u := by
    apply List.takeWhile_append_of_pos
    intro c hc
    have : c ≠ 0 := by
      intro heq
      subst heq
      exact hv.plain.nul hc
    simpa using this
  have hstop : ∀ c ∈ (cstr u).head?, isDigit c = false := by
    intro c hc
    cases u with
    | nil => cases hc
    | cons d u =>
        rw [cstr_cons] at hc
        split at hc
        · cases hc
        · cases hc
          rcases hend c rfl with rfl | rfl | hd
          · decide
          · decide
          · by_contra hdig
            simp only [Bool.not_eq_false, isDigit, Bool.and_eq_true,
              decide_eq_true_eq, UInt8.le_iff_toNat_le,
              UInt8.reduceToNat] at hdig
            simp only [endsPrimitive, isBlank, Bool.or_eq_true,
              beq_iff_eq] at hd
            rcases hd with ((((((rfl | rfl) | rfl) | rfl) | rfl) | rfl)
              | rfl) | rfl <;> exact absurd hdig (by decide)
  rw [hu, Piece.content, hcstr, strtol_decimalNat hn hstop]

/-- How a header is read: by its status and its size. -/
private theorem parseHeader_flat {ms : Members} {msg after s : List UInt8}
    (stack : Nat → JsmnTok) (okay : Bool) {size : Nat}
    (hms : PlainMembers ms) (hafter : Layout after)
    (hmsg : cstr msg = flatText ms ++ after) (hroom : ms.length < 128)
    (hstatus : lookup (ascii "status").isPrefixOf ms = some (.string s))
    (hokay : ∀ u, startsWith (s ++ u) 0 (ascii "okay") = okay)
    (hsize : lookup (ascii "size").isPrefixOf ms
        = some (.word (decimalNat size)) ∧ (size : Int) ≤ LONG_MAX
      ∨ lookup (ascii "size").isPrefixOf ms = none ∧ size = 0) :
    Parse.parseHeader msg stack
      = some (some (if okay then .okay else .error, size)) := by
  have hz : zipParse msg 256 = .ok _ :=
    zipParse_flat hms hafter hmsg (by omega)
  have hw := (zipParse_good hz).2.2.1
  have hlen : 256 ≤ ((List.range 256).map stack).length := by simp
  have hspec := jsmnParse_spec msg hlen
  rw [hz] at hspec
  obtain ⟨parser, -, hparse⟩ := hspec
  generalize hr : ((List.range 256).map stack).drop _ = r at hparse
  obtain ⟨p, hp, hps⟩ := argument_flat hms hmsg (by decide) hstatus
  obtain ⟨u, hu, -⟩ := hps.text
  have hok : startsWith msg p.val.start (ascii "okay") = okay := by
    rw [startsWith_drop, hu]
    exact hokay u
  -- the size, if there is one
  have hhdr : headerSize msg (tokens (Forest.tree
      (⟨.object, 0, (flatText ms).length⟩ : Lab) (flatKids ms)) ++ r)
      (answer (findPair msg (ascii "size") (flatKids ms)))
      = some (some size) := by
    rcases hsize with ⟨hfound, hmax⟩ | ⟨hnone, rfl⟩
    · obtain ⟨q, hq, hqv⟩ := argument_flat hms hmsg (by decide) hfound
      obtain ⟨v, hv, -⟩ := hqv.text
      obtain ⟨d, ds, hd⟩ := List.exists_cons_of_ne_nil hqv.plain.1
      have hdig := (decimalNat_digits size).2 d (hd ▸ List.mem_cons_self ..)
      have hbyte : byteAt msg q.val.start = d := by
        rw [Piece.content, hd] at hv
        exact (byteAt_drop_cons hv).1
      have hrange : ¬ (d < 48 ∨ 57 < d) := by
        simp only [isDigit, Bool.and_eq_true, decide_eq_true_eq] at hdig
        simp only [UInt8.not_lt, not_or]
        exact hdig
      have htype : ¬ (q.val.tok q.kids.width).type ≠ .primitive := by
        simp [Lab.tok, hqv.type, Piece.type]
      have hstr := strtol_holds hqv hmax
      have hnn : ¬ (((size : Nat) : Int) < 0) := by omega
      rw [hq]
      simp only [headerSize, if_neg (answer_ne q), tokenAt_answer hw hq, bind,
        Option.bind_some, if_neg htype]
      simp only [Lab.tok, charAt, stringAt_nat, hstr,
        if_neg (Int.not_lt.mpr (Int.natCast_nonneg q.val.start)),
        Int.toNat_natCast, hbyte, if_neg hrange, Option.bind_some,
        if_neg hnn]
      rfl
    · rw [no_argument_flat hms hmsg (by decide) hnone]
      rfl
  have hget : ∀ key, jsmnGetValue msg (tokens (Forest.tree
      (⟨.object, 0, (flatText ms).length⟩ : Lab) (flatKids ms)) ++ r) key
      = some (answer (findPair msg key (flatKids ms))) :=
    fun key => jsmnGetValue_spec msg key rfl hw
  have htok := tokenAt_answer (a := ⟨.object, 0, (flatText ms).length⟩)
    (r := r) hw hp
  have h0 : (tokens (Forest.tree (⟨.object, 0, (flatText ms).length⟩ : Lab)
      (flatKids ms)) ++ r)[0]?
      = some (Lab.tok ⟨.object, 0, (flatText ms).length⟩
          (flatKids ms).width) := by simp
  have hobj : ¬ (Lab.tok ⟨.object, 0, (flatText ms).length⟩
      (flatKids ms).width).type ≠ .object := by simp [Lab.tok]
  simp only [Parse.parseHeader, hparse, bind, Option.bind_some, h0,
    if_neg hobj, hget, hp, if_neg (answer_ne p), hhdr, htok,
    tokStartsWith_tok, hok]
  rfl

-- ================================================================== the two kinds

/-- The members of the header of a response. -/
def okMembers (size : Nat) : Members :=
  [("status", .string (ascii "okay")), ("size", .word (decimalNat size))]

/-- The members of an error. -/
def errorMembers (no : Int) (str : Text) : Members :=
  [("status", .string (ascii "error")), ("code", .word (decimal no)),
    ("reason", .string str)]

/-- The header of a body is a JSON object and the delimiter. -/
theorem okHeader_eq (size : Nat) :
    okHeader size = flatText (okMembers size) ++ delim := by
  have hopen : ascii "\x7b\"status\":\"okay\",\"size\":"
      = LBRACE :: QUOTE :: (ascii "status" ++ QUOTE :: 58 :: QUOTE
        :: (ascii "okay" ++ QUOTE :: 44 :: QUOTE
          :: (ascii "size" ++ [QUOTE, 58]))) := by decide
  have hend : ascii "\x7d\r\n\r\n" = RBRACE :: delim := by decide
  have hcomma : ascii "," = [44] := by decide
  simp only [okHeader, okMembers, flatText, text_flat, text_flat_nil, hopen,
    hend, hcomma, Piece.write, List.append_assoc, List.cons_append,
    List.nil_append]

/-- An error is a JSON object and the delimiter. -/
theorem sendError_eq (no : Int) (str : Text) :
    sendError no str = flatText (errorMembers no str) ++ delim := by
  have hopen : ascii "\x7b\"status\":\"error\",\"code\":"
      = LBRACE :: QUOTE :: (ascii "status" ++ QUOTE :: 58 :: QUOTE
        :: (ascii "error" ++ QUOTE :: 44 :: QUOTE
          :: (ascii "code" ++ [QUOTE, 58]))) := by decide
  have hmid : ascii ",\"reason\":\""
      = 44 :: QUOTE :: (ascii "reason" ++ [QUOTE, 58, QUOTE]) := by decide
  have hend : ascii "\"\x7d\r\n\r\n" = QUOTE :: RBRACE :: delim := by decide
  have hcomma : ascii "," = [44] := by decide
  simp only [sendError, errorMembers, flatText, text_flat, text_flat_nil,
    hopen, hmid, hend, hcomma, Piece.write,
    List.append_assoc, List.cons_append, List.nil_append]

/-- A numeral is a word. -/
private theorem plain_decimalNat (n : Nat) :
    (Piece.word (decimalNat n)).Plain :=
  decimal_natCast n ▸ plain_decimal n

/-- The members of the header need no escapes. -/
theorem okMembers_plain (size : Nat) : PlainMembers (okMembers size) := by
  have hkeys : isBody (ascii "status") = true
      ∧ isBody (ascii "size") = true := by decide +kernel
  have hokay : (Piece.string (ascii "okay")).Plain := by
    show isBody _ = true
    decide +kernel
  exact .cons hkeys.1 hokay
    (.cons hkeys.2 (plain_decimalNat size) plainMembers_nil)

/-- What the reason of an error is made of. -/
def ReasonText (str : Text) : Prop :=
  str.length ≤ PSNET_ERRSTRLEN ∧ ∀ c ∈ str, 32 ≤ c ∧ c ≠ QUOTE ∧ c ≠ BACKSLASH

/-- The members of an error need none either, given such a reason. -/
theorem errorMembers_plain (no : Int) {str : Text} (h : ReasonText str) :
    PlainMembers (errorMembers no str) := by
  have hkeys : isBody (ascii "status") = true ∧ isBody (ascii "code") = true
      ∧ isBody (ascii "reason") = true := by decide +kernel
  have herror : (Piece.string (ascii "error")).Plain := by
    show isBody _ = true
    decide +kernel
  have hstr : (Piece.string str).Plain := by
    refine isBody_of_plain fun c hc => ⟨?_, (h.2 c hc).2⟩
    intro heq
    subst heq
    exact absurd (h.2 0 hc).1 (by decide)
  exact .cons hkeys.1 herror (.cons hkeys.2.1 (plain_decimal no)
    (.cons hkeys.2.2 hstr plainMembers_nil))

/-- No control character stands in a header before its end. -/
private theorem okMembers_control {c : UInt8} (hc : c < 32) (size : Nat) :
    c ∉ flatText (okMembers size) := by
  have hall : ∀ w ∈ ["status", "size", "okay"], ∀ d ∈ ascii w, ¬ d < 32 := by
    decide +kernel
  refine control_notMem hc (okMembers_plain size) (fun m hm => ?_)
    fun m hm s hs => ?_
  · simp only [okMembers, List.mem_cons, List.not_mem_nil, or_false] at hm
    rcases hm with rfl | rfl <;>
      exact fun hmem => hall _ (by simp) c hmem hc
  · simp only [okMembers, List.mem_cons, List.not_mem_nil, or_false] at hm
    rcases hm with rfl | rfl <;> cases hs
    exact fun hmem => hall _ (by simp) c hmem hc

/-- There is no control character in an error. -/
private theorem errorMembers_control {c : UInt8} (hc : c < 32) (no : Int)
    {str : Text} (h : ReasonText str) :
    c ∉ flatText (errorMembers no str) := by
  have hall : ∀ w ∈ ["status", "code", "reason", "error"],
      ∀ d ∈ ascii w, ¬ d < 32 := by decide +kernel
  have hstr : c ∉ str := fun hmem =>
    absurd (h.2 c hmem).1 (UInt8.not_le.mpr hc)
  refine control_notMem hc (errorMembers_plain no h) (fun m hm => ?_)
    fun m hm s hs => ?_
  · simp only [errorMembers, List.mem_cons, List.not_mem_nil,
      or_false] at hm
    rcases hm with rfl | rfl | rfl <;>
      exact fun hmem => hall _ (by simp) c hmem hc
  · simp only [errorMembers, List.mem_cons, List.not_mem_nil,
      or_false] at hm
    rcases hm with rfl | rfl | rfl <;> cases hs
    · exact fun hmem => hall _ (by simp) c hmem hc
    · exact hstr

/-- The header is as long as its numeral and 29 characters. -/
theorem length_okHeader (size : Nat) :
    (okHeader size).length = 29 + (decimalNat size).length := by
  have hopen : (ascii "\x7b\"status\":\"okay\",\"size\":").length
      = 24 := by decide
  have hend : (ascii "\x7d\r\n\r\n").length = 5 := by decide
  simp only [okHeader, List.length_append, hopen, hend]
  omega

/-- An error is as long as its number, its reason and 42 characters. -/
theorem length_sendError (no : Int) (str : Text) :
    (sendError no str).length
      = 42 + (decimal no).length + str.length := by
  have hopen : (ascii "\x7b\"status\":\"error\",\"code\":").length
      = 25 := by decide
  have hmid : (ascii ",\"reason\":\"").length = 11 := by decide
  have hend : (ascii "\"\x7d\r\n\r\n").length = 6 := by decide
  simp only [sendError, List.length_append, hopen, hmid, hend]
  omega

/-- The client reads the text as one message, whatever comes after it,
and `parse_header` returns this status and this size. -/
def ReadsAs (text : Text) (status : PsnetStatus) (size : Nat) : Prop :=
  ∀ (rest buf : List UInt8) (stack : Nat → JsmnTok), buf.length = HDR_MAX →
    tcpReadMsg (text ++ rest) buf = (text.length, store buf text, rest)
      ∧ text.length < HDR_MAX
      ∧ Parse.parseHeader (store buf text) stack = some (some (status, size))

/-- A header without control characters before its delimiter. -/
theorem readsAs_flat {ms : Members} {text s : List UInt8} (okay : Bool)
    {size : Nat} (htext : text = flatText ms ++ delim)
    (hms : PlainMembers ms) (hcr : CR ∉ flatText ms)
    (hnul : 0 ∉ flatText ms) (hlen : text.length < HDR_MAX)
    (hroom : ms.length < 128)
    (hstatus : lookup (ascii "status").isPrefixOf ms = some (.string s))
    (hokay : ∀ u, startsWith (s ++ u) 0 (ascii "okay") = okay)
    (hsize : lookup (ascii "size").isPrefixOf ms
        = some (.word (decimalNat size)) ∧ (size : Int) ≤ LONG_MAX
      ∨ lookup (ascii "size").isPrefixOf ms = none ∧ size = 0) :
    ReadsAs text (if okay then .okay else .error) size := by
  intro rest buf stack hbuf
  have hcstr : cstr (store buf text) = flatText ms ++ delim := by
    rw [Server.cstr_store, htext]
    apply cstr_eq_self
    intro hmem
    rcases List.mem_append.mp hmem with h | h
    · exact hnul h
    · exact absurd h (by decide)
  refine ⟨?_, hlen, parseHeader_flat stack okay hms (by decide) hcstr hroom
    hstatus hokay hsize⟩
  subst htext
  exact tcpReadMsg_plain rest hcr (by omega)

/-- `parse_header` reads the status and the size it was written with. -/
theorem readsAs_okHeader {size : Nat} (hsize : size < 2 ^ 63) :
    ReadsAs (okHeader size) .okay size := by
  have hshort := (length_decimalNat_le (n := size) (k := 20)
    (by decide)).mpr (by omega)
  have hlen := length_okHeader size
  have hskip : (ascii "size").isPrefixOf (ascii "status") = false := by
    decide
  refine readsAs_flat true (okHeader_eq size) (okMembers_plain size)
    (okMembers_control (by decide) size) (okMembers_control (by decide) size)
    (by unfold HDR_MAX; omega) (by simp [okMembers])
    (by rw [okMembers, lookup_self]) (fun u => rfl)
    (Or.inl ⟨by rw [okMembers, lookup_skip _ hskip, lookup_self], ?_⟩)
  unfold LONG_MAX
  omega

/-- `parse_header` reads an error as one without a body. -/
theorem readsAs_sendError {no : Int} {str : Text}
    (hno : -2 ^ 31 ≤ no ∧ no < 2 ^ 31) (hstr : ReasonText str) :
    ReadsAs (sendError no str) .error 0 := by
  have hshort := (length_decimal_le (i := no) (k := 10)
    (by decide)).mpr (by omega)
  have hlen := length_sendError no str
  have hreason := hstr.1
  unfold PSNET_ERRSTRLEN at hreason
  have hskip : (ascii "size").isPrefixOf (ascii "status") = false
      ∧ (ascii "size").isPrefixOf (ascii "code") = false
      ∧ (ascii "size").isPrefixOf (ascii "reason") = false := by decide
  exact readsAs_flat false (sendError_eq no str)
    (errorMembers_plain no hstr) (errorMembers_control (by decide) no hstr)
    (errorMembers_control (by decide) no hstr)
    (by unfold HDR_MAX; omega) (by simp [errorMembers])
    (by rw [errorMembers, lookup_self]) (fun u => rfl)
    (Or.inr ⟨by simp [errorMembers, lookup_skip, hskip], rfl⟩)

-- ================================================================== the framing

/-- The header is counted in full: it fits its 100 bytes. -/
private theorem headerNode_text {size : Nat} (hsize : size < 2 ^ 64) :
    (headerNode size).data.take (headerNode size).len = okHeader size
      ∧ (headerNode size).len ≤ (headerNode size).data.length
      ∧ (headerNode size).len < 100 := by
  have hshort := (length_decimalNat_le (n := size) (k := 20)
    (by decide)).mpr (by omega)
  have hlen := length_okHeader size
  have hfit : (okHeader size).length < 100 := by omega
  have hnul : 0 ∉ okHeader size := by
    rw [okHeader_eq]
    intro hmem
    rcases List.mem_append.mp hmem with h | h
    · exact okMembers_control (by decide) size h
    · exact absurd h (by decide)
  obtain ⟨-, htake, -⟩ := (passedWhole_iff hnul (by decide)).mpr hfit
  refine ⟨htake, ?_, hfit⟩
  have := congrArg List.length htake
  rw [List.length_take] at this
  simp only [headerNode]
  simp only [vsnprintf] at this ⊢
  omega

/-- The text of the nodes is as long as they announce. -/
theorem length_nodesText {nodes : List ResponseNode}
    (h : ∀ n ∈ nodes, n.len ≤ n.data.length) :
    (nodesText nodes).length = (nodes.map ResponseNode.len).sum := by
  induction nodes with
  | nil => rfl
  | cons n nodes ih =>
      rw [nodesText, List.flatMap_cons, List.length_append, ← nodesText,
        ih fun m hm => h m (List.mem_cons_of_mem _ hm),
        List.length_take_of_le (h n (List.mem_cons_self ..))]
      rfl

/-- Whatever the network accepts at a time, a response is one header and
the nodes of its body in order, and the header announces what follows;
an error is one header that announces nothing. -/
theorem response_framing {send : Sends} (hsend : send.Accepts) :
    (∀ {A : Type} [DecidableEq A] {h : Heap A (RspNode A)}
        {head body hdr : A} {bs : List A} {nodes : List ResponseNode}
        (out : Sent), Ready h head body hdr bs nodes →
      ∃ size K, ∀ k, K ≤ k → ∃ h' calls,
        makeResponseWithBody k h head body hdr = some h'
        ∧ psnetSendResponse send k h' head out = some (0, ⟨calls,
            out.wire ++ (okHeader size ++ nodesText nodes)⟩)
        ∧ FirstEnd (okHeader size) (okHeader size).length
        ∧ ((nodesText nodes).length < 2 ^ 63 →
          size = (nodesText nodes).length
            ∧ ReadsAs (okHeader size) .okay size))
    ∧ ∀ (no : Int) (str : Text) (out : Sent),
      -2 ^ 31 ≤ no ∧ no < 2 ^ 31 → ReasonText str →
      ∃ K, ∀ k, K ≤ k → ∃ rv calls,
        psnetSendError send k no str out
          = some (rv, ⟨calls, out.wire ++ sendError no str⟩)
        ∧ ReadsAs (sendError no str) .error 0
        ∧ (-10 < no ∧ no < 100 →
          (sendError no str).length < 42 + 3 + PSNET_ERRSTRLEN) := by
  constructor
  · intro A _ h head body hdr bs nodes out hready
    have hlen := length_nodesText hready.sizes
    have hsize : (nodes.map ResponseNode.len).sum % 2 ^ 64 < 2 ^ 64 :=
      Nat.mod_lt _ (by decide)
    obtain ⟨htake, hle, hshort⟩ := headerNode_text hsize
    have hfirst := fun size =>
      firstEnd_delim (okMembers_control (c := CR) (by decide) size)
    simp only [← okHeader_eq] at hfirst
    generalize hcount : (nodes.map ResponseNode.len).sum % 2 ^ 64 = size
      at htake hle hshort
    -- enough fuel for the list, the header's 100 bytes and every node
    refine ⟨size, bs.length + 100 + (nodes.map ResponseNode.len).sum,
      fun k hk => ?_⟩
    obtain ⟨h', hmake, hring, hdata⟩ :=
      makeResponseWithBody_spec (k := k) hready (by omega)
    rw [hcount] at hdata
    -- each node holds what is sent of it
    have hfit : ∀ n ∈ headerNode size :: nodes,
        n.len ≤ n.data.length ∧ n.len < k := by
      intro n hn
      rcases List.mem_cons.mp hn with rfl | hn
      · exact ⟨hle, by omega⟩
      · refine ⟨hready.sizes n hn, ?_⟩
        have := List.le_sum_of_mem (List.mem_map_of_mem
          (f := ResponseNode.len) hn)
        omega
    obtain ⟨l, hl⟩ := Option.isSome_iff_exists.mp
      (hring.isSome (List.mem_cons_self ..))
    have hwalk := hring.cycle_eq hl (k := k) (by simp; omega)
    obtain ⟨calls, hcalls⟩ := sendNodes_spec hsend out hwalk hdata hfit
    refine ⟨h', calls, hmake, ?_, ?_, fun hshort => ?_⟩
    · simp only [psnetSendResponse, hl, bind, Option.bind_some, hcalls,
        nodesText, List.flatMap_cons, htake]
    · have := hfirst size
      simpa only [okHeader_eq, List.length_append] using this
    · have heq : size = (nodesText nodes).length := by
        rw [← hcount, ← hlen]
        omega
      exact ⟨heq, readsAs_okHeader (by omega)⟩
  · intro no str out hno hstr
    refine ⟨(sendError no str).length + 1, fun k hk => ?_⟩
    obtain ⟨calls, hcalls⟩ :=
      tcpSendBytes_accepts hsend (sendError no str) out (k := k) (by omega)
    refine ⟨_, calls, hcalls, readsAs_sendError hno hstr, fun hsmall => ?_⟩
    -- a number of two characters at most
    have hdig := (length_decimal_le (i := no) (k := 1)
      (by decide)).mpr (by omega)
    have hreason := hstr.1
    rw [length_sendError]
    unfold PSNET_ERRSTRLEN at *
    omega

/-- A body of two nodes, the second counted short. -/
def abcNodes : List ResponseNode := [⟨ascii "ab", 2⟩, ⟨ascii "cd", 1⟩]

/-- The empty list at 0, and the nodes at 2 and 3 in the list at 1. -/
def abcHeap : Heap Nat (RspNode Nat)
  | 0 => some ⟨0, 0, none⟩
  | 1 => some ⟨2, 3, none⟩
  | 2 => some ⟨3, 1, some ⟨ascii "ab", 2⟩⟩
  | 3 => some ⟨1, 2, some ⟨ascii "cd", 1⟩⟩
  | _ => none

/-- The three nodes form the list the sender expects. -/
private theorem abcHeap_ready : Ready abcHeap 0 1 4 [2, 3] abcNodes where
  empty := ⟨by simp [List.isChain_cons_cons, Link, abcHeap], by decide⟩
  full := ⟨by simp [List.isChain_cons_cons, Link, abcHeap], by decide⟩
  apart := by decide
  fresh := rfl
  holds := rfl
  sizes := by decide

/-- Sent byte by byte. -/
theorem response_framing_abc :
    (∃ K, ∀ k, K ≤ k → ∃ h' calls,
      makeResponseWithBody k abcHeap 0 1 4 = some h'
      ∧ psnetSendResponse (fun _ _ => .ok 1) k h' 0 ⟨0, []⟩
        = some (0, ⟨calls, okHeader 3 ++ ascii "abc"⟩))
    ∧ ReadsAs (okHeader 3) .okay 3
    ∧ ReadsAs (sendError 8 (ascii "No such method")) .error 0 := by
  have hsend : Sends.Accepts fun _ _ => .ok 1 :=
    fun _ _ hleft => ⟨1, rfl, Nat.one_pos, hleft⟩
  obtain ⟨hok, herror⟩ := response_framing hsend
  obtain ⟨size, K, hK⟩ := hok ⟨0, []⟩ abcHeap_ready
  obtain ⟨-, -, -, -, -, hread⟩ := hK K (Nat.le_refl K)
  obtain ⟨hsize, hreads⟩ := hread (by decide)
  obtain rfl : size = 3 := hsize
  obtain ⟨K', hK'⟩ := herror 8 (ascii "No such method") ⟨0, []⟩ (by decide)
    ⟨by decide, by decide⟩
  obtain ⟨-, -, -, herr, -⟩ := hK' K' (Nat.le_refl K')
  refine ⟨⟨K, fun k hk => ?_⟩, hreads, herr⟩
  obtain ⟨h', calls, hmake, hwire, -⟩ := hK k hk
  exact ⟨h', calls, hmake, hwire⟩

end Psnet.Protocol
