/-
Whom a broadcast reaches in a network of routers.

Every router takes the datagrams sent to it, in whatever order the network
likes; none is lost here, the routers' lists and clients stay as they are,
and the clock of each router's cache ticks less often than would make it
forget the message. A copy that `h` routers forwarded is the broadcast with
`h` added to its hops character (`hopped`), so that all of a run is a run
of hop-limited flooding (`Gossip`), a router's cache saying whether it has
heard of the message (`carries_step`).

A router does not send a message back to where it came from: that the
addresses let it see where that was is the field `skips`. The kernel stores
eight of an IPv6 address's sixteen bytes, and over IPv4 the test is the
wrong way round, so this asks for routers that differ in the first eight
bytes of IPv6 addresses (`ipAddrEquals_prefix`).

# What is proved

`broadcast_reaches`: a run comes to an end, and by then the first router
and those it knows have flooded the message, each to everybody it knows and
serves, or another address of the same router has had it. At any time no
router has flooded it twice, and one that has flooded it had it along a
walk from the first. The general part is in `Lib.Gossip`, where a node is
anything that has heard or not heard; here a router has heard of the
message when its cache has the id, and a copy is a datagram.
-/
import Psnet.Lib.Gossip
import Psnet.Router.Duplicates
import Psnet.Router.Network

namespace Psnet.Router

open Net Jsmn Parse DeltaList Client Server

-- ================================================================ the network

/-- Routers, where they listen and send from, and whom they send to. -/
structure Place (N : Type) where
  host : Sockaddr → Option N
  addr : N → Sockaddr
  outside : Sockaddr
  routers : N → List Sockaddr
  clients : N → List Sockaddr
  skips : ∀ (n : N) (via : Option N) (old : Sockaddr), ∀ r ∈ routers n,
    ipAddrEquals r (recvAddr old (via.elim outside addr)) = true →
      ∃ m, host r = some m ∧ via = some m

/-- The routers, how often the clock of each one's cache has ticked, those
that have flooded, in order, the datagrams in flight, and those that were
taken. -/
structure Wave (N : Type) where
  router : N → RouterState
  ticks : N → Nat
  floods : List N
  flight : List (Packet N)
  taken : List (Packet N)

variable {N : Type}

/-- The router a datagram comes from. -/
def Packet.via (p : Packet N) : Option N := p.path.getLast?

/-- The sender `recvfrom` reports for a datagram. -/
def Place.sender (pl : Place N) (p : Packet N) : Sockaddr :=
  p.via.elim pl.outside pl.addr

/-- A datagram is taken: by a router, or by whoever else it is for. -/
inductive Wave.Take [DecidableEq N] (pl : Place N) :
    Wave N → Wave N → Prop
  | router {router ticks floods pre post taken} {p : Packet N} {n : N}
      {old : MsgInfo} {st : RouterState} {sends : Option (List UdpSend)}
      {packets : List (Packet N)} (here : pl.host p.dst = some n)
      (fresh : old.msg.length = MSG_MAX)
      (handled : handleMessage (router n)
        (udpReceive old (pl.sender p) p.payload) = some (st, sends))
      (emitted : emit (p.path ++ [n]) (sends.getD []) = some packets) :
      Wave.Take pl ⟨router, ticks, floods, pre ++ p :: post, taken⟩
        ⟨Function.update router n st, ticks,
          floods ++ sends.elim [] fun _ => [n], pre ++ post ++ packets,
          taken ++ [p]⟩
  | client {router ticks floods pre post taken} {p : Packet N}
      (away : pl.host p.dst = none) :
      Wave.Take pl ⟨router, ticks, floods, pre ++ p :: post, taken⟩
        ⟨router, ticks, floods, pre ++ post, taken ++ [p]⟩

/-- A datagram is taken, or the clock of a cache ticks, less often than its
interval. -/
inductive Wave.Step [DecidableEq N] (pl : Place N) :
    Wave N → Wave N → Prop
  | take {w w' : Wave N} (taken : Wave.Take pl w w') : Wave.Step pl w w'
  | tick {w : Wave N} {n : N} {t : Table Text}
      (early : w.ticks n + 1 < cacheConf.interval.toNat)
      (ticked : (deltaTick cacheConf (w.router n).msgCache).map Prod.fst
        = some t) :
      Wave.Step pl w { w with
        router := Function.update w.router n
          { w.router n with msgCache := t }
        ticks := Function.update w.ticks n (w.ticks n + 1) }

-- ================================================================== the copies

variable {d msg : List UInt8} {p : Nat} {id : Text} {mi : MsgInfo}
  {st : RouterState}

/-- The copy that `h` routers forwarded. -/
def hopped (d : List UInt8) (p h : Nat) : List UInt8 :=
  d.set p (48 + UInt8.ofNat h)

/-- Changing the hop count does not change the length. -/
private theorem length_hopped (d : List UInt8) (p h : Nat) :
    (hopped d p h).length = d.length := List.length_set

/-- A broadcast nobody has forwarded: its hops token starts with `0`. -/
structure Fresh (d : List UInt8) (p : Nat) (id : Text) : Prop where
  short : d.length < MSG_MAX
  passable : passable d = some (p, id)
  zero : byteAt d p = 48

/-- The hop count stands within the datagram. -/
theorem Fresh.lt (h : Fresh d p id) : p < d.length :=
  Nat.lt_of_lt_of_le (passable_lt h.passable).1 (cstr_length_le d)

/-- A fresh datagram has gone no hop yet. -/
theorem Fresh.hopped_zero (h : Fresh d p id) : hopped d p 0 = d := by
  have hzero := h.zero
  rw [byteAt, List.getD_eq_getElem?_getD, List.getElem?_eq_getElem h.lt,
    Option.getD_some] at hzero
  calc d.set p (48 + UInt8.ofNat 0) = d.set p (d.get ⟨p, h.lt⟩) := by
        rw [List.get_eq_getElem, hzero]
        rfl
    _ = d := List.set_getElem_self _

/-- The hop count is one digit. -/
private theorem byteAt_hopped (hp : p < d.length) (h : Nat) :
    byteAt (hopped d p h) p = 48 + UInt8.ofNat h := by
  simp [byteAt, hopped, hp]

/-- Forwarding a copy adds a hop. -/
private theorem bump_hopped (hp : p < d.length) (h : Nat) :
    bump (hopped d p h) p = hopped d p (h + 1) := by
  rw [bump, byteAt_hopped hp, hopped, List.set_set, hopped,
    UInt8.ofNat_add, ← UInt8.add_assoc]
  rfl

/-- After fewer than three hops the datagram is still to be passed on. -/
theorem Fresh.passable_hopped (hd : Fresh d p id) {h : Nat} (hh : h < 3) :
    Router.passable (hopped d p h) = some (p, id) := by
  induction h with
  | zero => rw [hd.hopped_zero, hd.passable]
  | succ h ih =>
      rw [← bump_hopped hd.lt, passable_bump (ih (by omega)),
        byteAt_hopped hd.lt, if_pos]
      have : h = 0 ∨ h = 1 := by omega
      rcases this with rfl | rfl <;> decide

/-- A message that may be passed on is. -/
private theorem handleMessage_passable (h : passable mi.msg = some (p, id)) :
    handleMessage st mi
      = (passOn st mi p id).map fun r => (r.1, r.2.2) := by
  obtain ⟨q, hq, hm, he⟩ := passable_some h
  rw [handleMessage_broadcast st hq hm, he]

/-- A copy at the limit changes nothing. -/
private theorem handleMessage_limit (h : passable msg = some (p, id))
    (hlim : hopsOk (byteAt msg p + 1) = false)
    (hmi : cstr mi.msg = cstr (bump msg p)) :
    handleMessage st mi = some (st, none) := by
  obtain ⟨q, hq, hm, -⟩ := passable_some h
  have hnone : passable mi.msg = none := by
    rw [passable_congr hmi, passable_bump h, hlim]
    rfl
  have hbump : Alike udpKeys msg (bump msg p) :=
    .of_mask (bump_mask (passable_lt h).2).symm (by decide)
  have hcstr : Alike udpKeys mi.msg (bump msg p) :=
    .of_cstr hmi (by decide)
  have hq' : request udpCommands mi.msg JSMN_NTOK = some q := by
    rw [request_alike hcstr (by decide) (by decide),
      ← request_alike hbump (by decide) (by decide), hq]
  have he : eligible mi.msg q.kids = none := by
    simpa [passable, hq', hm] using hnone
  rw [handleMessage_broadcast st hq' hm, he]

-- ============================================================ what a router does

/-- The ids in the cache of a router that has had the message for a while,
or has not. -/
def idsOf (id : Text) (left : Option Nat) : Ids :=
  left.elim [] fun k => [(id, k)]

/-- A copy gives the id all its ticks again. -/
private theorem idsOf_new (id : Text) (left : Option Nat) :
    TimedSet.apply cacheConf.equals cacheConf.interval.toNat
      (idsOf id left) (.update id)
      = idsOf id (some cacheConf.interval.toNat) := by
  cases left <;>
    simp [idsOf, TimedSet.apply, TimedSet.refresh, TimedSet.erase,
      TimedSet.stored, cacheConf]

/-- It is never the newest of several. -/
private theorem idsOf_tail (id : Text) (left : Option Nat) :
    isTail cacheConf (idsOf id left) id = false := by
  cases left <;> rfl

/-- An identifier is in the cache while it has time left. -/
private theorem idsOf_has (id : Text) (left : Option Nat) :
    TimedSet.has cacheConf.equals (idsOf id left) id = left.isSome := by
  cases left <;> simp [idsOf, TimedSet.has, cacheConf]

/-- A tick takes one. -/
private theorem idsOf_tick (id : Text) {left : Option Nat}
    (h : ∀ k, left = some k → 1 < k) :
    TimedSet.tick (idsOf id left) = idsOf id (left.map (· - 1)) := by
  cases left with
  | none => rfl
  | some k =>
      have hk := h k rfl
      have hpos : k - 1 ≠ 0 := by omega
      simp [idsOf, TimedSet.tick, TimedSet.lower, hpos]

/-- What is sent for the first copy a router takes. -/
structure PassedOn (routers clients : List Sockaddr) (source : Sockaddr)
    (d : List UInt8) (p h : Nat) (sent : List UdpSend) : Prop where
  addr : sent.map UdpSend.addr
    = routers.filter (fun r => !ipAddrEquals r source) ++ clients
  payload : ∀ s ∈ sent, s.payload = some (hopped d p (h + 1))

/-- A router that receives it sees the hop count and the identifier. -/
private theorem takes_passable (hd : Fresh d p id) {h : Nat} {old : MsgInfo}
    {sender : Sockaddr} (hh : h < 3) (hold : old.msg.length = MSG_MAX) :
    passable (udpReceive old sender (hopped d p h)).msg = some (p, id) := by
  have hreads : Reads (hopped d p h)
      (udpReceive old sender (hopped d p h)).msg := ⟨old, sender, hold, rfl⟩
  rw [passable_congr (hreads.cstr_eq ((length_hopped d p h) ▸ hd.short)),
    hd.passable_hopped hh]

/-- The first copy below the limit is passed on. -/
private theorem takes_first {routers clients : List Sockaddr} {h : Nat}
    {old : MsgInfo} {sender : Sockaddr} (hd : Fresh d p id)
    (hst : Follows routers clients st (idsOf id none)) (hh : h < 3)
    (hold : old.msg.length = MSG_MAX) :
    ∃ st' sent, handleMessage st (udpReceive old sender (hopped d p h))
        = some (st', some sent)
      ∧ Follows routers clients st'
        (idsOf id (some cacheConf.interval.toNat))
      ∧ PassedOn routers clients (recvAddr old.addr sender) d p h sent := by
  obtain ⟨st', mi', out, hpass, hsome, hnext⟩ :=
    passOn_follows (udpReceive old sender (hopped d p h)) p hst
      (idsOf_tail id none)
  rw [idsOf_has] at hsome
  rw [idsOf_new id none] at hnext
  obtain ⟨sent, rfl⟩ := Option.isSome_iff_exists.mp hsome
  have hhandled : handleMessage st (udpReceive old sender (hopped d p h))
      = some (st', some sent) := by
    rw [handleMessage_passable (takes_passable hd hh hold), hpass]
    rfl
  refine ⟨st', sent, hhandled, hnext, ?_, ?_⟩
  · obtain ⟨p', id', -, hflood, -⟩ := handleMessage_flood hhandled
    obtain ⟨as, hring⟩ := hst.routers
    rw [floodMessage_spec hring hst.clients, Option.some.injEq] at hflood
    rw [← hflood, List.map_map]
    exact List.map_id _
  · obtain ⟨p', id', hpass', hpay⟩ := flooded_payload hold
      ((length_hopped d p h) ▸ hd.short) hhandled
    rw [hd.passable_hopped hh] at hpass'
    cases hpass'
    rw [← bump_hopped hd.lt]
    exact hpay

/-- Any other copy is dropped; one below the limit renews the id. -/
private theorem takes_later {routers clients : List Sockaddr} {h : Nat}
    {old : MsgInfo} {sender : Sockaddr} {left : Option Nat}
    (hd : Fresh d p id) (hst : Follows routers clients st (idsOf id left))
    (hh : h ≤ 3) (hold : old.msg.length = MSG_MAX)
    (hlater : left ≠ none ∨ 3 ≤ h) :
    ∃ st' left', handleMessage st (udpReceive old sender (hopped d p h))
        = some (st', none)
      ∧ Follows routers clients st' (idsOf id left')
      ∧ (left' = left
        ∨ left ≠ none ∧ left' = some cacheConf.interval.toNat) := by
  by_cases hlt : h < 3
  · have hleft : left ≠ none := hlater.resolve_right (by omega)
    obtain ⟨k, rfl⟩ := Option.ne_none_iff_exists'.mp hleft
    obtain ⟨st', mi', out, hpass, hsome, hnext⟩ :=
      passOn_follows (udpReceive old sender (hopped d p h)) p hst
        (idsOf_tail id (some k))
    rw [idsOf_has] at hsome
    rw [idsOf_new id (some k)] at hnext
    cases out with
    | some sent => cases hsome
    | none =>
        refine ⟨st', _, ?_, hnext, Or.inr ⟨hleft, rfl⟩⟩
        rw [handleMessage_passable (takes_passable hd hlt hold), hpass]
        rfl
  · obtain rfl : h = 3 := by omega
    refine ⟨st, left, ?_, hst, Or.inl rfl⟩
    apply handleMessage_limit (hd.passable_hopped (h := 2) (by decide))
    · rw [byteAt_hopped hd.lt]
      rfl
    · have hreads : Reads (hopped d p 3)
          (udpReceive old sender (hopped d p 3)).msg :=
        ⟨old, sender, hold, rfl⟩
      rw [bump_hopped hd.lt]
      exact hreads.cstr_eq ((length_hopped d p 3) ▸ hd.short)

/-- Every datagram sent is a packet to where it was sent. -/
private theorem emit_dst {path : List N} {sends : List UdpSend}
    {packets : List (Packet N)} (h : emit path sends = some packets) :
    packets.map Packet.dst = sends.map UdpSend.addr := by
  induction sends generalizing packets with
  | nil =>
      cases h
      rfl
  | cons s sends ih =>
      simp only [emit, bind, Option.bind_eq_some_iff] at h
      obtain ⟨payload, -, rest, hrest, h⟩ := h
      cases h
      simp [ih hrest]

-- ==================================================================== simulation

/-- Who sends to whom. -/
def Place.graph (pl : Place N) : Gossip.Graph Sockaddr N where
  host := pl.host
  dests n := pl.routers n ++ pl.clients n

/-- A datagram as a copy of the message. -/
def Packet.copy (q : Packet N) : Gossip.Copy Sockaddr N where
  dst := q.dst
  path := q.path

/-- What a router's cache says of the message: nothing until it has heard
of it, and then that it has had it for no more than its ticks. -/
def Remembers (heard : Option (List N)) (ticks : Nat) (left : Option Nat) :
    Prop :=
  left.isSome = heard.isSome
    ∧ ∀ k, left = some k → cacheConf.interval.toNat ≤ k + ticks

/-- The datagrams are the copies of the message, and the caches say who
has heard of it. -/
structure Carries (pl : Place N) (d : List UInt8) (p : Nat) (id : Text)
    (w : Wave N) (s : Gossip.State Sockaddr N) : Prop where
  flight : s.flight = w.flight.map Packet.copy
  taken : s.taken = w.taken.map Packet.copy
  floods : s.passed = w.floods
  copies : ∀ q ∈ w.flight ++ w.taken,
    q.payload = hopped d p q.path.length ∧ q.path.length ≤ 3
  early : ∀ n, w.ticks n < cacheConf.interval.toNat
  routers : ∀ n, ∃ left, Follows (pl.routers n) (pl.clients n) (w.router n)
    (idsOf id left) ∧ Remembers (s.heard n) (w.ticks n) left

variable {pl : Place N} {w w' : Wave N} {s : Gossip.State Sockaddr N}

/-- What a router sends for a datagram is a message passed on. -/
theorem PassedOn.passes {n : N} {q : Packet N} {old : Sockaddr}
    {sent : List UdpSend} {packets : List (Packet N)}
    (h : PassedOn (pl.routers n) (pl.clients n)
      (recvAddr old (pl.sender q)) d p q.path.length sent)
    (hemit : emit (q.path ++ [n]) sent = some packets) :
    Gossip.Passes pl.graph n q.copy (packets.map Packet.copy)
      ∧ ∀ y ∈ packets, y.payload = hopped d p y.path.length
        ∧ y.path.length = q.path.length + 1 := by
  obtain ⟨hlen, hall⟩ := emit_spec hemit
  have hdst := emit_dst hemit
  rw [h.addr] at hdst
  refine ⟨⟨fun y hy => ?_, fun a ha => ?_, ?_⟩, fun y hy => ?_⟩
  · obtain ⟨y, hin, rfl⟩ := List.mem_map.mp hy
    obtain ⟨hpath, -⟩ := hall y hin
    have hmem : y.dst ∈ packets.map Packet.dst := List.mem_map_of_mem hin
    rw [hdst, List.mem_append] at hmem
    exact ⟨List.mem_append.mpr (hmem.imp_left List.mem_of_mem_filter), hpath⟩
  · by_cases hsent : a ∈ packets.map Packet.dst
    · obtain ⟨y, hy, rfl⟩ := List.mem_map.mp hsent
      exact Or.inl ⟨y.copy, List.mem_map_of_mem hy, rfl⟩
    · -- an address left out is the one the datagram comes from
      rw [hdst, List.mem_append, List.mem_filter] at hsent
      rcases List.mem_append.mp ha with ha | ha
      · right
        have hskip : ipAddrEquals a (recvAddr old (pl.sender q)) = true := by
          by_contra hne
          exact hsent (Or.inl ⟨ha, by simpa using hne⟩)
        exact pl.skips n q.via old a ha hskip
      · exact absurd (Or.inr ha) hsent
  · have hle := List.length_filter_le
      (fun r => !ipAddrEquals r (recvAddr old (pl.sender q))) (pl.routers n)
    have hcount := congrArg List.length hdst
    simp only [List.length_map, List.length_append] at hcount
    rw [List.length_map, hcount, Place.graph, List.length_append]
    exact Nat.add_le_add_right hle _
  · obtain ⟨hpath, s', hs', hpay⟩ := hall y hy
    have hy' : y.path.length = q.path.length + 1 := by
      rw [hpath, List.length_append, List.length_singleton]
    rw [h.payload s' hs', Option.some.injEq] at hpay
    exact ⟨hy' ▸ hpay.symm, hy'⟩

/-- What a router does with a datagram of the run. -/
theorem Carries.takes {n : N} {q : Packet N} {old : MsgInfo}
    (hd : Fresh d p id) (h : Carries pl d p id w s) (hq : q ∈ w.flight)
    (hold : old.msg.length = MSG_MAX) :
    (s.heard n = none ∧ q.path.length < 3 ∧ ∃ st sent,
        handleMessage (w.router n) (udpReceive old (pl.sender q) q.payload)
          = some (st, some sent)
        ∧ Follows (pl.routers n) (pl.clients n) st
          (idsOf id (some cacheConf.interval.toNat))
        ∧ PassedOn (pl.routers n) (pl.clients n)
          (recvAddr old.addr (pl.sender q)) d p q.path.length sent)
      ∨ (s.heard n ≠ none ∨ 3 ≤ q.path.length) ∧ ∃ st left,
        handleMessage (w.router n) (udpReceive old (pl.sender q) q.payload)
          = some (st, none)
        ∧ Follows (pl.routers n) (pl.clients n) st (idsOf id left)
        ∧ Remembers (s.heard n) (w.ticks n) left := by
  obtain ⟨hpay, hle⟩ := h.copies q (List.mem_append_left _ hq)
  obtain ⟨left, hst, hsome, hticks⟩ := h.routers n
  rw [hpay]
  by_cases hfirst : s.heard n = none ∧ q.path.length < 3
  · obtain ⟨hnone, hlt⟩ := hfirst
    rw [hnone, Option.isSome_none, Option.isSome_eq_false_iff,
      Option.isNone_iff_eq_none] at hsome
    subst hsome
    exact Or.inl ⟨hnone, hlt, takes_first hd hst hlt hold⟩
  · have hlater : s.heard n ≠ none ∨ 3 ≤ q.path.length := by
      rw [not_and_or, Nat.not_lt] at hfirst
      exact hfirst
    -- what it has heard is what its cache has
    have hleft : left ≠ none ∨ 3 ≤ q.path.length := by
      refine hlater.imp_left fun hne => ?_
      rw [← Option.isSome_iff_ne_none, hsome, Option.isSome_iff_ne_none]
      exact hne
    obtain ⟨st, left', hhandled, hnext, hsame⟩ :=
      takes_later hd hst hle hold hleft
    refine Or.inr ⟨hlater, st, left', hhandled, hnext, ?_⟩
    rcases hsame with rfl | ⟨hne, rfl⟩
    · exact ⟨hsome, hticks⟩
    · refine ⟨?_, fun k hk => ?_⟩
      · rw [← hsome, Option.isSome_some]
        exact (Option.isSome_iff_ne_none.mpr hne).symm
      · rw [Option.some.injEq] at hk
        omega

variable [DecidableEq N]

/-- The caches, when one router has taken a copy. -/
theorem Carries.update {n : N} {heard : N → Option (List N)}
    {router : N → RouterState} {ticks : N → Nat} {left : Option Nat}
    {k : Option (List N)} {t : Nat}
    (h : ∀ m, ∃ left, Follows (pl.routers m) (pl.clients m) (router m)
      (idsOf id left) ∧ Remembers (heard m) (ticks m) left)
    (hn : Follows (pl.routers n) (pl.clients n) st (idsOf id left))
    (hleft : Remembers k t left) (m : N) :
    ∃ left, Follows (pl.routers m) (pl.clients m)
        (Function.update router n st m) (idsOf id left)
      ∧ Remembers (Function.update heard n k m)
        (Function.update ticks n t m) left := by
  by_cases hmn : m = n
  · subst hmn
    simp only [Function.update_self]
    exact ⟨left, hn, hleft⟩
  · simp only [Function.update_of_ne hmn]
    exact h m

/-- A datagram taken is a copy taken. -/
private theorem carries_take (hd : Fresh d p id) (h : Carries pl d p id w s)
    (hstep : Wave.Take pl w w') :
    ∃ s', Gossip.Step pl.graph 3 s s' ∧ Carries pl d p id w' s' := by
  obtain ⟨heard, passed, flight, taken⟩ := s
  cases hstep with
  | @client router ticks floods pre post done q away =>
      obtain rfl : passed = floods := h.floods
      obtain ⟨rfl, rfl, -, hcopies, hearly, hrouters⟩ := h
      refine ⟨⟨heard, passed, (pre ++ post).map Packet.copy,
        (done ++ [q]).map Packet.copy⟩, ?_, rfl, rfl, rfl, fun y hy =>
        hcopies y (Gossip.mem_drop.mp hy), hearly, hrouters⟩
      simp only [List.map_append, List.map_cons, List.map_nil]
      exact .drop fun n hn => absurd (away.symm.trans hn) (by simp)
  | @router router ticks floods pre post done q n old st sends packets here
      fresh handled emitted =>
      have htakes := @Carries.takes _ _ _ _ _ _ _ n q old hd h (by simp) fresh
      obtain rfl : passed = floods := h.floods
      obtain ⟨rfl, rfl, -, hcopies, hearly, hrouters⟩ := h
      -- a router that has not heard of the message passes it on; one that
      -- has, or that is three hops away, drops it
      rcases htakes with ⟨hnone, hlt, st₁, sent, hst₁, hnext, hsent⟩ |
        ⟨hlater, st₁, left, hst₁, hnext, hleft⟩
      · rw [handled] at hst₁
        cases hst₁
        obtain ⟨hpasses, hnew⟩ := hsent.passes emitted
        refine ⟨⟨Function.update heard n (some q.path), passed ++ [n],
          (pre ++ post ++ packets).map Packet.copy,
          (done ++ [q]).map Packet.copy⟩, ?_, rfl, rfl, rfl, fun y hy => ?_,
          hearly, fun m => ?_⟩
        · simp only [List.map_append, List.map_cons, List.map_nil]
          exact .pass here hnone hlt hpasses
        · rcases Gossip.mem_take.mp hy with hy | hy
          · exact hcopies y hy
          · obtain ⟨hpay, hlen⟩ := hnew y hy
            exact ⟨hpay, by omega⟩
        · have hfull : Remembers (some q.path) (ticks n)
              (some cacheConf.interval.toNat) :=
            ⟨rfl, fun k hk => by rw [Option.some.injEq] at hk; omega⟩
          have hall := Carries.update hrouters hnext hfull m
          rwa [Function.update_eq_self] at hall
      · rw [handled] at hst₁
        cases hst₁
        obtain rfl : packets = [] := by simpa [emit] using emitted.symm
        refine ⟨⟨heard, passed, (pre ++ post ++ []).map Packet.copy,
          (done ++ [q]).map Packet.copy⟩, ?_, rfl, rfl,
          (List.append_nil passed).symm, fun y hy => ?_, hearly, fun m => ?_⟩
        · simp only [List.map_append, List.map_cons, List.map_nil,
            List.append_nil]
          refine .drop fun m hm => ?_
          obtain rfl : n = m := Option.some.inj (here.symm.trans hm)
          exact hlater
        · rw [List.append_nil] at hy
          exact hcopies y (Gossip.mem_drop.mp hy)
        · have hall := Carries.update hrouters hnext hleft m
          rwa [Function.update_eq_self, Function.update_eq_self] at hall

/-- A tick leaves everybody who has heard of the message knowing it. -/
private theorem carries_tick {n : N} {t : Table Text}
    (h : Carries pl d p id w s)
    (early : w.ticks n + 1 < cacheConf.interval.toNat)
    (ticked : (deltaTick cacheConf (w.router n).msgCache).map Prod.fst
      = some t) :
    Carries pl d p id { w with
      router := Function.update w.router n { w.router n with msgCache := t }
      ticks := Function.update w.ticks n (w.ticks n + 1) } s := by
  obtain ⟨hflight, htaken, hfloods, hcopies, hearly, hrouters⟩ := h
  refine ⟨hflight, htaken, hfloods, hcopies, fun m => ?_, fun m => ?_⟩
  · by_cases hmn : m = n
    · subst hmn
      simpa only [Function.update_self] using early
    · simpa only [Function.update_of_ne hmn] using hearly m
  · obtain ⟨left, hst, hsome, hticks⟩ := hrouters n
    obtain ⟨r, hr, hsim⟩ := deltaTick_ids hst.cache
    rw [hr, Option.map_some, Option.some.injEq] at ticked
    subst ticked
    rw [idsOf_tick id fun k hk => by have := hticks k hk; omega] at hsim
    have hnext : Follows (pl.routers n) (pl.clients n)
        { w.router n with msgCache := r.1 } (idsOf id (left.map (· - 1))) :=
      ⟨hst.routers, hst.clients, hsim⟩
    have hleft : Remembers (s.heard n) (w.ticks n + 1)
        (left.map (· - 1)) := by
      refine ⟨by rw [Option.isSome_map, hsome], fun k hk => ?_⟩
      obtain ⟨j, hj, rfl⟩ := Option.map_eq_some_iff.mp hk
      have := hticks j hj
      omega
    have hall := Carries.update hrouters hnext hleft m
    rwa [Function.update_eq_self] at hall

/-- Whatever is in flight can be taken. -/
theorem Carries.goes_on (hd : Fresh d p id) (h : Carries pl d p id w s)
    (hne : w.flight ≠ []) : ∃ w', Wave.Take pl w w' := by
  obtain ⟨router, ticks, floods, flight, taken⟩ := w
  obtain ⟨q, rest, rfl⟩ := List.exists_cons_of_ne_nil hne
  cases hhost : pl.host q.dst with
  | none =>
      exact ⟨_, @Wave.Take.client _ _ pl router ticks floods [] rest taken q
        hhost⟩
  | some n =>
      let old : MsgInfo := ⟨0, Sockaddr.zero, List.replicate MSG_MAX 0⟩
      have hold : old.msg.length = MSG_MAX := List.length_replicate
      obtain ⟨-, -, st, sent, hst, -, hsent⟩ | ⟨-, st, left, hst, -⟩ :=
        @Carries.takes _ _ _ _ _ _ _ n q old hd h (List.mem_cons_self ..)
          hold
      · obtain ⟨packets, hemit⟩ := emit_total (q.path ++ [n]) fun s hs =>
          ⟨_, hsent.payload s hs⟩
        exact ⟨_, @Wave.Take.router _ _ pl router ticks floods [] rest taken q
          n old st (some sent) packets hhost hold hst hemit⟩
      · exact ⟨_, @Wave.Take.router _ _ pl router ticks floods [] rest taken q
          n old st none [] hhost hold hst rfl⟩

-- ==================================================================== all of it

/-- The routers have their lists and their clients, and have heard of
nothing yet. -/
def Place.Quiet (pl : Place N) (router : N → RouterState) : Prop :=
  ∀ n, (∃ as, Holds (router n).routers .routers as (pl.routers n))
    ∧ members (router n).clientTable = some (pl.clients n)
    ∧ (router n).msgCache = Table.empty

/-- The routers before the broadcast `d`, which is for `dst`. -/
def Wave.start (router : N → RouterState) (dst : Sockaddr)
    (d : List UInt8) : Wave N where
  router := router
  ticks := fun _ => 0
  floods := []
  flight := [⟨dst, d, []⟩]
  taken := []

/-- As many datagrams as there are destinations, and one. -/
def Place.limit [Fintype N] (pl : Place N) : Nat :=
  1 + ∑ n, ((pl.routers n).length + (pl.clients n).length)

/-- What a broadcast that `src` takes first comes to. -/
structure Reaches [Fintype N] (pl : Place N) (d : List UInt8) (p : Nat)
    (src : N) (w : Wave N) : Prop where
  goes_on : w.flight ≠ [] → ∃ w', Wave.Take pl w w'
  few : w.flight.length + w.taken.length ≤ pl.limit
  once : w.floods.Nodup
  ends : ∃ w', Relation.ReflTransGen (Wave.Take pl) w w' ∧ w'.flight = []
  copies : ∀ q ∈ w.flight ++ w.taken, q.payload = hopped d p q.path.length
    ∧ q.path.length ≤ MAX_HOPS.toNat - 1
  walks : ∀ q ∈ w.flight ++ w.taken, ∀ path n, q.path = path ++ [n] →
    Gossip.Walk pl.graph src path n ∧ (∀ m ∈ q.path, m ∈ w.floods)
      ∧ q.dst ∈ pl.routers n ++ pl.clients n
  delivers : w.flight = [] → ∀ n,
    n = src ∨ (∃ r ∈ pl.routers src, pl.host r = some n) →
      n ∈ w.floods ∧ ∀ a ∈ pl.routers n ++ pl.clients n, ∃ q ∈ w.taken,
        q.dst = a ∨ ∃ m, pl.host a = some m ∧ pl.host q.dst = some m

/-- A run is a run of hop-limited flooding. -/
theorem carries_run {router : N → RouterState} {dst : Sockaddr}
    (hd : Fresh d p id) (hquiet : pl.Quiet router)
    (hrun : Relation.ReflTransGen (Wave.Step pl) (.start router dst d) w) :
    ∃ s, Relation.ReflTransGen (Gossip.Step pl.graph 3)
        (Gossip.State.init dst) s ∧ Carries pl d p id w s := by
  induction hrun with
  | refl =>
      refine ⟨_, .refl, rfl, rfl, rfl, fun q hq => ?_, fun n => ?_,
        fun n => ?_⟩
      · have hq' : q = ⟨dst, d, []⟩ := by simpa [Wave.start] using hq
        subst hq'
        exact ⟨hd.hopped_zero.symm, Nat.zero_le 3⟩
      · exact show 0 < cacheConf.interval.toNat by decide
      · obtain ⟨hrouters, hclients, hcache⟩ := hquiet n
        exact ⟨none, ⟨hrouters, hclients, hcache ▸ sim_init cacheConf⟩, rfl,
          nofun⟩
  | tail _ hstep ih =>
      obtain ⟨s, hrun, hcarries⟩ := ih
      cases hstep with
      | take htake =>
          obtain ⟨s', hstep', hcarries'⟩ := carries_take hd hcarries htake
          exact ⟨s', hrun.tail hstep', hcarries'⟩
      | tick early ticked =>
          exact ⟨s, hrun, carries_tick hcarries early ticked⟩

omit [DecidableEq N] in
/-- There are no more datagrams than copies. -/
theorem Carries.few [Fintype N] {src : N} (h : Carries pl d p id w s)
    (hinv : Gossip.Inv pl.graph 3 src s.heard s.passed s.flight s.taken) :
    w.flight.length + w.taken.length ≤ pl.limit := by
  have hfew := hinv.copies_le
  rw [h.flight, h.taken] at hfew
  simpa [Place.graph, Place.limit] using hfew

/-- Taking a packet adds it to those taken. -/
theorem Wave.Take.taken_length (h : Wave.Take pl w w') :
    w'.taken.length = w.taken.length + 1 := by
  cases h <;> simp

/-- A run can be carried on until nothing is in flight. -/
theorem Carries.ends [Fintype N] {src : N} {dst : Sockaddr}
    (hd : Fresh d p id) (hsrc : pl.host dst = some src)
    (hrun : Relation.ReflTransGen (Gossip.Step pl.graph 3)
      (Gossip.State.init dst) s) (h : Carries pl d p id w s) :
    ∃ w', Relation.ReflTransGen (Wave.Take pl) w w' ∧ w'.flight = [] := by
  induction hn : pl.limit - w.taken.length generalizing w s with
  | zero =>
      have hfew := h.few (Gossip.Inv.reaches (D := 3) (by decide)
        (show pl.graph.host dst = some src from hsrc) hrun)
      exact ⟨w, .refl, List.eq_nil_of_length_eq_zero (by omega)⟩
  | succ k ih =>
      by_cases hend : w.flight = []
      · exact ⟨w, .refl, hend⟩
      · obtain ⟨w', hstep⟩ := h.goes_on hd hend
        obtain ⟨s', hstep', h'⟩ := carries_take hd h hstep
        have hlen := hstep.taken_length
        obtain ⟨w'', hrest, hend'⟩ := ih (hrun.tail hstep') h' (by omega)
        exact ⟨w'', .head hstep hrest, hend'⟩

/-- A broadcast nobody has forwarded yet spreads to an end: it reaches
the first router and those it knows, and from each of them whoever it
sends to; no router passes it on twice, and what a router passes on has
come to it from router to router, each of which sends to the next. -/
theorem broadcast_reaches [Fintype N] {router : N → RouterState}
    {dst : Sockaddr} {src : N} (hd : Fresh d p id)
    (hquiet : pl.Quiet router) (hsrc : pl.host dst = some src)
    (hrun : Relation.ReflTransGen (Wave.Step pl) (.start router dst d) w) :
    Reaches pl d p src w := by
  obtain ⟨s, hgossip, hcarries⟩ := carries_run hd hquiet hrun
  have hinv := Gossip.Inv.reaches (D := 3) (by decide)
    (show pl.graph.host dst = some src from hsrc) hgossip
  have hgoes := fun hne => hcarries.goes_on hd hne
  have hends := hcarries.ends hd hsrc hgossip
  have hfew := hcarries.few hinv
  obtain ⟨heard, passed, flight, taken⟩ := s
  obtain ⟨rfl, rfl, rfl, hcopies, -⟩ := hcarries
  have hmem : ∀ q ∈ w.flight ++ w.taken,
      q.copy ∈ w.flight.map Packet.copy ++ w.taken.map Packet.copy := by
    intro q hq
    rw [← List.map_append]
    exact List.mem_map_of_mem hq
  refine ⟨hgoes, hfew, hinv.once.1, hends, hcopies,
    fun q hq path n hpath => ?_, fun hend n hn => ?_⟩
  · obtain ⟨hwalk, hdst, hflood⟩ := hinv.path_walk (hmem q hq) hpath
    exact ⟨hwalk, hflood, hdst⟩
  · rw [hend] at hinv
    have hroot := hinv.first_heard
    obtain ⟨k, hk⟩ : ∃ k, heard n = some k := by
      rcases hn with rfl | ⟨r, hr, hhost⟩
      · exact ⟨[], hroot⟩
      · exact hinv.next_heard hroot (show 1 < 3 by decide)
          (List.mem_append_left _ hr) hhost
    have hflood : n ∈ w.floods :=
      (hinv.once.2 n).mpr fun hnone => absurd (hk.symm.trans hnone) (by simp)
    refine ⟨hflood, fun a ha => ?_⟩
    obtain ⟨c, hc, hdst⟩ := hinv.delivered hk ha
    obtain ⟨q, hq, rfl⟩ := List.mem_map.mp hc
    exact ⟨q, hq, hdst⟩

-- ============================================================== an example

/-- Of an IPv6 sender the test sees the first eight bytes. -/
private theorem ipAddrEquals_prefix {r old sender : Sockaddr}
    (h : ipAddrEquals r (recvAddr old sender) = true)
    (h6 : r.ssFamily ≠ AF_INET) :
    ∀ i : Fin 8, r.sin6Addr[i.val] = sender.sin6Addr[i.val] := by
  intro i
  unfold ipAddrEquals at h
  rw [recvAddr_ssFamily] at h
  split at h
  · cases h
  · rw [beq_iff_eq] at h
    have hlt := i.isLt
    rw [h, recvAddr]
    simp [hlt]

/-- A host of the network `b`. -/
def net6 (b : UInt8) : Sockaddr := { Sockaddr.zero with
  ssFamily := AF_INET6
  port := 45845
  sin6Addr := Vector.ofFn fun i => if i.val = 0 then b else 0 }

/-- Hosts of different networks are told apart. -/
private theorem net6_inj {a b : UInt8} {old : Sockaddr}
    (h : ipAddrEquals (net6 a) (recvAddr old (net6 b)) = true) : a = b := by
  have h6 : (net6 a).ssFamily ≠ AF_INET := show AF_INET6 ≠ AF_INET by decide
  have hfirst := ipAddrEquals_prefix h h6 0
  simpa [net6] using hfirst

/-- Where the four routers are. -/
def corner (n : Fin 4) : UInt8 := UInt8.ofNat n.val + 1

/-- Different routers have different addresses. -/
private theorem corner_inj : ∀ n m, corner n = corner m → n = m := by decide

/-- The client is none of the routers. -/
private theorem corner_ne : ∀ n, corner n ≠ 9 := by decide

/-- A router is found by its address. -/
private theorem corner_host : ∀ m : Fin 4, ((List.finRange 4).find? fun n =>
    net6 (corner m) = net6 (corner n)) = some m := by decide

/-- Four routers in a ring, each with a client; each knows its two
neighbours. -/
def square : Place (Fin 4) where
  host a := (List.finRange 4).find? fun n => a = net6 (corner n)
  addr n := net6 (corner n)
  outside := net6 9
  routers n := [net6 (corner (n + 1)), net6 (corner (n + 3))]
  clients n := [net6 (corner n + 16)]
  skips n via old r hr h := by
    obtain ⟨m, rfl⟩ : ∃ m, r = net6 (corner m) := by
      simp only [List.mem_cons, List.not_mem_nil, or_false] at hr
      rcases hr with rfl | rfl <;> exact ⟨_, rfl⟩
    refine ⟨m, corner_host m, ?_⟩
    cases via with
    | none => exact absurd (net6_inj h) (corner_ne m)
    | some k => exact congrArg some (corner_inj m k (net6_inj h)).symm

/-- A router that knows others, and a client. -/
def knowing (sas : List Sockaddr) (client : Sockaddr) : RouterState :=
  { RouterState.boot with
    routers := (addEntries Router.boot .routers sas).getD Router.boot
    clientTable := ((deltaUpdate clientConf Table.empty client).map
      Prod.snd).getD Table.empty }

/-- A router that knows others has them on its list. -/
private theorem knowing_holds (sas : List Sockaddr) (client : Sockaddr) :
    ∃ as, Holds (knowing sas client).routers .routers as sas := by
  obtain ⟨m, as, hm, h, -⟩ := addEntries_spec (by simp) sas boot_holds
  refine ⟨as, ?_⟩
  rw [knowing, hm]
  exact h

/-- It has its client in its table. -/
private theorem knowing_members (sas : List Sockaddr) (client : Sockaddr) :
    members (knowing sas client).clientTable = some [client] := by
  obtain ⟨t, ht, hmem⟩ := members_first clientConf client
  rw [knowing, ht]
  exact hmem

/-- The routers of the square. -/
def corners (n : Fin 4) : RouterState :=
  knowing (square.routers n) (net6 (corner n + 16))

/-- Around the square a broadcast comes to the far corner's client too,
and no router passes it on twice. -/
theorem broadcast_reaches_square :
    ∃ w, Relation.ReflTransGen (Wave.Step square)
        (.start corners (net6 (corner 0)) (broadcastText "a")) w
      ∧ w.flight = [] ∧ Reaches square (broadcastText "a") 30 0 w := by
  have hd : Fresh (broadcastText "a") 30 (ascii "a") :=
    ⟨by decide, by decide +kernel, by decide⟩
  have hquiet : square.Quiet corners :=
    fun n => ⟨knowing_holds _ _, knowing_members _ _, rfl⟩
  have hsrc : square.host (net6 (corner 0)) = some 0 := by decide
  obtain ⟨w, hrun, hend⟩ := (broadcast_reaches hd hquiet hsrc .refl).ends
  have hsteps : Relation.ReflTransGen (Wave.Step square) _ w :=
    Relation.ReflTransGen.mono (fun _ _ => Wave.Step.take) _ _ hrun
  exact ⟨w, hsteps, hend, broadcast_reaches hd hquiet hsrc hsteps⟩

end Psnet.Router
