/-
The recipients of a flooded message.

`ip_addr_equals` negates the comparison of two IPv4 addresses, so among
the routers of one family with an IPv4 sender the skip test picks the
complement of what it is meant to pick (`ipAddrEquals_inet`); in every
other case it is right. `flood_recipients` is the exact condition under
which the right routers get the message.

# Which test is made

For a router `r` and a sender `s` the test skips `r` when `r` is `s` (both
of IPv6), when it is not (both of IPv4), and never when their families
differ. The walk over the table of clients takes no such test
(`visit_fwdToClient`).
-/
import Psnet.DeltaList.Invariant
import Psnet.Router.Model

namespace Psnet.Router

open Net DeltaList Client

/-- Who is to get a message from `sender`: the routers at another IP
address, and every client. -/
def recipients (routers clients : List Sockaddr) (sender : Sockaddr) :
    List Sockaddr :=
  routers.filter (fun r => !decide (SameIp r sender)) ++ clients

/-- The message goes once to each recipient and to nobody else. -/
def FloodsToRecipients (m : Mem) (clientTable : Table Sockaddr)
    (mi : MsgInfo) (routers clients : List Sockaddr) : Prop :=
  ∃ sent, floodMessage m clientTable mi = some sent
    ∧ sent.Perm ((recipients routers clients mi.addr).map
        fun sa => ⟨sa, mi.len, mi.msg⟩)

-- ============================================================ the skip test

/-- Outside the IPv4 branch the skip test is right. -/
private theorem ipAddrEquals_inet6 {a b : Sockaddr} (ha : a.IsInet)
    (h : b.ssFamily = AF_INET6 ∨ a.ssFamily ≠ AF_INET) :
    ipAddrEquals a b = decide (SameIp a b) := by
  unfold ipAddrEquals SameIp
  by_cases hf : a.ssFamily = b.ssFamily
  · have h6 : a.ssFamily = AF_INET6 := by
      rcases h with h | h
      · exact hf.trans h
      · exact ha.resolve_left h
    simp [← hf, h6, AF_INET, AF_INET6, beq_eq_decide]
  · simp [hf]

/-- In the IPv4 branch it is the complement of what it should be. -/
private theorem ipAddrEquals_inet {a b : Sockaddr} (ha : a.ssFamily = AF_INET)
    (hb : b.ssFamily = AF_INET) :
    ipAddrEquals a b = !decide (SameIp a b) := by
  unfold ipAddrEquals SameIp
  simp [ha, hb, AF_INET, AF_INET6, bne, beq_eq_decide]

-- ================================================================= the loops

/-- The router loop sends to every router the skip test lets pass. -/
theorem floodLoop_spec {m : Mem} {mi : MsgInfo} {as : List Ptr}
    {sas : List Sockaddr} (h : as.map (listEntryAddr m) = sas.map some)
    (sent : List UdpSend) :
    floodLoop m mi as sent
      = some (sent ++ (sas.filter fun r => !ipAddrEquals r mi.addr).map
          fun sa => ⟨sa, mi.len, mi.msg⟩) := by
  induction as generalizing sas sent with
  | nil =>
      obtain rfl : sas = [] := by simpa using h.symm
      simp [floodLoop]
  | cons a as ih =>
      cases sas with
      | nil => cases h
      | cons sa sas =>
          obtain ⟨ha, hrest⟩ := List.cons.inj h
          simp only [floodLoop, ha, bind, Option.bind_some, ih hrest]
          by_cases hsk : ipAddrEquals sa mi.addr = true
          · simp [hsk]
          · simp [hsk]

/-- The client loop sends to every client. -/
private theorem visit_fwdToClient (mi : MsgInfo) (clients : List Sockaddr)
    (sent : List UdpSend) :
    visit (fwdToClient mi) clients sent
      = sent ++ clients.map fun sa => ⟨sa, mi.len, mi.msg⟩ := by
  induction clients generalizing sent with
  | nil => simp [visit]
  | cons sa clients ih => simp [visit, fwdToClient, ih]

/-- What `flood_message` sends: the message to every router the skip
test lets pass and to every client. -/
theorem floodMessage_spec {m : Mem} {clientTable : Table Sockaddr}
    {mi : MsgInfo} {as : List Ptr} {routers clients : List Sockaddr}
    (hr : Holds m .routers as routers)
    (hc : members clientTable = some clients) :
    floodMessage m clientTable mi
      = some (((routers.filter fun r => !ipAddrEquals r mi.addr)
          ++ clients).map fun sa => ⟨sa, mi.len, mi.msg⟩) := by
  simp only [floodMessage, listForEach_spec hr, bind, Option.bind_some,
    floodLoop_spec hr.addrs, List.nil_append, floodToClients,
    deltaForeach_members hc, visit_fwdToClient, List.map_append]

/-- The routers and the clients a `flood_message` goes through. -/
structure Roster (m : Mem) (clientTable : Table Sockaddr)
    (routers clients : List Sockaddr) : Prop where
  list : ∃ its, listForEach m .routers = some its
    ∧ its.map (listEntryAddr m) = routers.map some
  table : members clientTable = some clients

theorem Roster.unique {m : Mem} {clientTable : Table Sockaddr}
    {routers clients routers' clients' : List Sockaddr}
    (h : Roster m clientTable routers clients)
    (h' : Roster m clientTable routers' clients') :
    routers = routers' ∧ clients = clients' := by
  obtain ⟨⟨its, hits, hmap⟩, ht⟩ := h
  obtain ⟨⟨its', hits', hmap'⟩, ht'⟩ := h'
  obtain rfl := Option.some.inj (hits.symm.trans hits')
  exact ⟨List.map_injective_iff.mpr (Option.some_injective _)
    (hmap.symm.trans hmap'), Option.some.inj (ht.symm.trans ht')⟩

/-- A `flood_message` that comes to its end has gone through some, and
has sent the message to every router the skip test lets pass and to every
client. -/
theorem floodMessage_roster {m : Mem} {clientTable : Table Sockaddr}
    {mi : MsgInfo} {sent : List UdpSend}
    (h : floodMessage m clientTable mi = some sent) :
    ∃ routers clients, Roster m clientTable routers clients
      ∧ sent = ((routers.filter fun r => !ipAddrEquals r mi.addr)
          ++ clients).map fun sa => ⟨sa, mi.len, mi.msg⟩ := by
  have hloop : ∀ (its : List Ptr) (sent sent' : List UdpSend),
      floodLoop m mi its sent = some sent' →
      ∃ sas : List Sockaddr, its.map (listEntryAddr m) = sas.map some := by
    intro its
    induction its with
    | nil => exact fun _ _ _ => ⟨[], rfl⟩
    | cons it its ih =>
        intro sent sent' hl
        simp only [floodLoop, bind, Option.bind_eq_some_iff] at hl
        obtain ⟨sa, hsa, hl⟩ := hl
        obtain ⟨sas, hsas⟩ : ∃ sas : List Sockaddr,
            its.map (listEntryAddr m) = sas.map some := by
          split at hl
          · exact ih _ _ hl
          · exact ih _ _ hl
        exact ⟨sa :: sas, by rw [List.map_cons, List.map_cons, hsa, hsas]⟩
  simp only [floodMessage, bind, Option.bind_eq_some_iff] at h
  obtain ⟨its, hits, sent₁, h₁, h₂⟩ := h
  obtain ⟨routers, hr⟩ := hloop its [] sent₁ h₁
  obtain ⟨clients, hc⟩ := members_of_foreach (fun _ _ => rfl) h₂
  rw [floodLoop_spec hr, Option.some.injEq, List.nil_append] at h₁
  subst h₁
  rw [floodToClients, deltaForeach_members hc, visit_fwdToClient,
    Option.some.injEq] at h₂
  exact ⟨routers, clients, ⟨⟨its, hits, hr⟩, hc⟩,
    by rw [← h₂, List.map_append]⟩

/-- Whatever the tables hold, every datagram sent is the message. -/
theorem floodMessage_sends {m : Mem} {clientTable : Table Sockaddr}
    {mi : MsgInfo} {sent : List UdpSend}
    (h : floodMessage m clientTable mi = some sent) :
    ∀ s ∈ sent, s.len = mi.len ∧ s.msg = mi.msg := by
  obtain ⟨routers, clients, -, rfl⟩ := floodMessage_roster h
  intro s hs
  obtain ⟨sa, -, rfl⟩ := List.mem_map.mp hs
  exact ⟨rfl, rfl⟩

/-- Whom a message is sent to depends on its sender's host only. -/
theorem floodMessage_host (m : Mem) (clientTable : Table Sockaddr)
    (mi mi' : MsgInfo) (h : SameHost mi.addr mi'.addr) :
    Option.Rel (fun sent sent' : List UdpSend =>
        sent.map UdpSend.addr = sent'.map UdpSend.addr)
      (floodMessage m clientTable mi) (floodMessage m clientTable mi') := by
  obtain ⟨hf, h4, h6⟩ := h.fields
  have hskip : ∀ a, ipAddrEquals a mi.addr = ipAddrEquals a mi'.addr := by
    intro a
    simp only [ipAddrEquals, hf, h4, h6]
  have hloop : ∀ (its : List Ptr) (sent sent' : List UdpSend),
      sent.map UdpSend.addr = sent'.map UdpSend.addr →
      Option.Rel (fun s s' : List UdpSend =>
          s.map UdpSend.addr = s'.map UdpSend.addr)
        (floodLoop m mi its sent) (floodLoop m mi' its sent') := by
    intro its
    induction its with
    | nil => exact fun _ _ hs => .some hs
    | cons it its ih =>
        intro sent sent' hs
        simp only [floodLoop, bind]
        cases listEntryAddr m it with
        | none => exact .none
        | some addr =>
            simp only [Option.bind_some, hskip]
            split
            · exact ih _ _ hs
            · exact ih _ _ (by simp [hs])
  simp only [floodMessage, bind]
  cases listForEach m .routers with
  | none => exact .none
  | some its =>
      have hl := hloop its [] [] rfl
      simp only [Option.bind_some]
      generalize floodLoop m mi its [] = x at hl
      generalize floodLoop m mi' its [] = y at hl
      cases hl with
      | none => exact .none
      | some hs =>
          refine deltaForeach_rel (f := fwdToClient mi)
            (g := fwdToClient mi') (R := fun s s' : List UdpSend =>
              s.map UdpSend.addr = s'.map UdpSend.addr)
            (fun sa s s' hs => ⟨?_, rfl⟩) hs
          simp [fwdToClient, hs]

/-- Whatever the tables hold, the recipients are right exactly when the
sender is an IPv6 host or no known router is an IPv4 host. -/
theorem flood_message_recipients {m : Mem} {clientTable : Table Sockaddr}
    {mi : MsgInfo} {as : List Ptr} {routers clients : List Sockaddr}
    (hr : Holds m .routers as routers)
    (hc : members clientTable = some clients)
    (hinet : ∀ r ∈ routers, r.IsInet) (hsender : mi.addr.IsInet) :
    FloodsToRecipients m clientTable mi routers clients
      ↔ mi.addr.ssFamily = AF_INET6 ∨ ∀ r ∈ routers, r.ssFamily ≠ AF_INET := by
  unfold FloodsToRecipients recipients
  simp only [floodMessage_spec hr hc, Option.some.injEq, exists_eq_left']
  constructor
  · intro hperm
    by_contra hcon
    rw [not_or] at hcon
    obtain ⟨h6, hex⟩ := hcon
    have h4 := hsender.resolve_right h6
    simp only [not_forall, not_not] at hex
    obtain ⟨r, hmem, hr4⟩ := hex
    -- equal up to order, the two lists contain the same routers
    have hinj : Function.Injective fun sa : Sockaddr =>
        (⟨sa, mi.len, mi.msg⟩ : UdpSend) := fun a b h => by
      exact congrArg UdpSend.addr h
    have hsame := ((List.map_perm_map_iff hinj).mp hperm)
    rw [List.perm_append_right_iff] at hsame
    have := hsame.mem_iff (a := r)
    simp only [List.mem_filter, hmem, true_and,
      ipAddrEquals_inet hr4 h4] at this
    cases h : decide (SameIp r mi.addr) <;> simp [h] at this
  · intro hok
    have : ∀ r ∈ routers, (!ipAddrEquals r mi.addr)
        = !decide (SameIp r mi.addr) := by
      intro r hr
      rw [ipAddrEquals_inet6 (hinet r hr) (hok.imp_right fun h => h r hr)]
    rw [List.filter_congr this]

-- ============================================================== an example

theorem boot_holds : Holds boot .routers [] [] where
  ring := Linked.Ring.nil rfl rfl rfl
  addrs := rfl
  entries := by simp

/-- An IPv6 sender among routers of both families. -/
theorem flood_message_recipients_inet6 :
    ∃ m, addEntries boot .routers [host4 1, host6 1, host6 2] = some m
      ∧ FloodsToRecipients m Table.empty ⟨2, host6 1, [123, 125]⟩
          [host4 1, host6 1, host6 2] [] := by
  obtain ⟨m, as, hm, h, -⟩ := addEntries_spec (by simp)
    [host4 1, host6 1, host6 2] boot_holds
  exact ⟨m, hm, (flood_message_recipients h rfl (by decide)
    (by decide)).mpr (Or.inl (by decide))⟩

/-- Of two routers, one of them the sender, the message goes to the
sender only. -/
theorem flood_sends_back :
    ∃ m as, Holds m .routers as [host4 1, host4 2]
      ∧ floodMessage m Table.empty ⟨2, host4 1, [123, 125]⟩
        = some [⟨host4 1, 2, [123, 125]⟩]
      ∧ ¬ FloodsToRecipients m Table.empty ⟨2, host4 1, [123, 125]⟩
          [host4 1, host4 2] [] := by
  obtain ⟨m, as, -, h, -⟩ := addEntries_spec (by simp)
    [host4 1, host4 2] boot_holds
  have hf := @floodMessage_spec _ Table.empty
    ⟨2, host4 1, [123, 125]⟩ _ _ _ h rfl
  refine ⟨m, as, h, hf.trans (by decide), ?_⟩
  intro h
  obtain ⟨sent, hsent, hperm⟩ := h
  rw [hf, Option.some.injEq] at hsent
  rw [← hsent] at hperm
  exact absurd (hperm.mem_iff (a := ⟨host4 1, 2, [123, 125]⟩)) (by decide)

end Psnet.Router
