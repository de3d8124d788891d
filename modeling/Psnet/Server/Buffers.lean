/-
What `sprintf` writes into fixed buffers.

The sizes of the buffers are counted by hand in the source. `printed` is
the number of characters `%d` takes for an unsigned counter; the address
and port texts always fit, the two `process_info` bodies leave no room
for the terminator of their longest texts (`replies_fit_iff`).
-/
import Psnet.Net.Dotted
import Psnet.Router.Service
import Psnet.Tracker.Service

namespace Psnet.Server

open Net Client DeltaList

/-- Length of the longest port. -/
def PORT_STRLEN : Nat := 5

/-- Size of the buffers of the headers. -/
def HDR_OK_STRLEN : Nat := 29 + 5

/-- The text and its terminator fit a buffer of `cap` bytes. -/
def Fits (cap : Nat) (text : Text) : Prop := text.length + 1 ≤ cap

/-- A body fits its buffer, and its header the buffer next to it. -/
def ReplyFits (cap : Nat) (rsp : Text) : Prop :=
  Fits cap rsp ∧ Fits HDR_OK_STRLEN (okHeader rsp.length)

/-- The body `process_info` of the tracker writes. -/
def trackerInfo (routers : UInt32) : Text :=
  ascii "\x7b\"name\":\"generic psnet tracker\",\"routers\":"
    ++ decimal (toInt32 routers.toNat) ++ ascii "\x7d\r\n\r\n"

/-- The body `process_info` of the router writes. -/
def routerInfo (clients cacheLoad : UInt32) : Text :=
  ascii "\x7b\"name\":\"generic psnet router\",\"clients\":"
    ++ decimal (toInt32 clients.toNat) ++ ascii ",\"cache-load\":"
    ++ decimal (toInt32 cacheLoad.toNat) ++ ascii "\x7d\r\n\r\n"

/-- The body `process_ip` of the router writes. -/
def routerIp (inet : Inet) (addr : Sockaddr) : Text :=
  ascii "\x7b\"ip\":\"" ++ inet.ntop addr ++ ascii "\"\x7d\r\n\r\n"

-- ============================================================== the numbers

/-- The number of digits of a number. -/
def width (n : Nat) : Nat := max 1 (Nat.digits 10 n).length

/-- The characters `%d` prints for an unsigned counter: from `2 ^ 31` on
it is read as negative. -/
def printed (n : UInt32) : Nat :=
  if n.toNat < 2 ^ 31 then width n.toNat else width (2 ^ 32 - n.toNat) + 1

private theorem length_decimalNat (n : Nat) :
    (decimalNat n).length = width n := by
  unfold decimalNat width
  split
  · next hn =>
    rw [hn]
    rfl
  · next hn =>
    have : (Nat.digits 10 n).length ≠ 0 := by
      simpa [Nat.digits_eq_nil_iff_eq_zero] using hn
    rw [List.length_map, List.length_reverse]
    omega

private theorem length_counter (n : UInt32) :
    (decimal (toInt32 n.toNat)).length = printed n := by
  have hlt := n.toNat_lt
  unfold printed decimal toInt32
  split
  · next hneg =>
    rw [if_neg (by omega), List.length_cons, length_decimalNat]
    rw [show ((↑n.toNat + 2 ^ 31) % 2 ^ 32 - 2 ^ 31 : Int).natAbs
      = 2 ^ 32 - n.toNat by omega]
  · next hpos =>
    rw [if_pos (by omega), length_decimalNat,
      show ((↑n.toNat + 2 ^ 31) % 2 ^ 32 - 2 ^ 31 : Int).toNat
        = n.toNat by omega]

private theorem printed_le (n : UInt32) : printed n ≤ 11 := by
  have hlt := n.toNat_lt
  rw [← length_counter, length_decimal_le (by decide)]
  unfold toInt32
  omega

/-- Up to nine characters: nine digits, or a sign and eight. -/
private theorem printed_le_nine (n : UInt32) :
    printed n ≤ 9 ↔ n.toNat < 10 ^ 9 ∨ 2 ^ 32 - 10 ^ 8 < n.toNat := by
  have hlt := n.toNat_lt
  rw [← length_counter, length_decimal_le (by decide)]
  unfold toInt32
  omega

-- ============================================================== the buffers

/-- The header of a body of up to four digits fits. -/
private theorem header_fits {size : Nat} (h : size < 10 ^ 4) :
    Fits HDR_OK_STRLEN (okHeader size) := by
  have := (length_decimalNat_le (n := size) (k := 4) (by decide)).mpr h
  simp only [Fits, HDR_OK_STRLEN, okHeader, List.length_append,
    show (ascii "\x7b\"status\":\"okay\",\"size\":").length = 24 from rfl,
    show (ascii "\x7d\r\n\r\n").length = 5 from rfl]
  omega

private theorem trackerInfo_fits (routers : UInt32) :
    ReplyFits (47 + 10) (trackerInfo routers) ↔ printed routers ≤ 9 := by
  have hlen : (trackerInfo routers).length = 47 + printed routers := by
    simp only [trackerInfo, List.length_append, length_counter,
      show (ascii "\x7b\"name\":\"generic psnet tracker\",\"routers\":").length
        = 42 from rfl, show (ascii "\x7d\r\n\r\n").length = 5 from rfl]
    omega
  have hle := printed_le routers
  rw [ReplyFits, Fits, hlen]
  constructor
  · intro h
    obtain ⟨h, -⟩ := h
    omega
  · exact fun h => ⟨by omega, header_fits (by omega)⟩

private theorem routerInfo_fits (clients cacheLoad : UInt32) :
    ReplyFits (60 + 10 + 10) (routerInfo clients cacheLoad)
      ↔ printed clients + printed cacheLoad ≤ 19 := by
  have hlen : (routerInfo clients cacheLoad).length
      = 60 + printed clients + printed cacheLoad := by
    simp only [routerInfo, List.length_append, length_counter,
      show (ascii "\x7b\"name\":\"generic psnet router\",\"clients\":").length
        = 41 from rfl, show (ascii ",\"cache-load\":").length = 14 from rfl,
      show (ascii "\x7d\r\n\r\n").length = 5 from rfl]
    omega
  have hle := printed_le clients
  have hle' := printed_le cacheLoad
  rw [ReplyFits, Fits, hlen]
  constructor
  · intro h
    obtain ⟨h, -⟩ := h
    omega
  · exact fun h => ⟨by omega, header_fits (by omega)⟩

private theorem routerIp_fits {inet : Inet} {addr : Sockaddr}
    (h : (inet.ntop addr).length < INET6_ADDRSTRLEN) :
    ReplyFits (13 + INET6_ADDRSTRLEN) (routerIp inet addr) := by
  have hlen : (routerIp inet addr).length
      = 13 + (inet.ntop addr).length := by
    simp only [routerIp, List.length_append,
      show (ascii "\x7b\"ip\":\"").length = 7 from rfl,
      show (ascii "\"\x7d\r\n\r\n").length = 6 from rfl]
    omega
  rw [ReplyFits, Fits, hlen]
  unfold INET6_ADDRSTRLEN at h ⊢
  exact ⟨by omega, header_fits (by omega)⟩

/-- The text of a client fits what `make_list` allocates. -/
theorem element_fits {inet : Inet} {client : Sockaddr}
    (h : (inet.ntop client).length < INET6_ADDRSTRLEN) :
    Fits (25 + INET6_ADDRSTRLEN + PORT_STRLEN + 1)
      (elementText inet client) := by
  have hport : (decimal (ntohs (getInPort client)).toNat).length
      ≤ PORT_STRLEN := by
    have := (ntohs (getInPort client)).toNat_lt
    rw [decimal_natCast]
    apply (length_decimalNat_le (by decide)).mpr
    unfold PORT_STRLEN
    omega
  have hipv : (decimal (if client.ssFamily = AF_INET then 4 else 6)).length
      = 1 := by
    split
    · rfl
    · rfl
  simp only [Fits, elementText, List.length_append, hipv,
    show (ascii "\x7b\"ip\":\"").length = 7 from rfl,
    show (ascii "\",\"port\":").length = 9 from rfl,
    show (ascii ",\"ipv\":").length = 7 from rfl,
    show (ascii "\x7d,").length = 2 from rfl]
  omega

/-- The handlers send the bodies that must fit, each after its header. -/
theorem replies_sent (inet : Inet) (clientTable : Table Sockaddr)
    (st : Router.RouterState) (mi : MsgInfo) :
    Tracker.processInfo clientTable
        = okHeader (trackerInfo (deltaSize clientTable)).length
          ++ trackerInfo (deltaSize clientTable)
      ∧ Router.processInfo st
        = okHeader (routerInfo (deltaSize st.clientTable)
            (deltaSize st.msgCache)).length
          ++ routerInfo (deltaSize st.clientTable) (deltaSize st.msgCache)
      ∧ Router.processIp inet mi
        = okHeader (routerIp inet mi.addr).length ++ routerIp inet mi.addr :=
  ⟨rfl, rfl, rfl⟩

/-- All of these texts fit their buffers exactly when the tracker's
counter is below `10 ^ 9`, or within `10 ^ 8` of `2 ^ 32`, and the
router's two print in at most nineteen characters. -/
theorem replies_fit_iff {inet : Inet}
    (hinet : ∀ sa, (inet.ntop sa).length < INET6_ADDRSTRLEN)
    (routers clients cacheLoad : UInt32) (addr client : Sockaddr) :
    (ReplyFits (47 + 10) (trackerInfo routers)
        ∧ ReplyFits (60 + 10 + 10) (routerInfo clients cacheLoad)
        ∧ ReplyFits (13 + INET6_ADDRSTRLEN) (routerIp inet addr)
        ∧ Fits (25 + INET6_ADDRSTRLEN + PORT_STRLEN + 1)
          (elementText inet client))
      ↔ (routers.toNat < 10 ^ 9 ∨ 2 ^ 32 - 10 ^ 8 < routers.toNat)
        ∧ printed clients + printed cacheLoad ≤ 19 := by
  rw [trackerInfo_fits, routerInfo_fits, printed_le_nine]
  constructor
  · intro h
    obtain ⟨h₁, h₂, -⟩ := h
    exact ⟨h₁, h₂⟩
  · intro h
    obtain ⟨h₁, h₂⟩ := h
    exact ⟨h₁, h₂, routerIp_fits (hinet addr), element_fits (hinet client)⟩

theorem replies_fit_iff_dotted :
    let host := { Sockaddr.zero with ssFamily := AF_INET }
    ReplyFits (47 + 10) (trackerInfo 999999999)
      ∧ ReplyFits (60 + 10 + 10) (routerInfo 4294967295 1000)
      ∧ ReplyFits (13 + INET6_ADDRSTRLEN) (routerIp dotted host)
      ∧ Fits (25 + INET6_ADDRSTRLEN + PORT_STRLEN + 1)
        (elementText dotted host) :=
  (replies_fit_iff (fun sa => (dotted_lawful.ntop_text sa).1) _ _ _ _ _).mpr
    (by simp [printed, width])

/-- A ten-digit number of routers leaves no room for the terminator. -/
theorem ten_digits_overflow :
    ¬ ReplyFits (47 + 10) (trackerInfo 1000000000) := by
  rw [trackerInfo_fits, printed_le_nine]
  decide

end Psnet.Server
