/-
Socket addresses and the accessors of include/ipv6.h.

A `sockaddr_storage` is read through two views. Both start with the
family and, two bytes in, the port; what follows is, at offset 4, the
IPv4 address (the flow label of the IPv6 view) and, at offset 8, the
sixteen bytes of the IPv6 address (padding of the IPv4 view). The bytes
from offset 24 on are never read and are left out. Ports and the IPv4
address are kept as the stored words, in network byte order.

# The C library

`inet_ntop` and `inet_pton` are not part of the repository. `Inet` takes
them as parameters, one pair for each family the program uses, and
`Inet.Lawful` says what it relies on.
-/
import Mathlib.Tactic.Common

namespace Psnet.Net

/-- A text: the bytes of a C string without its terminator. -/
abbrev Text := List UInt8

def AF_INET : UInt16 := 2

def AF_INET6 : UInt16 := 10

@[simp] theorem inet6_ne_inet : AF_INET6 ≠ AF_INET := by decide

/-- Length of the longest text `inet_ntop` writes, terminator
included. -/
def INET6_ADDRSTRLEN : Nat := 46

def PORT_MIN : Int := 0

def PORT_MAX : Int := 665535

/-- `struct sockaddr_storage`. -/
structure Sockaddr where
  ssFamily : UInt16
  port : UInt16
  sinAddr : UInt32
  sin6Addr : Vector UInt8 16
  deriving DecidableEq, Repr

/-- `memset` to zero. -/
def Sockaddr.zero : Sockaddr := ⟨0, 0, 0, Vector.replicate 16 0⟩

/-- An IPv4 host. -/
def host4 (a : UInt32) : Sockaddr := { Sockaddr.zero with
  ssFamily := AF_INET
  port := 45845
  sinAddr := a }

/-- An IPv6 host. -/
def host6 (b : UInt8) : Sockaddr := { Sockaddr.zero with
  ssFamily := AF_INET6
  port := 45845
  sin6Addr := (Vector.replicate 16 0).set 15 b }

/-- `get_in_port`: both views keep the port at the same offset. -/
def getInPort (sa : Sockaddr) : UInt16 := sa.port

/-- `set_in_port`. -/
def setInPort (sa : Sockaddr) (val : UInt16) : Sockaddr :=
  { sa with port := val }

@[simp] theorem setInPort_ssFamily (sa : Sockaddr) (p : UInt16) :
    (setInPort sa p).ssFamily = sa.ssFamily := rfl

@[simp] theorem setInPort_sinAddr (sa : Sockaddr) (p : UInt16) :
    (setInPort sa p).sinAddr = sa.sinAddr := rfl

@[simp] theorem setInPort_sin6Addr (sa : Sockaddr) (p : UInt16) :
    (setInPort sa p).sin6Addr = sa.sin6Addr := rfl

@[simp] theorem setInPort_port (sa : Sockaddr) (p : UInt16) :
    (setInPort sa p).port = p := rfl

/-- `htons` on a little-endian machine. -/
def htons (p : UInt16) : UInt16 := (p <<< 8) ||| (p >>> 8)

/-- `ntohs`. -/
def ntohs (p : UInt16) : UInt16 := htons p

/-- `sin_equals`. -/
def sinEquals (a b : Sockaddr) : Bool :=
  a.sinAddr == b.sinAddr && a.port == b.port

/-- `sin6_equals`. -/
def sin6Equals (a b : Sockaddr) : Bool :=
  a.sin6Addr == b.sin6Addr && a.port == b.port

/-- `sockaddr_equals`. -/
def sockaddrEquals (a b : Sockaddr) : Bool :=
  if a.ssFamily ≠ b.ssFamily then false
  else if a.ssFamily = AF_INET then sinEquals a b
  else if a.ssFamily = AF_INET6 then sin6Equals a b
  else false

/-- `ip_addr_equals`. In the IPv4 branch the source compares with
`!=`. -/
def ipAddrEquals (a b : Sockaddr) : Bool :=
  if a.ssFamily ≠ b.ssFamily then false
  else if a.ssFamily = AF_INET then a.sinAddr != b.sinAddr
  else a.sin6Addr == b.sin6Addr

/-- An address of one of the two families the program handles. -/
def Sockaddr.IsInet (a : Sockaddr) : Prop :=
  a.ssFamily = AF_INET ∨ a.ssFamily = AF_INET6

instance (a : Sockaddr) : Decidable a.IsInet :=
  inferInstanceAs (Decidable (_ ∨ _))

/-- Two addresses of one family with the same IP address: what
`ip_addr_equals` is named after. -/
def SameIp (a b : Sockaddr) : Prop :=
  a.ssFamily = b.ssFamily
    ∧ (a.ssFamily = AF_INET → a.sinAddr = b.sinAddr)
    ∧ (a.ssFamily = AF_INET6 → a.sin6Addr = b.sin6Addr)

instance (a b : Sockaddr) : Decidable (SameIp a b) :=
  inferInstanceAs (Decidable (_ ∧ _ ∧ _))

/-- Two addresses that differ in the port at most. -/
def SameHost (a b : Sockaddr) : Prop :=
  ∀ p, setInPort a p = setInPort b p

/-- An address and itself. -/
theorem SameHost.refl (a : Sockaddr) : SameHost a a := fun _ => rfl

/-- Hosts that are the same as a third. -/
theorem SameHost.trans {a b c : Sockaddr} (h : SameHost a b)
    (h' : SameHost b c) : SameHost a c := fun p => (h p).trans (h' p)

/-- Setting the port leaves the host. -/
theorem sameHost_setInPort (a : Sockaddr) (p : UInt16) :
    SameHost (setInPort a p) a := fun _ => rfl

/-- All fields but the port are equal. -/
theorem SameHost.fields {a b : Sockaddr} (h : SameHost a b) :
    a.ssFamily = b.ssFamily ∧ a.sinAddr = b.sinAddr
      ∧ a.sin6Addr = b.sin6Addr := by
  have h0 := h 0
  simp only [setInPort, Sockaddr.mk.injEq] at h0
  exact ⟨h0.1, h0.2.2.1, h0.2.2.2⟩

/-- Swapping the bytes twice gives them back. -/
theorem htons_ntohs (p : UInt16) : ntohs (htons p) = p := by
  have h : ∀ b : BitVec 16, (((b <<< 8) ||| (b >>> 8)) <<< 8)
      ||| (((b <<< 8) ||| (b >>> 8)) >>> 8) = b := by
    intro b
    ext i hi
    simp
    grind
  apply UInt16.toBitVec_inj.mp
  simpa [ntohs, htons] using h p.toBitVec

/-- It does not matter which address is compared to which. -/
theorem sockaddrEquals_symm (a b : Sockaddr) :
    sockaddrEquals a b = sockaddrEquals b a := by
  unfold sockaddrEquals sinEquals sin6Equals
  by_cases hf : a.ssFamily = b.ssFamily
  · simp only [hf, ne_eq, not_true_eq_false, ↓reduceIte]
    split
    · rw [Bool.beq_comm (a := a.sinAddr), Bool.beq_comm (a := a.port)]
    · rw [Bool.beq_comm (a := a.sin6Addr), Bool.beq_comm (a := a.port)]
  · simp [hf, Ne.symm hf]

/-- What `sockaddr_equals` compares: the IP address and the port. -/
theorem sockaddrEquals_iff {a b : Sockaddr} (h : a.IsInet) :
    sockaddrEquals a b = true ↔ SameIp a b ∧ a.port = b.port := by
  unfold sockaddrEquals SameIp sinEquals sin6Equals
  rcases h with h | h
  · by_cases hf : a.ssFamily = b.ssFamily
    · simp [← hf, h, AF_INET, AF_INET6]
    · simp [hf]
  · by_cases hf : a.ssFamily = b.ssFamily
    · simp [← hf, h, AF_INET, AF_INET6]
    · simp [hf]

-- ============================================================ the C library

/-- `inet_ntop` and `inet_pton` for the two families. -/
structure Inet where
  ntop4 : UInt32 → Text
  ntop6 : Vector UInt8 16 → Text
  pton4 : Text → Option UInt32
  pton6 : Text → Option (Vector UInt8 16)

/-- `inet_ntop(sa->sa_family, get_in_addr(sa), ..)`: the text of the IP
address. -/
def Inet.ntop (inet : Inet) (sa : Sockaddr) : Text :=
  if sa.ssFamily = AF_INET then inet.ntop4 sa.sinAddr
  else inet.ntop6 sa.sin6Addr

/-- `inet_pton(sa->sa_family, s, get_in_addr(sa))`: the address with its
IP address set, `none` where the text is no address. -/
def Inet.pton (inet : Inet) (sa : Sockaddr) (s : Text) : Option Sockaddr :=
  if sa.ssFamily = AF_INET then
    (inet.pton4 s).map fun a => { sa with sinAddr := a }
  else (inet.pton6 s).map fun a => { sa with sin6Addr := a }

/-- The text of an address: at most 45 characters, none of them a quote
or a backslash. -/
def AddressText (s : Text) : Prop :=
  s.length < INET6_ADDRSTRLEN ∧ ∀ c ∈ s, c ≠ 0 ∧ c ≠ 34 ∧ c ≠ 92

/-- What the program relies on: address texts are plain and short, and
reading one back gives the address. -/
structure Inet.Lawful (inet : Inet) : Prop where
  text4 : ∀ a, AddressText (inet.ntop4 a)
  text6 : ∀ a, AddressText (inet.ntop6 a)
  back4 : ∀ a, inet.pton4 (inet.ntop4 a) = some a
  back6 : ∀ a, inet.pton6 (inet.ntop6 a) = some a

/-- The text of an address of either family is plain and short. -/
theorem Inet.Lawful.ntop_text {inet : Inet} (h : inet.Lawful)
    (sa : Sockaddr) : AddressText (inet.ntop sa) := by
  unfold Inet.ntop
  split
  · exact h.text4 _
  · exact h.text6 _

end Psnet.Net
