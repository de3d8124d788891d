/-
A translation of addresses to texts and back: IPv4 addresses as dotted
decimals, IPv6 addresses as eight groups of four hexadecimal digits.

It writes every IPv4 address as `inet_ntop` does, and every IPv6 address
none of whose groups starts with a zero. `dotted_lawful` shows that what
the program relies on can be had.
-/
import Psnet.Net.Numeral
import Psnet.Net.Sockaddr

namespace Psnet.Net

-- ======================================================================= bytes

/-- A hexadecimal digit. -/
def hexDigit (d : Nat) : UInt8 :=
  UInt8.ofNat (if d < 10 then 48 + d else 87 + d)

/-- The digits of a byte. -/
def hexByte (b : UInt8) : Text :=
  [hexDigit (b.toNat / 16), hexDigit (b.toNat % 16)]

/-- The number an exact decimal denotes, if it is a byte. -/
def octet (s : Text) : Option UInt8 :=
  if digitsValue s < 256 ∧ decimalNat (digitsValue s) = s then
    some (UInt8.ofNat (digitsValue s))
  else none

/-- The byte two hexadecimal digits denote. -/
def unhexByte (s : Text) : Option UInt8 :=
  ((List.range 256).map UInt8.ofNat).find? fun b => hexByte b = s

/-- A printed byte is read back. -/
private theorem octet_decimalNat (b : UInt8) : octet
    (decimalNat b.toNat) = some b := by
  rw [octet, digitsValue_decimalNat, if_pos ⟨b.toNat_lt, rfl⟩,
    UInt8.ofNat_toNat]

/-- Different digits are printed differently. -/
private theorem hexDigit_inj {d e : Nat} (hd : d < 16) (he : e < 16)
    (h : hexDigit d = hexDigit e) : d = e := by
  have hall : ∀ d < 16, ∀ e < 16, hexDigit d = hexDigit e → d = e := by decide
  exact hall d hd e he h

/-- Two bytes of the same digits have the same quotient and remainder. -/
private theorem hexByte_inj {b c : UInt8} (h : hexByte b = hexByte c) :
    b = c := by
  have hb := b.toNat_lt
  have hc := c.toNat_lt
  obtain ⟨hdiv, htail⟩ := List.cons.inj h
  have hdiv := hexDigit_inj (by omega) (by omega) hdiv
  have hmod := hexDigit_inj (by omega) (by omega) (List.cons.inj htail).1
  apply UInt8.toNat_inj.mp
  omega

/-- The two digits of a byte give it back. -/
private theorem unhexByte_hexByte (b : UInt8) : unhexByte
    (hexByte b) = some b := by
  have hmem : b ∈ (List.range 256).map UInt8.ofNat := by
    apply List.mem_map.mpr
    exact ⟨b.toNat, List.mem_range.mpr b.toNat_lt, UInt8.ofNat_toNat⟩
  unfold unhexByte
  cases hfind : ((List.range 256).map UInt8.ofNat).find?
      fun c => hexByte c = hexByte b with
  | none =>
      have hne := List.find?_eq_none.mp hfind b hmem
      simp at hne
  | some c =>
      have heq := List.find?_some hfind
      rw [hexByte_inj (of_decide_eq_true heq)]

/-- A property of all bytes, checked. -/
private theorem forall_byte {p : UInt8 → Prop} [DecidablePred p]
    (h : ∀ n < 256, p (UInt8.ofNat n)) (b : UInt8) : p b := by
  have := h b.toNat b.toNat_lt
  rwa [UInt8.ofNat_toNat] at this

/-- What stands in the text of a byte. -/
private theorem decimalNat_byte (b : UInt8) :
    (decimalNat b.toNat).length ≤ 3
      ∧ ∀ c ∈ decimalNat b.toNat, isDigit c = true := by
  revert b
  exact forall_byte (by decide +kernel)

/-- The digits of a byte are no NUL, quote, backslash or colon. -/
private theorem hexByte_byte (b : UInt8) :
    ∀ c ∈ hexByte b, c ≠ 0 ∧ c ≠ 34 ∧ c ≠ 92 ∧ c ≠ 58 := by
  revert b
  exact forall_byte (by decide +kernel)

-- ======================================================================== IPv4

/-- The bytes of an IPv4 address as they stand in the memory of a
little-endian host. -/
def bytes4 (a : UInt32) : List UInt8 :=
  [a.toUInt8, (a >>> 8).toUInt8, (a >>> 16).toUInt8, (a >>> 24).toUInt8]

def dotted4 (a : UInt32) : Text :=
  [46].intercalate ((bytes4 a).map fun b => decimalNat b.toNat)

def undotted4 (s : Text) : Option UInt32 :=
  match (s.splitOn 46).mapM octet with
  | some [b₀, b₁, b₂, b₃] =>
      some (b₀.toUInt32 ||| b₁.toUInt32 <<< 8 ||| b₂.toUInt32 <<< 16
        ||| b₃.toUInt32 <<< 24)
  | _ => none

/-- An IPv4 address is read back from its text. -/
private theorem undotted4_dotted4 (a : UInt32) : undotted4
    (dotted4 a) = some a := by
  have hsplit : (dotted4 a).splitOn 46
      = (bytes4 a).map fun b => decimalNat b.toNat := by
    refine List.splitOn_intercalate _ (fun l hl hmem => ?_) (by simp [bytes4])
    obtain ⟨b, -, rfl⟩ := List.mem_map.mp hl
    have := (decimalNat_byte b).2 46 hmem
    revert this
    decide
  have hmap : ∀ bs : List UInt8,
      (bs.map fun b => decimalNat b.toNat).mapM octet = some bs := by
    intro bs
    induction bs with
    | nil => rfl
    | cons b bs ih =>
        simp only [List.map_cons, List.mapM_cons, octet_decimalNat, ih]
        rfl
  rw [undotted4, hsplit, hmap]
  have hword : ∀ b : BitVec 32,
      (b.setWidth 8).setWidth 32
        ||| ((b >>> 8).setWidth 8).setWidth 32 <<< 8
        ||| ((b >>> 16).setWidth 8).setWidth 32 <<< 16
        ||| ((b >>> 24).setWidth 8).setWidth 32 <<< 24 = b := by
    intro b
    ext i hi
    simp
    grind
  simp only [bytes4, Option.some.injEq]
  apply UInt32.toBitVec_inj.mp
  exact hword a.toBitVec

/-- Short fields without quotes or backslashes, joined. -/
private theorem intercalate_text {sep : UInt8} {fs : List Text} {k : Nat}
    (hsep : sep ≠ 0 ∧ sep ≠ 34 ∧ sep ≠ 92)
    (hfs : ∀ f ∈ fs, f.length ≤ k ∧ ∀ c ∈ f, c ≠ 0 ∧ c ≠ 34 ∧ c ≠ 92) :
    ([sep].intercalate fs).length ≤ fs.length * (k + 1)
      ∧ ∀ c ∈ [sep].intercalate fs, c ≠ 0 ∧ c ≠ 34 ∧ c ≠ 92 := by
  induction fs with
  | nil => simp
  | cons f fs ih =>
      obtain ⟨hlen, hall⟩ := hfs f (List.mem_cons_self ..)
      obtain ⟨hlen', hall'⟩ := ih fun g hg => hfs g (List.mem_cons_of_mem _ hg)
      cases fs with
      | nil =>
          rw [List.intercalate_singleton]
          exact ⟨by simp; omega, hall⟩
      | cons g fs =>
          rw [List.intercalate_cons_cons]
          refine ⟨?_, fun c hc => ?_⟩
          · simp only [List.length_append, List.length_cons, List.length_nil]
              at hlen' ⊢
            rw [Nat.succ_mul]
            omega
          · rcases List.mem_append.mp hc with hc | hc
            · rcases List.mem_append.mp hc with hc | hc
              · exact hall c hc
              · rw [List.mem_singleton.mp hc]
                exact hsep
            · exact hall' c hc

/-- The text of an IPv4 address is plain and short. -/
private theorem dotted4_text (a : UInt32) : AddressText (dotted4 a) := by
  have h := @intercalate_text 46
    ((bytes4 a).map fun b => decimalNat b.toNat) 3 (by decide)
    fun f hf => by
      obtain ⟨b, -, rfl⟩ := List.mem_map.mp hf
      refine ⟨(decimalNat_byte b).1, fun c hc => ?_⟩
      have hd := (decimalNat_byte b).2 c hc
      refine ⟨?_, ?_, ?_⟩ <;>
      · intro heq
        subst heq
        exact absurd hd (by decide)
  exact ⟨Nat.lt_of_le_of_lt h.1 (by simp [bytes4, INET6_ADDRSTRLEN]), h.2⟩

-- ======================================================================== IPv6

/-- The groups of two bytes each. -/
def groups : List UInt8 → List Text
  | b :: c :: bs => (hexByte b ++ hexByte c) :: groups bs
  | _ => []

def dotted6 (a : Vector UInt8 16) : Text := [58].intercalate (groups a.toList)

def undotted6 (s : Text) : Option (Vector UInt8 16) := do
  let bs ← ((s.splitOn 58).flatMap fun g => [g.take 2, g.drop 2]).mapM
    unhexByte
  if h : bs.toArray.size = 16 then some ⟨bs.toArray, h⟩ else none

/-- The groups of an IPv6 address are at most four digits. -/
private theorem groups_text (bs : List UInt8) :
    ∀ g ∈ groups bs, g.length ≤ 4
      ∧ ∀ c ∈ g, c ≠ 0 ∧ c ≠ 34 ∧ c ≠ 92 ∧ c ≠ 58 := by
  induction bs using groups.induct with
  | case1 b c bs ih =>
      intro g hg
      rcases List.mem_cons.mp hg with rfl | hg
      · refine ⟨by simp [hexByte], fun d hd => ?_⟩
        rcases List.mem_append.mp hd with hd | hd
        · exact hexByte_byte b d hd
        · exact hexByte_byte c d hd
      · exact ih g hg
  | case2 bs hbs =>
      rw [groups]
      · simp
      · exact hbs

/-- Reading the groups back. -/
private theorem ungroup (bs : List UInt8) (h : bs.length % 2 = 0) :
    ((groups bs).flatMap fun g => [g.take 2, g.drop 2]).mapM unhexByte
      = some bs := by
  induction bs using groups.induct with
  | case1 b c bs ih =>
      have hbs := ih (by simp only [List.length_cons] at h; omega)
      have h₁ : (hexByte b ++ hexByte c).take 2 = hexByte b := rfl
      have h₂ : (hexByte b ++ hexByte c).drop 2 = hexByte c := rfl
      simp only [groups, List.flatMap_cons, h₁, h₂, List.cons_append,
        List.nil_append, List.mapM_cons, unhexByte_hexByte, hbs]
      rfl
  | case2 bs hbs =>
      cases bs with
      | nil => rfl
      | cons b bs =>
          cases bs with
          | nil => simp at h
          | cons c bs => exact absurd rfl (hbs b c bs)

/-- An IPv6 address is read back from its text. -/
private theorem undotted6_dotted6 (a : Vector UInt8 16) :
    undotted6 (dotted6 a) = some a := by
  have hne : groups a.toList ≠ [] := by
    have hlen : a.toList.length = 16 := a.size_toArray
    cases ha : a.toList with
    | nil => simp [ha] at hlen
    | cons b bs =>
        cases bs with
        | nil => simp [ha] at hlen
        | cons c bs => simp [groups]
  have hsplit : (dotted6 a).splitOn 58 = groups a.toList := by
    refine List.splitOn_intercalate _ (fun l hl hmem => ?_) hne
    exact ((groups_text _ l hl).2 58 hmem).2.2.2 rfl
  rw [undotted6, hsplit, ungroup _ (by simp)]
  have harr : a.toList.toArray = a.toArray := Array.toArray_toList
  simp [harr]

/-- The text of an IPv6 address is plain and short. -/
private theorem dotted6_text (a : Vector UInt8 16) : AddressText
    (dotted6 a) := by
  have h := @intercalate_text 58 (groups a.toList) 4
    (by decide) fun f hf =>
      ⟨(groups_text _ f hf).1, fun c hc =>
        have h := (groups_text _ f hf).2 c hc
        ⟨h.1, h.2.1, h.2.2.1⟩⟩
  have hlen : (groups a.toList).length ≤ 8 := by
    have hcount : ∀ bs : List UInt8, 2 * (groups bs).length ≤ bs.length := by
      intro bs
      induction bs using groups.induct with
      | case1 b c bs ih =>
          simp only [groups, List.length_cons]
          omega
      | case2 bs hbs =>
          rw [groups]
          · simp
          · exact hbs
    have := hcount a.toList
    have h16 : a.toList.length = 16 := a.size_toArray
    omega
  refine ⟨Nat.lt_of_le_of_lt h.1 ?_, h.2⟩
  simp only [INET6_ADDRSTRLEN]
  omega

-- ============================================================ the translation

def dotted : Inet where
  ntop4 := dotted4
  ntop6 := dotted6
  pton4 := undotted4
  pton6 := undotted6

/-- These texts are as the program expects them. -/
theorem dotted_lawful : dotted.Lawful where
  text4 := dotted4_text
  text6 := dotted6_text
  back4 := undotted4_dotted4
  back6 := undotted6_dotted6

end Psnet.Net
