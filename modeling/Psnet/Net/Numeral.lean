/-
Numerals: `strtol`, `atoi`, and the `%d` and `%lu` of `printf`.

`strtol` follows the C library: blanks, a sign, the longest run of
digits; without digits it returns 0 and consumes nothing, and a value
outside the range of `long` is replaced by the nearer end.

The value of a numeral is that of its digits, with no bound, and `Denotes`
is a numeral as a person reads it. `strtol` gives that value only within
the range of `long`; the printers are exact, and `strtol` reads back what
they print.
-/
import Psnet.Net.Sockaddr
import Mathlib.Data.Nat.Digits.Lemmas

namespace Psnet.Net

/-- The bytes of a string literal. -/
def ascii (s : String) : Text := s.toList.map Char.toUInt8

def isSpace (c : UInt8) : Bool := c == 32 || (9 ≤ c && c ≤ 13)

def isDigit (c : UInt8) : Bool := 48 ≤ c && c ≤ 57

def MINUS : UInt8 := 45

def PLUS : UInt8 := 43

def LONG_MAX : Int := 2 ^ 63 - 1

def LONG_MIN : Int := -2 ^ 63

/-- The number a run of digits denotes. -/
def digitsValue (ds : Text) : Nat :=
  ds.foldl (fun n d => 10 * n + (d.toNat - 48)) 0

/-- The sign at the start of a text, and what follows it. -/
def takeSign : Text → Bool × Text
  | c :: s => if c = MINUS then (true, s)
              else if c = PLUS then (false, s)
              else (false, c :: s)
  | [] => (false, [])

/-- A value within the range of `long`. -/
def clampLong (i : Int) : Int := max LONG_MIN (min LONG_MAX i)

/-- `strtol(s, &endptr, 10)`: the value and the text at `endptr`. -/
def strtol (s : Text) : Int × Text :=
  let (neg, t) := takeSign (s.dropWhile isSpace)
  let ds := t.takeWhile isDigit
  if ds = [] then (0, s)
  else
    (clampLong (if neg then -(digitsValue ds : Int) else digitsValue ds),
      t.dropWhile isDigit)

/-- The value of a 32-bit `int` after a conversion from `i`. -/
def toInt32 (i : Int) : Int := (i + 2 ^ 31) % 2 ^ 32 - 2 ^ 31

/-- `atoi`. -/
def atoi (s : Text) : Int := toInt32 (strtol s).1

/-- The character of a digit. -/
def digitChar (d : Nat) : UInt8 := UInt8.ofNat (48 + d)

/-- `%u` and `%lu`. -/
def decimalNat (n : Nat) : Text :=
  if n = 0 then [48] else (Nat.digits 10 n).reverse.map digitChar

/-- `%d`. -/
def decimal (i : Int) : Text :=
  if i < 0 then MINUS :: decimalNat i.natAbs else decimalNat i.toNat

-- ================================================================ round trip

theorem toNat_digitChar {d : Nat} (hd : d < 10) :
    (digitChar d).toNat = 48 + d := by
  rw [digitChar, UInt8.toNat_ofNat_of_lt' (by simp [UInt8.size]; omega)]

private theorem isDigit_digitChar {d : Nat} (hd : d < 10) :
    isDigit (digitChar d) = true := by
  have := toNat_digitChar hd
  simp only [isDigit, Bool.and_eq_true, decide_eq_true_eq,
    UInt8.le_iff_toNat_le, UInt8.reduceToNat, this]
  omega

/-- A decimal numeral is a run of digits, and not an empty one. -/
theorem decimalNat_digits (n : Nat) :
    decimalNat n ≠ [] ∧ ∀ c ∈ decimalNat n, isDigit c = true := by
  unfold decimalNat
  split
  · exact ⟨by simp, by simp [isDigit]⟩
  · next hn =>
    refine ⟨by simpa [Nat.digits_eq_nil_iff_eq_zero] using hn, ?_⟩
    intro c hc
    obtain ⟨d, hd, rfl⟩ := List.mem_map.mp hc
    exact isDigit_digitChar
      (Nat.digits_lt_base (by omega) (List.mem_reverse.mp hd))

/-- A decimal numeral denotes its number. -/
theorem digitsValue_decimalNat (n : Nat) :
    digitsValue (decimalNat n) = n := by
  have hfold : ∀ ds : List Nat, (∀ d ∈ ds, d < 10) →
      digitsValue (ds.reverse.map digitChar) = Nat.ofDigits 10 ds := by
    intro ds
    induction ds with
    | nil => exact fun _ => rfl
    | cons d ds ih =>
        intro hlt
        have hih := ih fun e he => hlt e (List.mem_cons_of_mem _ he)
        have hd := toNat_digitChar (hlt d (List.mem_cons_self ..))
        simp only [digitsValue] at hih
        simp only [digitsValue, List.reverse_cons, List.map_append,
          List.foldl_append, hih, List.map_cons, List.map_nil,
          List.foldl_cons, List.foldl_nil, hd, Nat.ofDigits_cons]
        omega
  unfold decimalNat
  split
  · next hn =>
    rw [hn]
    rfl
  · rw [hfold _ fun d hd => Nat.digits_lt_base (by omega) hd,
      Nat.ofDigits_digits]

theorem dropWhile_of_head {p : UInt8 → Bool} {s : Text}
    (h : ∀ c ∈ s.head?, p c = false) : s.dropWhile p = s := by
  cases s with
  | nil => rfl
  | cons c s => simp [h c rfl]

theorem clampLong_of_range {i : Int} (h₁ : LONG_MIN ≤ i)
    (h₂ : i ≤ LONG_MAX) : clampLong i = i := by
  unfold clampLong
  omega

/-- `strtol` on a numeral of a `long`, with no digit after it. -/
theorem strtol_decimalNat {n : Nat} {r : Text}
    (hn : (n : Int) ≤ LONG_MAX) (hr : ∀ c ∈ r.head?, isDigit c = false) :
    strtol (decimalNat n ++ r) = ((n : Int), r) := by
  obtain ⟨hne, hdig⟩ := decimalNat_digits n
  have hval := digitsValue_decimalNat n
  obtain ⟨c, cs, hcs⟩ := List.exists_cons_of_ne_nil hne
  rw [hcs] at hdig hval ⊢
  have hc := hdig c (List.mem_cons_self ..)
  -- a digit is no blank and no sign
  have hcnat : 48 ≤ c.toNat := by
    simp only [isDigit, Bool.and_eq_true, decide_eq_true_eq,
      UInt8.le_iff_toNat_le, UInt8.reduceToNat] at hc
    exact hc.1
  have hsp : isSpace c = false := by
    simp only [isSpace, Bool.or_eq_false_iff, Bool.and_eq_false_imp,
      decide_eq_true_eq, decide_eq_false_iff_not, beq_eq_false_iff_ne,
      UInt8.le_iff_toNat_le, UInt8.reduceToNat]
    refine ⟨?_, fun _ => by omega⟩
    intro heq
    subst heq
    exact absurd hcnat (by decide)
  have hsign : takeSign (c :: cs ++ r) = (false, c :: cs ++ r) := by
    have hm : c ≠ MINUS := by
      intro heq
      subst heq
      exact absurd hcnat (by decide)
    have hp : c ≠ PLUS := by
      intro heq
      subst heq
      exact absurd hcnat (by decide)
    simp [takeSign, hm, hp]
  have htake : (c :: cs ++ r).takeWhile isDigit = c :: cs := by
    rw [List.takeWhile_append_of_pos hdig]
    cases r with
    | nil => simp
    | cons d r => simp [hr d rfl]
  have hdrop : (c :: cs ++ r).dropWhile isDigit = r := by
    rw [List.dropWhile_append_of_pos hdig]
    exact dropWhile_of_head hr
  unfold strtol
  rw [dropWhile_of_head (by simpa using hsp)]
  simp only [hsign, htake, hdrop]
  rw [if_neg (by simp), hval]
  simp only [Bool.false_eq_true, ↓reduceIte, Prod.mk.injEq, and_true]
  exact clampLong_of_range (by unfold LONG_MIN; omega) hn

-- ============================================================ the characters

/-- A numeral of `n` has as many characters as `n` has digits. -/
theorem length_decimalNat_le {n k : Nat} (hk : 0 < k) :
    (decimalNat n).length ≤ k ↔ n < 10 ^ k := by
  unfold decimalNat
  split
  · next hn =>
    rw [hn]
    exact iff_of_true hk (Nat.pow_pos (by decide))
  · rw [List.length_map, List.length_reverse,
      Nat.digits_length_le_iff (by decide)]

/-- The numeral of one digit. -/
theorem decimalNat_digit {n : Nat} (hn : n < 10) :
    decimalNat n = [digitChar n] := by
  unfold decimalNat
  split
  · next h0 =>
    rw [h0]
    rfl
  · next h0 =>
    rw [Nat.digits_of_lt 10 n h0 hn]
    rfl

/-- The numerals of `%d` in at most `k + 1` characters. -/
theorem length_decimal_le {i : Int} {k : Nat} (hk : 0 < k) :
    (decimal i).length ≤ k + 1 ↔ -10 ^ k < i ∧ i < 10 ^ (k + 1) := by
  unfold decimal
  have hpow : (0 : Int) < 10 ^ (k + 1) := by positivity
  have hpow' : (0 : Int) < 10 ^ k := by positivity
  split
  · next hneg =>
    rw [List.length_cons, Nat.add_le_add_iff_right,
      length_decimalNat_le hk]
    have : (i.natAbs < 10 ^ k) ↔ ((i.natAbs : Int) < 10 ^ k) := by
      rw [← Int.ofNat_lt]
      simp
    rw [this]
    omega
  · next hpos =>
    rw [length_decimalNat_le (by omega)]
    have : (i.toNat < 10 ^ (k + 1)) ↔ ((i.toNat : Int) < 10 ^ (k + 1)) := by
      rw [← Int.ofNat_lt]
      simp
    rw [this]
    omega

theorem decimal_natCast (n : Nat) : decimal n = decimalNat n := by
  rw [decimal, if_neg (Int.not_lt.mpr (Int.natCast_nonneg n)),
    Int.toNat_natCast]

/-- The cast of a port to `in_port_t` keeps it. -/
theorem ofInt_toNat (port : UInt16) :
    UInt16.ofInt (port.toNat : Int) = port := by
  have hlt := port.toNat_lt
  rw [← UInt16.toNat_inj, UInt16.ofInt, UInt16.toNat_ofNat']
  omega

/-- A numeral of `%d` is made of digits and perhaps a sign. -/
theorem decimal_chars (i : Int) :
    decimal i ≠ [] ∧ ∀ c ∈ decimal i, c = MINUS ∨ isDigit c = true := by
  unfold decimal
  split
  · refine ⟨List.cons_ne_nil _ _, fun c hc => ?_⟩
    exact (List.mem_cons.mp hc).imp id ((decimalNat_digits _).2 c)
  · exact ⟨(decimalNat_digits _).1,
      fun c hc => Or.inr ((decimalNat_digits _).2 c hc)⟩

end Psnet.Net
