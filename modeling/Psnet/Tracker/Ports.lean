/-
The three readings of a port: `make_client`, the tracker's
`process_discover` and `parse_node`.

All three accept up to `PORT_MAX`, which is 665535, and cut what they
accept to 16 bits; `process_discover` moreover ignores what follows the
numeral, and wraps a numeral that does not fit an `int`.

# What a numeral is

`Denotes s n` is a numeral of the number `n`, of any length, with a sign
or without. The readings differ in what they do with a number that fits
neither a `long` nor an `int`, so the condition of the theorem is a range
of numbers for each of them.
-/
import Psnet.Tracker.Service
import Mathlib.Data.List.TakeWhile

namespace Psnet.Tracker

open Net Jsmn Parse DeltaList Client

variable {s : Text}

-- =================================================================== numerals

/-- The whole text is a numeral of `v`: blanks, perhaps a sign, and
digits. -/
def Denotes (s : Text) (v : Int) : Prop :=
  ∃ blanks sign ds, s = blanks ++ (sign ++ ds)
    ∧ (∀ c ∈ blanks, isSpace c = true) ∧ ds ≠ [] ∧ (∀ c ∈ ds, isDigit c = true)
    ∧ ((sign = [] ∨ sign = [PLUS]) ∧ v = digitsValue ds
      ∨ sign = [MINUS] ∧ v = -(digitsValue ds : Int))

private theorem isDigit_class {c : UInt8} (h : isDigit c = true) :
    isSpace c = false ∧ c ≠ PLUS ∧ c ≠ MINUS := by
  simp only [isDigit, Bool.and_eq_true, decide_eq_true_eq,
    UInt8.le_iff_toNat_le, UInt8.reduceToNat] at h
  refine ⟨?_, ?_, ?_⟩
  · simp only [isSpace, Bool.or_eq_false_iff, Bool.and_eq_false_imp,
      decide_eq_true_eq, decide_eq_false_iff_not, beq_eq_false_iff_ne,
      UInt8.le_iff_toNat_le, UInt8.reduceToNat]
    refine ⟨?_, fun _ => by omega⟩
    intro heq
    subst heq
    exact absurd h (by decide)
  · intro heq
    subst heq
    exact absurd h (by decide)
  · intro heq
    subst heq
    exact absurd h (by decide)

/-- `strtol` reads a numeral in full. -/
theorem Denotes.strtol {v : Int} (h : Denotes s v) :
    strtol s = (clampLong v, []) := by
  obtain ⟨blanks, sign, ds, rfl, hb, hne, hd, hv⟩ := h
  obtain ⟨d, ds', rfl⟩ := List.exists_cons_of_ne_nil hne
  have hd0 := isDigit_class (hd d (List.mem_cons_self ..))
  have htake : (d :: ds').takeWhile isDigit = d :: ds' :=
    List.takeWhile_eq_self_iff.mpr hd
  have hdrop : (d :: ds').dropWhile isDigit = [] :=
    List.dropWhile_eq_nil_iff.mpr hd
  have hsign : ∀ c, sign = [c] → isSpace c = false := by
    intro c heq
    subst heq
    rcases hv with ⟨h | h, -⟩ | ⟨h, -⟩
    · cases h
    · cases h
      decide
    · cases h
      decide
  have hblank : (blanks ++ (sign ++ d :: ds')).dropWhile isSpace
      = sign ++ d :: ds' := by
    rw [List.dropWhile_append_of_pos hb]
    apply dropWhile_of_head
    intro c hc
    rcases hv with ⟨rfl | rfl, -⟩ | ⟨rfl, -⟩
    · cases hc
      exact hd0.1
    · cases hc
      exact hsign _ rfl
    · cases hc
      exact hsign _ rfl
  unfold Net.strtol
  rw [hblank]
  rcases hv with ⟨rfl | rfl, rfl⟩ | ⟨rfl, rfl⟩
  · simp [takeSign, hd0.2.1, hd0.2.2, htake, hdrop]
  · simp [takeSign, PLUS, MINUS, htake, hdrop]
  · simp [takeSign, htake, hdrop]

/-- The numeral `%d` prints denotes the number printed. -/
theorem denotes_decimal (i : Int) : Denotes (decimal i) i := by
  unfold decimal
  split
  · obtain ⟨hne, hd⟩ := decimalNat_digits i.natAbs
    refine ⟨[], [MINUS], decimalNat i.natAbs, rfl, by simp, hne, hd,
      Or.inr ⟨rfl, ?_⟩⟩
    rw [digitsValue_decimalNat]
    omega
  · obtain ⟨hne, hd⟩ := decimalNat_digits i.toNat
    refine ⟨[], [], decimalNat i.toNat, rfl, by simp, hne, hd,
      Or.inl ⟨Or.inl rfl, ?_⟩⟩
    rw [digitsValue_decimalNat]
    omega

theorem strtol_decimal {i : Int} (h₁ : LONG_MIN ≤ i) (h₂ : i ≤ LONG_MAX) :
    strtol (decimal i) = (i, []) := by
  rw [(denotes_decimal i).strtol, clampLong_of_range h₁ h₂]

-- ================================================================= the readings

/-- The port stored, as a number. -/
def portOf (sa : Sockaddr) : Nat := (ntohs (getInPort sa)).toNat

/-- The port stored is what the whole text denotes. -/
def Faithful (s : Text) (sa : Sockaddr) : Prop := Denotes s (portOf sa)

/-- The text `parse_node` reads the port of a node from. -/
def nodePortText (msg : List UInt8) (node : List JsmnTok) :
    Option Text := do
  let port ← jsmnGetValue msg node (ascii "port") >>= tokenAt node
  copyTok msg port

/-- Every reading that accepts the text stores what it denotes, and the
tracker excludes by just the ports one can register with. -/
structure PortLaw (s : Text) : Prop where
  make : ∀ addr sa, makeClient addr s = some sa → Faithful s sa
  discover : ∀ addr p, discoverPort s = some p →
    Faithful s (setInPort addr (htons p))
  node : ∀ inet msg node sa, parseNode inet msg node = some (some sa) →
    nodePortText msg node = some s → Faithful s sa
  agree : ∀ addr, (discoverPort s).isSome = (makeClient addr s).isSome

/-- The port of a node that is accepted. -/
private theorem parseNode_port {inet : Inet} {msg : List UInt8}
    {node : List JsmnTok} {sa : Sockaddr}
    (h : parseNode inet msg node = some (some sa))
    (hs : nodePortText msg node = some s) :
    ∃ sa' p, nodePort s = some p ∧ sa = setInPort sa' (htons p) := by
  unfold parseNode at h
  obtain ⟨⟨rc, is⟩, his, h⟩ := Option.bind_eq_some_iff.mp h
  simp only at h
  split at h
  · cases h
  obtain ⟨ip, -, h⟩ := Option.bind_eq_some_iff.mp h
  obtain ⟨port, hport, h⟩ := Option.bind_eq_some_iff.mp h
  obtain ⟨iport, hiport, htport⟩ := Option.bind_eq_some_iff.mp hport
  obtain ⟨ipv, -, h⟩ := Option.bind_eq_some_iff.mp h
  -- the second index is that of the port
  have hget : jsmnGetValue msg node (ascii "port") = some iport := by
    simp only [jsmnGetValues, bind, Option.bind_eq_some_iff] at his
    obtain ⟨i₀, -, ⟨rc₁, is₁⟩, ⟨i₁, h₁, ⟨rc₂, is₂⟩, -, heq⟩, heq'⟩ := his
    cases heq
    cases heq'
    cases hiport
    exact h₁
  simp only [nodePortText, bind, hget, Option.bind_some, htport] at hs
  split at h
  · cases h
  split at h
  · cases h
  obtain ⟨c, -, h⟩ := Option.bind_eq_some_iff.mp h
  split at h
  · cases h
  split at h
  · cases h
  obtain ⟨v, -, h⟩ := Option.bind_eq_some_iff.mp h
  split at h
  · cases h
  obtain ⟨t, -, h⟩ := Option.bind_eq_some_iff.mp h
  split at h
  · cases h
  · next sa' _ =>
    obtain ⟨s', hs', h⟩ := Option.bind_eq_some_iff.mp h
    rw [hs, Option.some.injEq] at hs'
    subst hs'
    split at h
    · cases h
    · next p hp =>
      cases h
      exact ⟨_, p, hp, rfl⟩

private theorem portOf_setInPort (addr : Sockaddr) (p : UInt16) :
    portOf (setInPort addr (htons p)) = p.toNat := by
  rw [portOf, getInPort, setInPort, htons_ntohs]

private theorem toNat_ofInt {v : Int} (h₁ : 0 ≤ v) (h₂ : v ≤ 65535) :
    ((UInt16.ofInt v).toNat : Int) = v := by
  rw [UInt16.ofInt, UInt16.toNat_ofNat']
  omega

/-- What the readings accept. -/
theorem makeClient_some {addr sa : Sockaddr}
    (h : makeClient addr s = some sa) :
    PORT_MIN ≤ (strtol s).1 ∧ (strtol s).1 ≤ PORT_MAX ∧ (strtol s).2 = []
      ∧ sa = setInPort addr (htons (UInt16.ofInt (strtol s).1)) := by
  simp only [makeClient] at h
  split at h
  · cases h
  · next hno =>
    cases h
    simp only [not_or, Int.not_lt, Decidable.not_not] at hno
    exact ⟨hno.1, hno.2.1, hno.2.2, rfl⟩

private theorem nodePort_some {p : UInt16} (h : nodePort s = some p) :
    PORT_MIN ≤ (strtol s).1 ∧ (strtol s).1 ≤ PORT_MAX ∧ (strtol s).2 = []
      ∧ p = UInt16.ofInt (strtol s).1 := by
  simp only [nodePort] at h
  split at h
  · cases h
  · next hno =>
    cases h
    simp only [not_or, Int.not_lt, Decidable.not_not] at hno
    exact ⟨hno.1, hno.2.1, hno.2.2, rfl⟩

private theorem toInt32_of_port {v : Int} (h₁ : PORT_MIN ≤ v)
    (h₂ : v ≤ PORT_MAX) :
    toInt32 v = v := by
  unfold PORT_MIN at h₁
  unfold PORT_MAX at h₂
  unfold toInt32
  omega

/-- `make_client` takes every port, however it is written. -/
theorem makeClient_denotes (addr : Sockaddr) {port : UInt16}
    (h : Denotes s port.toNat) :
    makeClient addr s = some (setInPort addr (htons port)) := by
  have hlt := port.toNat_lt
  have hstr := h.strtol
  rw [clampLong_of_range (by unfold LONG_MIN; omega)
    (by unfold LONG_MAX; omega)] at hstr
  simp only [makeClient, hstr, ofInt_toNat]
  rw [if_neg (by simp [PORT_MIN, PORT_MAX]; omega)]

/-- A port number is stored as it is written, by whoever reads it. -/
private theorem portLaw_of_denotes {s : Text} {v : Int} (hv : Denotes s v)
    (h₁ : 0 ≤ v) (h₂ : v ≤ 65535) : PortLaw s := by
  have hclamp : clampLong v = v :=
    clampLong_of_range (by unfold LONG_MIN; omega)
      (by unfold LONG_MAX; omega)
  have hstr := hv.strtol
  rw [hclamp] at hstr
  have hin : ¬ (v < PORT_MIN ∨ PORT_MAX < v) := by
    unfold PORT_MIN PORT_MAX
    omega
  have hatoi : atoi s = v := by
    rw [atoi, hstr]
    exact toInt32_of_port (by omega) (by omega)
  have hfaith : ∀ addr, Faithful s
      (setInPort addr (htons (UInt16.ofInt v))) := by
    intro addr
    rw [Faithful, portOf_setInPort, toNat_ofInt h₁ h₂]
    exact hv
  refine ⟨fun addr sa hsa => ?_, fun addr p hp => ?_,
    fun inet msg node sa hsa hs => ?_, fun addr => ?_⟩
  · obtain ⟨-, -, -, rfl⟩ := makeClient_some hsa
    rw [hstr]
    exact hfaith addr
  · simp only [discoverPort, hatoi, if_neg hin, Option.some.injEq] at hp
    subst hp
    exact hfaith addr
  · obtain ⟨sa', p, hp, rfl⟩ := parseNode_port hsa hs
    obtain ⟨-, -, -, rfl⟩ := nodePort_some hp
    rw [hstr]
    exact hfaith sa'
  · rw [not_or] at hin
    simp [discoverPort, makeClient, hatoi, hstr, hin.1, hin.2]

/-- What `atoi` puts outside the range is read by nobody: an `int` outside
it is no `long` within it. -/
private theorem portLaw_of_refused {s : Text}
    (hr : atoi s < PORT_MIN ∨ PORT_MAX < atoi s) : PortLaw s := by
  have hno : ∀ {P : Prop}, PORT_MIN ≤ (strtol s).1 →
      (strtol s).1 ≤ PORT_MAX → P := by
    intro P h₁ h₂
    rw [atoi, toInt32_of_port h₁ h₂] at hr
    omega
  have hdisc : discoverPort s = none := by
    simp only [discoverPort, if_pos hr]
  refine ⟨fun addr sa hsa => ?_, fun addr p hp => ?_,
    fun inet msg node sa hsa hs => ?_, fun addr => ?_⟩
  · obtain ⟨h₁, h₂, -⟩ := makeClient_some hsa
    exact hno h₁ h₂
  · rw [hdisc] at hp
    cases hp
  · obtain ⟨sa', p, hp, rfl⟩ := parseNode_port hsa hs
    obtain ⟨h₁, h₂, -⟩ := nodePort_some hp
    exact hno h₁ h₂
  · rw [hdisc]
    cases hm : makeClient addr s with
    | none => rfl
    | some sa =>
        obtain ⟨h₁, h₂, -⟩ := makeClient_some hm
        exact hno h₁ h₂

/-- A port text is read as it should be exactly when it is a numeral of
a port, or `atoi` makes of it nothing that could be one. -/
theorem ports_never_truncated (s : Text) :
    PortLaw s
      ↔ (∃ v, Denotes s v ∧ 0 ≤ v ∧ v ≤ 65535)
        ∨ atoi s < PORT_MIN ∨ PORT_MAX < atoi s := by
  constructor
  · intro h
    by_cases hr : atoi s < PORT_MIN ∨ PORT_MAX < atoi s
    · exact Or.inr hr
    · -- it is accepted, and what is stored has 16 bits
      have hacc : discoverPort s = some (UInt16.ofInt (atoi s)) := by
        simp only [discoverPort, if_neg hr]
      have hd := h.discover Sockaddr.zero _ hacc
      rw [Faithful, portOf_setInPort] at hd
      have := (UInt16.ofInt (atoi s)).toNat_lt
      exact Or.inl ⟨_, hd, by omega, by omega⟩
  · rintro (⟨v, hv, h₁, h₂⟩ | hr)
    · exact portLaw_of_denotes hv h₁ h₂
    · exact portLaw_of_refused hr

/-- 65536 is registered as port 0. -/
theorem port_65536_truncated : ¬ PortLaw (ascii "65536") := by
  intro h
  have hstored : makeClient Sockaddr.zero (ascii "65536")
      = some (setInPort Sockaddr.zero (htons 0)) := by decide
  have hread := (h.make _ _ hstored).strtol
  revert hread
  decide

end Psnet.Tracker
