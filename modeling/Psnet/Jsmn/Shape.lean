/-
What the parse says about the text: where the values stand.

Every value's interval holds those of its members, members follow one
another, and all lie before the first NUL (`zipParse_spans`). `Written`
is what stands at the ends of a value: a bracket, a quote, or a
primitive that is not empty; strings and primitives have no members.
-/
import Psnet.Jsmn.Stable

namespace Psnet.Jsmn

open Forest

variable {js : List UInt8} {num k : Nat} {z z' : Zip}

/-- What the text has where a value starts or ends. -/
def Written (js : List UInt8) (a : Lab) (kids : Forest Lab) : Prop :=
  match a.type with
  | .object => byteAt js a.start = LBRACE
  | .array => byteAt js a.start = LBRACKET
  | .string => kids = .nil ∧ byteAt js a.stop = QUOTE
  | .primitive => kids = .nil ∧ a.start < a.stop

/-- The members of a value follow one another inside it. -/
abbrev LabSpans (lo : Nat) (f : Forest Lab) (hi : Nat) : Prop :=
  Spans Lab.start Lab.stop lo f hi

/-- Where the values at the innermost level may start. -/
def base (path : OpenPath) : Nat :=
  match path with
  | [] => 0
  | o :: _ => o.label.start

/-- The open brackets and what stands to their left are in order. -/
def PathGood (js : List UInt8) : OpenPath → Prop
  | [] => True
  | o :: path =>
      LabSpans (base path) o.left o.label.start
        ∧ All (Written js) o.left
        ∧ (∀ e kids, Written js ⟨o.label.type, o.label.start, e⟩ kids)
        ∧ PathGood js path

/-- What is read so far is in order. -/
structure ZipGood (js : List UInt8) (z : Zip) : Prop where
  path : PathGood js z.path
  spans : LabSpans (base z.path) z.cur z.pos
  all : All (Written js) z.cur

private theorem scanString_quote {l : List UInt8} {pos e : Nat}
    (h : scanString l pos = .ok e) : l[e - pos]? = some QUOTE := by
  induction l, pos using scanString.induct with
  | case1 pos => cases h
  | case2 cs pos =>
      rw [scanString.eq_def] at h
      cases h
  | case3 cs pos h0 =>
      rw [scanString.eq_def] at h
      cases h
      simp
  | case4 pos h0 hq => simp [scanString, h0, hq] at h
  | case5 pos c cs he h0 hq ih =>
      simp only [scanString, if_neg h0, if_neg hq, ↓reduceIte, he] at h
      have hle := (scanString_le h).1
      rw [show e - pos = e - (pos + 2) + 2 by omega]
      exact ih h
  | case6 pos c cs he h0 hq => simp [scanString, h0, hq, he] at h
  | case7 c cs pos h0 hq hb ih =>
      rw [scanString.eq_def] at h
      simp only [if_neg h0, if_neg hq, if_neg hb] at h
      have hle := (scanString_le h).1
      rw [show e - pos = e - (pos + 1) + 1 by omega]
      exact ih h

/-- The closing quote stands where the scan stops. -/
private theorem byteAt_scanString {i e : Nat}
    (h : scanString (js.drop i) i = .ok e) : byteAt js e = QUOTE := by
  have hle := (scanString_le h).1
  have hq := scanString_quote h
  rw [List.getElem?_drop, show i + (e - i) = e by omega] at hq
  simp [byteAt, hq]

theorem Read.good (h : Read js num z z') (h0 : byteAt js z.pos ≠ 0)
    (hg : ZipGood js z) : ZipGood js z' := by
  obtain ⟨hpath, hspans, hall⟩ := hg
  cases h with
  | opens type c hc ht hn =>
      refine ⟨⟨hspans, hall, fun e kids => ?_, hpath⟩, Nat.le_succ _,
        trivial⟩
      rcases ht with ⟨rfl, rfl⟩ | ⟨rfl, rfl⟩
      · exact hc
      · exact hc
  | closes o path hp =>
      rw [hp] at hpath hspans
      obtain ⟨hleft, hlall, hw, hrest⟩ := hpath
      refine ⟨hrest, hleft.append ⟨Nat.le_refl _, ?_, Nat.le_refl _⟩,
        hlall.append ⟨hw _ _, hall, trivial⟩⟩
      exact hspans.mono (Nat.le_succ _)
  | string e he hn =>
      have hle := (scanString_le he).1
      exact ⟨hpath, hspans.append ⟨Nat.le_succ _, hle, Nat.le_succ _⟩,
        hall.append ⟨⟨rfl, byteAt_scanString he⟩, trivial, trivial⟩⟩
  | blank => exact ⟨hpath, hspans.mono (Nat.le_succ _), hall⟩
  | primitive e hc he hn =>
      have hlt := (scanPrimitive_lt h0 hc he).1
      exact ⟨hpath,
        hspans.append ⟨Nat.le_refl _, Nat.le_of_lt hlt, Nat.le_refl _⟩,
        hall.append ⟨⟨rfl, hlt⟩, trivial, trivial⟩⟩

private theorem zipLoop_good (h : zipLoop js num k z = some (.ok z'))
    (hg : ZipGood js z) (hpos : z.pos ≤ js.length) :
    ZipGood js z' ∧ z'.pos ≤ js.length := by
  induction k generalizing z with
  | zero => cases h
  | succ k ih =>
      rw [zipLoop] at h
      by_cases h0 : byteAt js z.pos = 0
      · rw [if_pos h0] at h
        cases h
        exact ⟨hg, hpos⟩
      · rw [if_neg h0] at h
        cases hz : zipChar js num z with
        | error e =>
            rw [hz] at h
            cases h
        | ok z₁ =>
            rw [hz] at h
            have hread := zipChar_ok hz
            exact ih h (hread.good h0 hg) (hread.pos h0).2

theorem zipParse_good {f : Forest Lab} (h : zipParse js num = .ok f) :
    LabSpans 0 f js.length ∧ All (Written js) f := by
  obtain ⟨p, hp⟩ := zipParse_ok h
  obtain ⟨⟨-, hs, ha⟩, hle⟩ := zipLoop_good hp
    ⟨trivial, Nat.le_refl 0, trivial⟩ (Nat.zero_le _)
  exact ⟨hs.mono hle, ha⟩

/-- The values of a text stand before its first NUL. -/
theorem zipParse_spans {f : Forest Lab} (h : zipParse js num = .ok f) :
    LabSpans 0 f (cstr js).length := by
  rw [← zipParse_cstr] at h
  exact (zipParse_good h).1

end Psnet.Jsmn
