/-
What the parse of a text depends on.

It reads nothing past the first NUL (`zipParse_cstr`), it cannot tell
one digit from another (`zipParse_mask`), and the room it is given
decides only whether it succeeds (`zipParse_room`): a larger array gives
the same forest, a smaller one either the same forest or an error.

# What it is for

Two buffers with the same text are read alike though they differ behind
its NUL: a connection's buffer holds what longer messages left there. And
a router that has bumped the hops character of a message has changed one
digit to another, so the parse it made before is still that of the message
it sends.
-/
import Psnet.Jsmn.Tree

namespace Psnet.Jsmn

open Forest

variable {js : List UInt8} {num k : Nat} {z z' : Zip}

-- ============================================================== fuel and room

/-- What the loop gives with some fuel it gives with more. -/
theorem zipLoop_fuel {m : Nat} {r : Except JsmnErr Zip}
    (h : zipLoop js num k z = some r) (hm : k ≤ m) :
    zipLoop js num m z = some r := by
  induction k generalizing z m with
  | zero => cases h
  | succ k ih =>
      obtain ⟨m, rfl⟩ : ∃ j, m = j + 1 := ⟨m - 1, by omega⟩
      rw [zipLoop] at h ⊢
      by_cases h0 : byteAt js z.pos = 0
      · rw [if_pos h0] at h ⊢
        exact h
      · rw [if_neg h0] at h ⊢
        cases hz : zipChar js num z with
        | error e =>
            rw [hz] at h
            exact h
        | ok z' =>
            rw [hz] at h
            exact ih h (by omega)

/-- A step makes no token disappear, and none beyond the limit. -/
theorem Read.count (h : Read js num z z') :
    z.count ≤ z'.count ∧ (z.count ≤ num → z'.count ≤ num) := by
  cases h with
  | opens type c hc ht hn =>
      simp [Zip.count, pathCount] at *
      omega
  | closes o path hp =>
      simp [Zip.count, pathCount, hp] at *
      omega
  | string e he hn =>
      simp [Zip.count] at *
      omega
  | blank => exact ⟨Nat.le_refl _, id⟩
  | primitive e hc he hn =>
      simp [Zip.count] at *
      omega

/-- Neither does any number of steps. -/
theorem zipLoop_count (h : zipLoop js num k z = some (.ok z'))
    (hn : z.count ≤ num) : z.count ≤ z'.count ∧ z'.count ≤ num := by
  induction k generalizing z with
  | zero => cases h
  | succ k ih =>
      rw [zipLoop] at h
      by_cases h0 : byteAt js z.pos = 0
      · rw [if_pos h0] at h
        cases h
        exact ⟨Nat.le_refl _, hn⟩
      · rw [if_neg h0] at h
        cases hz : zipChar js num z with
        | error e =>
            rw [hz] at h
            cases h
        | ok z₁ =>
            rw [hz] at h
            obtain ⟨hle, hkeep⟩ := (zipChar_ok hz).count
            obtain ⟨h₁, h₂⟩ := ih h (hkeep hn)
            exact ⟨Nat.le_trans hle h₁, h₂⟩

/-- A step that fits one array fits another it fits into. -/
theorem zipChar_room {num' : Nat} (h : zipChar js num z = .ok z')
    (hn : z'.count ≤ num') : zipChar js num' z = .ok z' := by
  have hpush : ∀ p a, zipPush num z p a = .ok z' →
      zipPush num' z p a = .ok z' := by
    intro p a h
    obtain ⟨-, rfl⟩ := zipPush_ok h
    rw [zipPush, if_neg]
    simp [Zip.count] at hn ⊢
    omega
  have hopen : ∀ t, zipOpen num t z = .ok z' →
      zipOpen num' t z = .ok z' := by
    intro t h
    obtain ⟨-, rfl⟩ := zipOpen_ok h
    rw [zipOpen, if_neg]
    simp [Zip.count, pathCount] at hn ⊢
    omega
  revert h
  unfold zipChar
  simp only
  split
  · exact hopen _
  split
  · exact hopen _
  split
  · exact id
  split
  · exact id
  split
  · split
    · exact id
    · exact hpush _ _
  split
  · exact id
  · split
    · exact id
    · exact hpush _ _

/-- A parse that made so few tokens is the same under any limit that allows
for these. -/
private theorem zipLoop_room {num' : Nat}
    (h : zipLoop js num k z = some (.ok z')) (hz : z.count ≤ num)
    (hn : z'.count ≤ num') : zipLoop js num' k z = some (.ok z') := by
  induction k generalizing z with
  | zero => cases h
  | succ k ih =>
      rw [zipLoop] at h ⊢
      by_cases h0 : byteAt js z.pos = 0
      · rw [if_pos h0] at h ⊢
        exact h
      · rw [if_neg h0] at h ⊢
        cases hz' : zipChar js num z with
        | error e =>
            rw [hz'] at h
            cases h
        | ok z₁ =>
            rw [hz'] at h
            have hk := ((zipChar_ok hz').count).2 hz
            have := (zipLoop_count h hk).1
            rw [zipChar_room hz' (Nat.le_trans this hn)]
            exact ih h hk

/-- Behind a successful parse stands a run of the loop that closed every
value it opened. -/
theorem zipParse_ok {f : Forest Lab} (h : zipParse js num = .ok f) :
    ∃ p, zipLoop js num (js.length + 1) ⟨0, .nil, []⟩
      = some (.ok ⟨p, f, []⟩) := by
  unfold zipParse at h
  split at h
  · cases h
  · cases h
  · next z hz =>
    split at h
    · next hp =>
      cases h
      exact ⟨z.pos, by rw [hz, ← hp]⟩
    · cases h

/-- Any such run is the parse, whatever position it stopped at. -/
theorem zipParse_of_loop {f : Forest Lab} {p : Nat}
    (h : zipLoop js num (js.length + 1) ⟨0, .nil, []⟩
      = some (.ok ⟨p, f, []⟩)) : zipParse js num = .ok f := by
  simp only [zipParse, h]

/-- The forest of a text does not depend on the room there is for it, as
long as there is enough. -/
theorem zipParse_room {f : Forest Lab} {num' : Nat}
    (h : zipParse js num = .ok f) (hn : f.count ≤ num') :
    zipParse js num' = .ok f := by
  obtain ⟨p, hp⟩ := zipParse_ok h
  refine zipParse_of_loop (zipLoop_room hp (Nat.zero_le _) ?_)
  simpa [Zip.count, pathCount] using hn

/-- A parse has no more tokens than it was given room for. -/
theorem zipParse_count {f : Forest Lab} (h : zipParse js num = .ok f) :
    f.count ≤ num := by
  obtain ⟨p, hp⟩ := zipParse_ok h
  simpa [Zip.count, pathCount] using
    (zipLoop_count hp (Nat.zero_le _)).2

/-- A text that does not fit is refused; one that fits is read as with
any more room. -/
theorem zipParse_less {f : Forest Lab} (num' : Nat)
    (h : zipParse js num = .ok f) :
    if f.count ≤ num' then zipParse js num' = .ok f
    else ∃ e, zipParse js num' = .error e := by
  split
  · next hn => exact zipParse_room h hn
  · next hn =>
    cases h' : zipParse js num' with
    | error e => exact ⟨e, rfl⟩
    | ok g =>
        have hg := zipParse_count h'
        by_cases hle : g.count ≤ num
        · have := zipParse_room h' hle
          rw [h] at this
          cases this
          exact absurd hg hn
        · have : zipParse js num' = .ok f := zipParse_room h (by
            have := zipParse_count h
            omega)
          rw [h'] at this
          cases this
          exact absurd hg hn

/-- A text refused with the larger array is refused with the smaller. -/
theorem zipParse_error {e : JsmnErr} {num' : Nat} (hn : num' ≤ num)
    (h : zipParse js num = .error e) : ∃ e', zipParse js num' = .error e' := by
  cases h' : zipParse js num' with
  | error e' => exact ⟨e', rfl⟩
  | ok f =>
      have := zipParse_room h' (Nat.le_trans (zipParse_count h') hn)
      rw [h] at this
      cases this

-- =============================================================== C strings

/-- The text up to its first NUL. -/
def cstr (js : List UInt8) : List UInt8 := js.takeWhile (· ≠ 0)

/-- The text goes on behind a character exactly when that is no NUL. -/
theorem cstr_cons (c : UInt8) (cs : List UInt8) :
    cstr (c :: cs) = if c = 0 then [] else c :: cstr cs := by
  by_cases hc : c = 0 <;> simp [cstr, hc]

/-- The text is no longer than the bytes it stands in. -/
theorem cstr_length_le (js : List UInt8) : (cstr js).length ≤ js.length :=
  (List.takeWhile_prefix _).length_le

/-- Reading on from inside the text is reading on in the bytes. -/
private theorem cstr_drop {i : Nat} (hi : i ≤ (cstr js).length) :
    (cstr js).drop i = cstr (js.drop i) := by
  induction js generalizing i with
  | nil => simp [cstr]
  | cons c cs ih =>
      cases i with
      | zero => rfl
      | succ i =>
          rw [cstr_cons] at hi ⊢
          by_cases hc : c = 0
          · simp [hc] at hi
          · rw [if_neg hc] at hi ⊢
            exact ih (by simpa using hi)

/-- A byte of the array is the first of those from there on. -/
theorem byteAt_drop (i : Nat) : byteAt js i = byteAt (js.drop i) 0 := by
  simp [byteAt]

/-- The text has the bytes of the array, its terminator included. -/
theorem byteAt_cstr {i : Nat} (hi : i ≤ (cstr js).length) :
    byteAt (cstr js) i = byteAt js i := by
  rw [byteAt_drop, @byteAt_drop js, cstr_drop hi]
  cases js.drop i with
  | nil => rfl
  | cons c cs =>
      rw [cstr_cons]
      by_cases hc : c = 0
      · simp [hc, byteAt]
      · simp [hc, byteAt]

/-- Inside the C string there is no NUL. -/
theorem lt_cstr {i : Nat} (hi : i ≤ (cstr js).length)
    (h0 : byteAt js i ≠ 0) : i < (cstr js).length := by
  by_contra hge
  rw [← byteAt_cstr hi] at h0
  exact h0 (by simp [byteAt, Nat.le_of_not_lt hge])

/-- A NUL ends the text, whatever follows it. -/
theorem cstr_append_nul (m r : List UInt8) : cstr (m ++ 0 :: r) = cstr m := by
  induction m with
  | nil => rfl
  | cons c m ih => rw [List.cons_append, cstr_cons, cstr_cons, ih]

/-- What follows a text does not change its bytes. -/
theorem byteAt_append {l : List UInt8} (r : List UInt8) {i : Nat}
    (h : i < l.length) : byteAt (l ++ r) i = byteAt l i := by
  simp [byteAt, List.getElem?_append_left h]

/-- A primitive ends at the terminator at the latest. -/
private theorem scanPrimitive_cstr (l : List UInt8) (pos : Nat) :
    scanPrimitive (cstr l) pos = scanPrimitive l pos := by
  induction l generalizing pos with
  | nil => rfl
  | cons c cs ih =>
      rw [cstr_cons]
      by_cases hc : c = 0
      · simp [hc, scanPrimitive]
      · simp only [if_neg hc, scanPrimitive, ih]

/-- A string that is not closed before the terminator is not closed. -/
private theorem scanString_cstr (l : List UInt8) (pos : Nat) :
    scanString (cstr l) pos = scanString l pos := by
  induction l, pos using scanString.induct with
  | case1 pos => rfl
  | case2 cs pos => simp [cstr, scanString, scanString.eq_def (0 :: cs)]
  | case3 cs pos h0 =>
      rw [cstr_cons, if_neg h0, scanString.eq_def, scanString.eq_def]
      rfl
  | case4 pos h0 hq => rw [cstr_cons, if_neg h0]; rfl
  | case5 pos c cs he h0 hq ih =>
      have hc : c ≠ 0 := by
        intro heq
        subst heq
        exact absurd he (by decide)
      rw [cstr_cons, if_neg h0, cstr_cons, if_neg hc]
      simp only [scanString, if_neg h0, if_neg hq, ↓reduceIte, he, ih]
  | case6 pos c cs he h0 hq =>
      rw [cstr_cons, if_neg h0, cstr_cons]
      by_cases hc : c = 0
      · subst hc
        rfl
      · simp [scanString, h0, hq, he, hc]
  | case7 c cs pos h0 hq hb ih =>
      rw [cstr_cons, if_neg h0, scanString.eq_def, scanString.eq_def (c :: cs)]
      simp only [if_neg h0, if_neg hq, if_neg hb, ih]

/-- A step on a character of the text sees the text only. -/
private theorem zipChar_cstr (hz : z.pos ≤ (cstr js).length)
    (h0 : byteAt js z.pos ≠ 0) :
    zipChar (cstr js) num z = zipChar js num z := by
  have hlt := lt_cstr hz h0
  unfold zipChar
  rw [byteAt_cstr hz, cstr_drop hz, cstr_drop hlt, scanPrimitive_cstr,
    scanString_cstr]

/-- The loop sees the text only, since it stops at the terminator. -/
private theorem zipLoop_cstr (hz : z.pos ≤ (cstr js).length) :
    zipLoop (cstr js) num k z = zipLoop js num k z := by
  induction k generalizing z with
  | zero => rfl
  | succ k ih =>
      rw [zipLoop, zipLoop, byteAt_cstr hz]
      by_cases h0 : byteAt js z.pos = 0
      · rw [if_pos h0, if_pos h0]
      · rw [if_neg h0, if_neg h0, zipChar_cstr hz h0]
        cases hz' : zipChar js num z with
        | error e => rfl
        | ok z₁ =>
            rw [← zipChar_cstr hz h0] at hz'
            refine ih ((zipChar_ok hz').pos ?_).2
            rw [byteAt_cstr hz]
            exact h0

/-- The parse reads nothing past the first NUL. -/
theorem zipParse_cstr (js : List UInt8) (num : Nat) :
    zipParse (cstr js) num = zipParse js num := by
  obtain ⟨r, hr⟩ := @zipLoop_total ⟨0, .nil, []⟩ num (cstr js)
    ((cstr js).length + 1) (Nat.zero_le _) (Nat.lt_succ_self _)
  have hr' := zipLoop_fuel (m := js.length + 1) hr
    (Nat.succ_le_succ (cstr_length_le js))
  rw [zipLoop_cstr (Nat.zero_le _)] at hr'
  unfold zipParse
  rw [hr, hr']

/-- Texts that agree up to the first NUL have one parse. -/
theorem zipParse_congr {js' : List UInt8} (h : cstr js = cstr js')
    (num : Nat) : zipParse js num = zipParse js' num := by
  rw [← zipParse_cstr js, h, zipParse_cstr]

/-- Two buffers that hold the same bytes up to a NUL at `n`. -/
structure AgreeTo (n : Nat) (js js' : List UInt8) : Prop where
  bytes : ∀ i ≤ n, byteAt js i = byteAt js' i
  nul : byteAt js n = 0

/-- Two arrays with the same text agree up to its end. -/
theorem AgreeTo.of_cstr {js' : List UInt8} (h : cstr js = cstr js') :
    AgreeTo (cstr js).length js js' where
  bytes i hi := by rw [← byteAt_cstr hi, h, byteAt_cstr (h ▸ hi)]
  nul := by
    rw [← byteAt_cstr (Nat.le_refl _)]
    simp [byteAt]

/-- A NUL written into an array is read back, and nothing else changes. -/
private theorem byteAt_set_zero (js : List UInt8) (i k : Nat) :
    byteAt (js.set i 0) k = if k = i then 0 else byteAt js k := by
  unfold byteAt
  rw [List.getD_eq_getElem?_getD, List.getD_eq_getElem?_getD,
    List.getElem?_set]
  by_cases hk : i = k
  · subst hk
    by_cases hlt : i < js.length <;> simp [hlt]
  · rw [if_neg hk, if_neg (Ne.symm hk)]

/-- Ending a value with a NUL keeps them so. -/
theorem AgreeTo.set {n : Nat} {js' : List UInt8} (h : AgreeTo n js js')
    (i : Nat) : AgreeTo n (js.set i 0) (js'.set i 0) where
  bytes k hk := by rw [byteAt_set_zero, byteAt_set_zero, h.bytes k hk]
  nul := by
    rw [byteAt_set_zero, h.nul]
    split <;> rfl

/-- A key without NUL that is found in one of two such arrays is found in
the other: the comparison ends where they stop to agree. -/
theorem AgreeTo.startsWith {n : Nat} {js' key : List UInt8}
    (h : AgreeTo n js js') (hk : ∀ c ∈ key, c ≠ 0) {i : Nat} (hi : i ≤ n) :
    startsWith js i key = Jsmn.startsWith js' i key := by
  induction key generalizing i with
  | nil => rfl
  | cons c key ih =>
      rw [Jsmn.startsWith, Jsmn.startsWith, ← h.bytes i hi]
      by_cases hc : byteAt js i = c
      · have hne : i ≠ n := by
          intro heq
          subst heq
          exact hk c (List.mem_cons_self ..) (hc ▸ h.nul)
        rw [ih (fun d hd => hk d (List.mem_cons_of_mem _ hd)) (by omega)]
      · rw [beq_false_of_ne hc, Bool.false_and, Bool.false_and]

/-- The text from a position on, by the character there. -/
private theorem cstr_drop_cons (js : List UInt8) (i : Nat) :
    cstr (js.drop i) = if byteAt js i = 0 then []
      else byteAt js i :: cstr (js.drop (i + 1)) := by
  rw [← List.drop_drop, byteAt_drop]
  cases js.drop i with
  | nil => simp [cstr, byteAt]
  | cons c cs => exact cstr_cons c cs

/-- The C strings that start before that NUL are the same. -/
theorem AgreeTo.drop {n : Nat} {js' : List UInt8} (h : AgreeTo n js js')
    {i : Nat} (hi : i ≤ n) : cstr (js.drop i) = cstr (js'.drop i) := by
  induction hk : n - i generalizing i with
  | zero =>
      obtain rfl : i = n := by omega
      rw [cstr_drop_cons js, cstr_drop_cons js', ← h.bytes i hi, h.nul,
        if_pos rfl, if_pos rfl]
  | succ k ih =>
      rw [cstr_drop_cons js, cstr_drop_cons js', ← h.bytes i hi,
        ih (i := i + 1) (by omega) (by omega)]

/-- A key holds no NUL, so a comparison stops where the text does. -/
theorem startsWith_congr {js' : List UInt8} (h : cstr js = cstr js')
    {key : List UInt8} (hk : ∀ c ∈ key, c ≠ 0) {i : Nat}
    (hi : i ≤ (cstr js).length) :
    startsWith js i key = startsWith js' i key :=
  (AgreeTo.of_cstr h).startsWith hk hi

-- ================================================================== digits

/-- One digit for all. -/
def mask (c : UInt8) : UInt8 := if 48 ≤ c ∧ c ≤ 57 then 48 else c

/-- Only digits are taken for one another. -/
private theorem mask_eq_iff {c d : UInt8} (hd : ¬ (48 ≤ d ∧ d ≤ 57)) :
    mask c = d ↔ c = d := by
  unfold mask
  split
  · next hc =>
    constructor
    · intro heq
      subst heq
      exact absurd (by decide) hd
    · intro heq
      subst heq
      exact absurd hc hd
  · rfl

/-- A digit is no blank, whichever it is. -/
private theorem isBlank_mask (c : UInt8) : isBlank (mask c) = isBlank c := by
  rw [Bool.eq_iff_iff]
  simp only [isBlank, Bool.or_eq_true, beq_iff_eq]
  rw [mask_eq_iff (by decide), mask_eq_iff (by decide),
    mask_eq_iff (by decide), mask_eq_iff (by decide),
    mask_eq_iff (by decide), mask_eq_iff (by decide)]

/-- A digit ends no primitive. -/
private theorem endsPrimitive_mask (c : UInt8) :
    endsPrimitive (mask c) = endsPrimitive c := by
  rw [Bool.eq_iff_iff]
  simp only [endsPrimitive, isBlank_mask, Bool.or_eq_true, beq_iff_eq]
  rw [mask_eq_iff (by decide), mask_eq_iff (by decide)]

/-- No escape is a digit. -/
private theorem isEscape_mask (c : UInt8) : isEscape
    (mask c) = isEscape c := by
  rw [Bool.eq_iff_iff]
  simp only [isEscape, Bool.or_eq_true, beq_iff_eq]
  rw [mask_eq_iff (by decide), mask_eq_iff (by decide),
    mask_eq_iff (by decide), mask_eq_iff (by decide),
    mask_eq_iff (by decide), mask_eq_iff (by decide),
    mask_eq_iff (by decide), mask_eq_iff (by decide),
    mask_eq_iff (by decide)]

/-- All digits are printable. -/
private theorem mask_range (c : UInt8) :
    (mask c < 32 ∨ 127 ≤ mask c) ↔ (c < 32 ∨ 127 ≤ c) := by
  unfold mask
  split
  · next hc =>
    simp only [UInt8.le_iff_toNat_le, UInt8.lt_iff_toNat_lt,
      UInt8.reduceToNat] at *
    omega
  · rfl

/-- A primitive ends in the same place whatever its digits are. -/
private theorem scanPrimitive_mask (l : List UInt8) (pos : Nat) :
    scanPrimitive (l.map mask) pos = scanPrimitive l pos := by
  induction l generalizing pos with
  | nil => rfl
  | cons c cs ih =>
      simp only [List.map_cons, scanPrimitive, endsPrimitive_mask,
        mask_eq_iff (show ¬ (48 ≤ (0 : UInt8) ∧ (0 : UInt8) ≤ 57) by decide),
        mask_range, ih]

/-- A string ends in the same place whatever digits are in it. -/
private theorem scanString_mask (l : List UInt8) (pos : Nat) :
    scanString (l.map mask) pos = scanString l pos := by
  induction l, pos using scanString.induct with
  | case1 pos => rfl
  | case2 cs pos =>
      rw [scanString.eq_def, scanString.eq_def (0 :: cs)]
      rfl
  | case3 cs pos h0 =>
      rw [scanString.eq_def, scanString.eq_def (QUOTE :: cs)]
      rfl
  | case4 pos h0 hq => rfl
  | case5 pos c cs he h0 hq ih =>
      rw [List.map_cons, (mask_eq_iff (by decide)).mpr (Eq.refl BACKSLASH),
        List.map_cons]
      simp only [scanString, if_neg h0, if_neg hq, ↓reduceIte, he,
        isEscape_mask, ih]
  | case6 pos c cs he h0 hq =>
      rw [List.map_cons, (mask_eq_iff (by decide)).mpr (Eq.refl BACKSLASH),
        List.map_cons]
      simp [scanString, h0, hq, he, isEscape_mask]
  | case7 c cs pos h0 hq hb ih =>
      have h : ∀ d : UInt8, ¬ (48 ≤ d ∧ d ≤ 57) → ¬ c = d → ¬ mask c = d :=
        fun d hd hc => (mask_eq_iff hd).not.mpr hc
      rw [List.map_cons, scanString.eq_def, scanString.eq_def (c :: cs)]
      simp only [if_neg h0, if_neg hq, if_neg hb, ih,
        if_neg (h 0 (by decide) h0), if_neg (h QUOTE (by decide) hq),
        if_neg (h BACKSLASH (by decide) hb)]

/-- The bytes of a masked array are masked. -/
private theorem byteAt_mask (js : List UInt8) (i : Nat) :
    byteAt (js.map mask) i = mask (byteAt js i) := by
  simp only [byteAt, List.getD_eq_getElem?_getD, List.getElem?_map]
  cases js[i]? <;> rfl

/-- A step does not tell one digit from another. -/
private theorem zipChar_mask (js : List UInt8) (num : Nat) (z : Zip) :
    zipChar (js.map mask) num z = zipChar js num z := by
  have h : ∀ d : UInt8, ¬ (48 ≤ d ∧ d ≤ 57) →
      (mask (byteAt js z.pos) = d) = (byteAt js z.pos = d) :=
    fun d hd => propext (mask_eq_iff hd)
  unfold zipChar
  simp only [byteAt_mask, ← List.map_drop, scanString_mask,
    scanPrimitive_mask, isBlank_mask, h LBRACE (by decide),
    h LBRACKET (by decide), h RBRACE (by decide), h RBRACKET (by decide),
    h QUOTE (by decide)]

/-- The loop does not tell one digit from another. -/
private theorem zipLoop_mask (js : List UInt8) (num k : Nat) (z : Zip) :
    zipLoop (js.map mask) num k z = zipLoop js num k z := by
  induction k generalizing z with
  | zero => rfl
  | succ k ih =>
      rw [zipLoop, zipLoop, byteAt_mask, zipChar_mask]
      simp only [ih, mask_eq_iff
        (show ¬ (48 ≤ (0 : UInt8) ∧ (0 : UInt8) ≤ 57) by decide)]

/-- The parse cannot tell one digit from another. -/
theorem zipParse_mask {js' : List UInt8} (h : js.map mask = js'.map mask)
    (num : Nat) : zipParse js num = zipParse js' num := by
  unfold zipParse
  have hlen : js.length = js'.length := by
    simpa using congrArg List.length h
  rw [← zipLoop_mask js, h, zipLoop_mask, hlen]

/-- Nor can the lookups, when the key holds no digit. -/
theorem startsWith_mask {js js' : List UInt8}
    (h : js.map mask = js'.map mask) {key : List UInt8}
    (hk : ∀ c ∈ key, ¬ (48 ≤ c ∧ c ≤ 57)) (i : Nat) :
    startsWith js i key = startsWith js' i key := by
  induction key generalizing i with
  | nil => rfl
  | cons c key ih =>
      have hc := hk c (List.mem_cons_self ..)
      have hbyte : (byteAt js i == c) = (byteAt js' i == c) := by
        rw [Bool.eq_iff_iff, beq_iff_eq, beq_iff_eq, ← mask_eq_iff hc,
          ← byteAt_mask, h, byteAt_mask, mask_eq_iff hc]
      rw [startsWith, startsWith, hbyte,
        ih fun d hd => hk d (List.mem_cons_of_mem _ hd)]

end Psnet.Jsmn
