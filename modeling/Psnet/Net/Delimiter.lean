/-
The delimiter matcher of `tcp_read_msg`.

The matcher counts how much of CR LF CR LF the last characters are, but
after a character that does not continue the match it starts again from
nothing, even where that character is a CR and begins the delimiter
anew. What it loses that way is a matter of parity: its count is odd
exactly when an odd number of CRs was just read (`matched_parity`). So a
message is cut at its delimiter when an even number of CRs stands before
it, and otherwise not (`matched_delim`).

# What is stated of a stream

`FirstEnd s n` says that the first delimiter of `s` ends at `n`, which is
where a reader should cut, and `EvenBefore s n` that an even number of CRs
stands right before that delimiter. Neither mentions the matcher. A stream
of several messages is cut message by message, each up to where the one
before was cut, so one odd run of CRs shifts everything behind it
(`readsAll_iff`).
-/
import Psnet.Net.Response
import Mathlib.Data.List.TakeWhile
import Mathlib.Tactic.IntervalCases

namespace Psnet.Net

def CR : UInt8 := 13

def LF : UInt8 := 10

/-- The matching state after a character. -/
def advance (pos : Nat) (c : UInt8) : Nat :=
  if c = delim.getD pos 0 then pos + 1 else 0

/-- The matching state after a text. -/
def matched (w : List UInt8) : Nat := w.foldl advance 0

/-- How many CRs a text ends in. -/
def crRun (w : List UInt8) : Nat := (w.reverse.takeWhile (· = CR)).length

/-- A delimiter ends at position `n` of the stream. -/
def EndsAt (s : List UInt8) (n : Nat) : Prop :=
  n ≤ s.length ∧ delim <:+ s.take n

/-- The first one ends there. -/
def FirstEnd (s : List UInt8) (n : Nat) : Prop :=
  EndsAt s n ∧ ∀ m < n, ¬ EndsAt s m

instance (s : List UInt8) (n : Nat) : Decidable (EndsAt s n) :=
  inferInstanceAs (Decidable (_ ∧ _))

instance (s : List UInt8) (n : Nat) : Decidable (FirstEnd s n) :=
  inferInstanceAs (Decidable (_ ∧ ∀ m < n, ¬ EndsAt s m))

variable {s buf : List UInt8}

-- ===================================================================== the loop

/-- Where the loop stops: at the first match, or where the buffer is
full. -/
private theorem readLoop_iff {room pos n : Nat} :
    readLoop room pos s = some n
      ↔ n ≤ room ∧ n ≤ s.length
        ∧ (∀ j < n, (s.take j).foldl advance pos < delim.length)
        ∧ (n = room ∨ delim.length ≤ (s.take n).foldl advance pos) := by
  induction room generalizing pos s n with
  | zero =>
      rw [readLoop, Option.some.injEq]
      constructor
      · intro heq
        subst heq
        simp
      · intro h
        obtain ⟨h, -⟩ := h
        omega
  | succ room ih =>
      rw [readLoop.eq_def]
      simp only
      -- the loop ends before it reads when the whole delimiter has been
      -- matched
      by_cases hpos : delim.length ≤ pos
      · rw [if_pos hpos, Option.some.injEq]
        constructor
        · intro heq
          subst heq
          simpa using hpos
        · intro h
          obtain ⟨-, -, hall, -⟩ := h
          by_contra hn
          have := hall 0 (by omega)
          simp only [List.take_zero, List.foldl_nil] at this
          omega
      · rw [if_neg hpos]
        cases s with
        | nil =>
            constructor
            · exact fun h => nomatch h
            · intro h
              obtain ⟨-, hlen, -, hend⟩ := h
              obtain rfl : n = 0 := by simpa using hlen
              rcases hend with hend | hend
              · omega
              · exact absurd hend hpos
        | cons c s =>
            simp only [Option.map_eq_some_iff]
            have ih := @ih s (advance pos c)
            cases n with
            | zero =>
                constructor
                · intro h
                  obtain ⟨k, -, hk⟩ := h
                  omega
                · intro h
                  obtain ⟨-, -, -, hend⟩ := h
                  rcases hend with hend | hend
                  · omega
                  · exact absurd hend hpos
            | succ n =>
                -- one character further: what is said of `n` is said of `n
                -- + 1` here
                simp only [advance] at ih
                simp only [Nat.add_right_cancel_iff, exists_eq_right, ih,
                  List.length_cons, Nat.add_le_add_iff_right,
                  List.take_succ_cons, List.foldl_cons]
                constructor
                · intro h
                  obtain ⟨h₁, h₂, h₃, h₄⟩ := h
                  refine ⟨h₁, h₂, fun j hj => ?_, h₄⟩
                  cases j with
                  | zero => exact Nat.lt_of_not_le hpos
                  | succ j => exact h₃ j (by omega)
                · intro h
                  obtain ⟨h₁, h₂, h₃, h₄⟩ := h
                  exact ⟨h₁, h₂, fun j hj => h₃ (j + 1) (by omega), h₄⟩

-- ==================================================================== the state

/-- One byte more is read. -/
private theorem take_succ {j : Nat} (hj : j < s.length) :
    ∃ c, s.take (j + 1) = s.take j ++ [c] :=
  ⟨_, (List.take_append_getElem hj).symm⟩

/-- Matching goes on from where it was. -/
private theorem matched_concat (w : List UInt8) (c : UInt8) :
    matched (w ++ [c]) = advance (matched w) c := by simp [matched]

/-- A carriage return makes the run longer, anything else ends it. -/
private theorem crRun_concat (w : List UInt8) (c : UInt8) :
    crRun (w ++ [c]) = if c = CR then crRun w + 1 else 0 := by
  by_cases hc : c = CR <;> simp [crRun, hc]

/-- What was matched so far is what the text ends in. -/
private theorem advance_suffix {w : List UInt8} {pos : Nat} (c : UInt8)
    (hpos : pos < delim.length) (h : delim.take pos <:+ w) :
    advance pos c ≤ delim.length
      ∧ delim.take (advance pos c) <:+ w ++ [c] := by
  unfold advance
  split
  · next hc =>
    refine ⟨hpos, ?_⟩
    rw [← List.take_append_getElem hpos]
    obtain ⟨v, hv⟩ := h
    refine ⟨v, ?_⟩
    rw [← List.append_assoc, hv, hc]
    simp [hpos]
  · exact ⟨Nat.zero_le _, List.nil_suffix⟩

/-- Up to the first full match, the state is what the text ends in. -/
private theorem matched_suffix {n : Nat} (hs : n ≤ s.length)
    (hlt : ∀ j < n, matched (s.take j) < delim.length) :
    matched (s.take n) ≤ delim.length
      ∧ delim.take (matched (s.take n)) <:+ s.take n := by
  induction n with
  | zero => simp [matched]
  | succ n ih =>
      obtain ⟨-, hsuf⟩ := ih (by omega) fun j hj => hlt j (by omega)
      obtain ⟨c, hc⟩ := take_succ (s := s) (j := n) (by omega)
      have := advance_suffix c (hlt n (by omega)) hsuf
      rwa [← matched_concat, ← hc] at this

/-- Before the first delimiter nothing is matched in full. -/
private theorem matched_lt {n : Nat} (hs : n ≤ s.length + 1)
    (hn : ∀ m < n, ¬ EndsAt s m) :
    ∀ j < n, matched (s.take j) < delim.length := by
  intro j
  induction j using Nat.strong_induction_on with
  | h j ih =>
      intro hj
      obtain ⟨hle, hsuf⟩ := matched_suffix (s := s) (n := j) (by omega)
        fun i hi => ih i hi (by omega)
      apply Nat.lt_of_le_of_ne hle
      intro heq
      rw [heq, List.take_length] at hsuf
      exact hn j hj ⟨by omega, hsuf⟩

/-- What the two characters of the delimiter do to the state. -/
private theorem advance_cr {pos : Nat} (h : pos < delim.length) :
    advance pos CR = if pos % 2 = 0 then pos + 1 else 0 := by
  have h : pos < 4 := h
  interval_cases pos <;> decide

/-- A line feed goes on where one is due, and starts over otherwise. -/
private theorem advance_lf {pos : Nat} (h : pos < delim.length) :
    advance pos LF = if pos % 2 = 1 then pos + 1 else 0 := by
  have h : pos < 4 := h
  interval_cases pos <;> decide

/-- Any other byte starts over. -/
private theorem advance_other {pos : Nat} {c : UInt8} (h : pos < delim.length)
    (hcr : c ≠ CR) (hlf : c ≠ LF) : advance pos c = 0 := by
  have h : pos < 4 := h
  have hcr : c ≠ 13 := hcr
  have hlf : c ≠ 10 := hlf
  interval_cases pos <;> simp [advance, delim, hcr, hlf]

/-- The state is odd after an odd number of CRs. -/
private theorem matched_parity {p : Nat} (hp : p ≤ s.length)
    (h : ∀ j ≤ p, matched (s.take j) < delim.length) :
    matched (s.take p) % 2 = crRun (s.take p) % 2 := by
  induction p with
  | zero => simp [matched, crRun]
  | succ p ih =>
      have ih := ih (by omega) fun j hj => h j (by omega)
      have hlt := h p (by omega)
      obtain ⟨c, hc⟩ := take_succ (s := s) (j := p) (by omega)
      rw [hc, matched_concat, crRun_concat]
      by_cases hcr : c = CR
      · rw [hcr, advance_cr hlt, if_pos rfl]
        split <;> omega
      · rw [if_neg hcr]
        by_cases hlf : c = LF
        · rw [hlf, advance_lf hlt]
          split <;> omega
        · rw [advance_other hlt hcr hlf]

/-- An even number of CRs stands before the delimiter that ends at
`n`. -/
def EvenBefore (s : List UInt8) (n : Nat) : Prop :=
  crRun (s.take (n - delim.length)) % 2 = 0

instance (s : List UInt8) (n : Nat) : Decidable (EvenBefore s n) :=
  inferInstanceAs (Decidable (_ = _))

/-- The state after a delimiter none was matched before, by the CRs
before it. -/
private theorem matched_delim {n : Nat} (h : EndsAt s n)
    (hlt : ∀ j < n, matched (s.take j) < delim.length) :
    matched (s.take n) = if EvenBefore s n then delim.length else 2 := by
  obtain ⟨hle, w, hw⟩ := h
  have hlen := congrArg List.length hw
  rw [List.length_append, List.length_take_of_le hle] at hlen
  have htake : ∀ j ≤ delim.length,
      s.take (w.length + j) = w ++ delim.take j := by
    intro j hj
    rw [← List.take_length_add_append, hw, List.take_take,
      Nat.min_eq_left (by omega)]
  have hwl : s.take w.length = w := by simpa using htake 0 (by decide)
  have hd : delim.length = 4 := rfl
  have hpar := matched_parity (s := s) (p := w.length) (by omega)
    fun j hj => hlt j (by omega)
  have h0 := hlt w.length (by omega)
  -- a match of the first half of the delimiter would have ended it
  have h2 : matched (s.take (w.length + 2)) < delim.length :=
    hlt _ (by omega)
  have hn : matched (s.take n)
      = advance (advance (advance (advance (matched w) CR) LF) CR) LF := by
    rw [← hw]
    simp [matched, delim, CR, LF]
  rw [htake 2 (by decide), show matched (w ++ delim.take 2)
    = advance (advance (matched w) CR) LF by
      simp [matched, delim, CR, LF]] at h2
  simp only [EvenBefore, show n - delim.length = w.length by omega]
  rw [hn, hwl] at *
  revert hpar h2 h0
  generalize matched w = k
  intro hpar h0 h2
  have h0 : k < 4 := h0
  rw [← hpar]
  interval_cases k
  · rfl
  · rfl
  · exact absurd h2 (by decide)
  · rfl

-- ================================================================== the messages

/-- The loop stops at the first delimiter exactly when the buffer ends
there or an even number of CRs stands before it. -/
private theorem readLoop_first {n room : Nat} (h : FirstEnd s n)
    (hn : n ≤ room) :
    readLoop room 0 s = some n ↔ (n < room → EvenBefore s n) := by
  have hlt := matched_lt (Nat.le_succ_of_le h.1.1) h.2
  have hm := matched_delim h.1 hlt
  rw [matched] at hm
  rw [readLoop_iff, hm]
  constructor
  · intro h hroom
    obtain ⟨-, -, -, hend⟩ := h
    by_contra hodd
    rw [if_neg hodd] at hend
    exact absurd (hend.resolve_left (by omega)) (by decide)
  · intro heven
    refine ⟨hn, h.1.1, hlt, ?_⟩
    rcases Nat.lt_or_ge n room with hroom | hroom
    · exact Or.inr (by rw [if_pos (heven hroom)])
    · exact Or.inl (by omega)

/-- The loop stops before the buffer is full exactly when a delimiter
with an even number of CRs before it ends before that. -/
theorem readLoop_stops (room : Nat) (s : List UInt8) :
    (∃ n < room, readLoop room 0 s = some n)
      ↔ ∃ n < room, EndsAt s n ∧ EvenBefore s n := by
  constructor
  · intro h
    obtain ⟨n, hn, hread⟩ := h
    obtain ⟨-, hs, hlt, hend⟩ := readLoop_iff.mp hread
    have hfull := hend.resolve_left (by omega)
    obtain ⟨hle, hsuf⟩ := matched_suffix hs hlt
    have heq : matched (s.take n) = delim.length :=
      Nat.le_antisymm hle hfull
    rw [heq, List.take_length] at hsuf
    refine ⟨n, hn, ⟨hs, hsuf⟩, ?_⟩
    have hm := matched_delim ⟨hs, hsuf⟩ hlt
    by_contra hodd
    rw [heq, if_neg hodd] at hm
    cases hm
  · intro h
    obtain ⟨n, hn, hends, heven⟩ := h
    -- the loop stops there, unless it stopped before
    have hex : ∃ j, j ≤ n ∧ delim.length ≤ matched (s.take j) := by
      by_contra hno
      simp only [not_exists, not_and, Nat.not_le] at hno
      have hm := matched_delim hends fun j hj => hno j (Nat.le_of_lt hj)
      rw [if_pos heven] at hm
      exact absurd (hno n (Nat.le_refl n)) (by omega)
    obtain ⟨hle, hfull⟩ := Nat.find_spec hex
    refine ⟨Nat.find hex, by omega, readLoop_iff.mpr
      ⟨by omega, Nat.le_trans hle hends.1, fun j hj => ?_, Or.inr hfull⟩⟩
    have := Nat.find_min hex hj
    rw [not_and, Nat.not_le] at this
    exact this (by omega)

/-- Without a delimiter the loop fills the buffer. -/
private theorem readLoop_full {room : Nat} (h : ∀ n ≤ room, ¬ EndsAt s n)
    (hs : room ≤ s.length) : readLoop room 0 s = some room :=
  readLoop_iff.mpr ⟨Nat.le_refl _, hs, matched_lt (by omega)
    fun m hm => h m (Nat.le_of_lt hm), Or.inl rfl⟩

/-- `tcp_read_msg` stores what the loop read, and leaves the rest in the
stream. -/
theorem tcpReadMsg_iff {n : Nat} (hn : 0 < n) :
    tcpReadMsg s buf = (n, store buf (s.take n), s.drop n)
      ↔ readLoop buf.length 0 s = some n := by
  unfold tcpReadMsg
  cases readLoop buf.length 0 s with
  | none =>
      simp only [Prod.mk.injEq, reduceCtorEq, iff_false, not_and]
      omega
  | some k =>
      simp only [Prod.mk.injEq, Option.some.injEq]
      exact ⟨fun h => h.1, fun h => h ▸ ⟨rfl, rfl, rfl⟩⟩

/-- A message is not empty. -/
theorem FirstEnd.pos {n : Nat} (h : FirstEnd s n) : 0 < n := by
  obtain ⟨⟨hle, hsuf⟩, -⟩ := h
  have := hsuf.length_le
  rw [List.length_take_of_le hle] at this
  exact Nat.lt_of_lt_of_le (by decide) this

/-- What `tcp_read_msg` is to make of a stream: the first message, where
its delimiter ends within the buffer, and a full buffer where none
does. -/
def CutsRight (s buf : List UInt8) : Prop :=
  (∀ n, FirstEnd s n → n ≤ buf.length →
    tcpReadMsg s buf = (n, store buf (s.take n), s.drop n))
  ∧ (buf.length ≤ s.length → (∀ n ≤ buf.length, ¬ EndsAt s n) →
    tcpReadMsg s buf
      = (buf.length, s.take buf.length, s.drop buf.length))

/-- One call after the other returns the messages, until the stream is
at its end. -/
def ReadsAll : List (List UInt8) → List UInt8 → List UInt8 → Prop
  | [], s, _ => s = []
  | m :: ms, s, buf => ∃ rest,
      tcpReadMsg s buf = (m.length, store buf m, rest)
        ∧ ReadsAll ms rest (store buf m)

/-- What comes later does not change where a message ends. -/
private theorem endsAt_append {m r : List UInt8} {k : Nat}
    (hk : k ≤ m.length) :
    EndsAt (m ++ r) k ↔ EndsAt m k := by
  unfold EndsAt
  rw [List.take_append_of_le_length hk, List.length_append]
  exact and_congr_left fun _ => ⟨fun _ => hk, fun _ => by omega⟩

/-- The first end of a message is the first end of a stream that begins with
it. -/
private theorem firstEnd_append {m : List UInt8} (r : List UInt8)
    (h : FirstEnd m m.length) : FirstEnd (m ++ r) m.length :=
  ⟨(endsAt_append (Nat.le_refl _)).mpr h.1, fun k hk hend =>
    h.2 k hk ((endsAt_append (Nat.le_of_lt hk)).mp hend)⟩

/-- What comes later does not change what stands before the delimiter. -/
private theorem evenBefore_append {m : List UInt8} (r : List UInt8) :
    EvenBefore (m ++ r) m.length ↔ EvenBefore m m.length := by
  rw [EvenBefore, EvenBefore, List.take_append_of_le_length (by omega)]

/-- A text without CRs ends at the first delimiter after it. -/
theorem firstEnd_delim {w : List UInt8} (h : CR ∉ w) :
    FirstEnd (w ++ delim) (w ++ delim).length := by
  refine ⟨⟨Nat.le_refl _, ?_⟩, ?_⟩
  · rw [List.take_length]
    exact List.suffix_append _ _
  intro n hn h
  obtain ⟨hle, v, hv⟩ := h
  -- a delimiter that ends before would begin in the text
  have hlen := congrArg List.length hv
  rw [List.length_append, List.length_take_of_le hle] at hlen
  have hd : delim.length = 4 := rfl
  rw [List.length_append] at hn
  have hcr : (w ++ delim)[v.length]? = some CR := by
    have := congrArg (fun l => l[v.length]?) hv
    simp only [List.getElem?_append_right (Nat.le_refl _), Nat.sub_self]
      at this
    rw [List.getElem?_take_of_lt (by omega)] at this
    exact this.symm
  rw [List.getElem?_append_left (by omega)] at hcr
  exact h (List.mem_of_getElem? hcr)

/-- Behind a text without carriage returns their number is even. -/
private theorem evenBefore_delim {w : List UInt8} (h : CR ∉ w) :
    EvenBefore (w ++ delim) (w ++ delim).length := by
  have hrun : w.reverse.takeWhile (· = CR) = [] := by
    apply List.takeWhile_eq_nil_iff.mpr
    intro hlen
    have hmem := List.mem_reverse.mp (List.getElem_mem hlen)
    simp only [decide_eq_true_eq]
    exact fun heq => h (heq ▸ hmem)
  rw [EvenBefore, List.length_append, Nat.add_sub_cancel, List.take_left,
    crRun, hrun]
  rfl

/-- A message that ends in its only CRs is read as it was sent. -/
theorem tcpReadMsg_plain {w : List UInt8} (r : List UInt8)
    (h : CR ∉ w) (hbuf : (w ++ delim).length ≤ buf.length) :
    tcpReadMsg ((w ++ delim) ++ r) buf
      = ((w ++ delim).length, store buf (w ++ delim), r) := by
  have hfirst := firstEnd_append r (firstEnd_delim h)
  have hread := (@tcpReadMsg_iff _ buf _ hfirst.pos).mpr
    ((readLoop_first hfirst hbuf).mpr fun _ =>
      (evenBefore_append r).mpr (evenBefore_delim h))
  rwa [List.take_left, List.drop_left] at hread

/-- Where the first message is cut as it should be. -/
theorem cutsRight_iff : CutsRight s buf
    ↔ ∀ n, FirstEnd s n → n < buf.length → EvenBefore s n := by
  constructor
  · intro h n hn hlt
    obtain ⟨hcut, -⟩ := h
    have hread := hcut n hn (Nat.le_of_lt hlt)
    rw [tcpReadMsg_iff hn.pos, readLoop_first hn (Nat.le_of_lt hlt)] at hread
    exact hread hlt
  · intro heven
    refine ⟨fun n hn hle => ?_, fun hs hno => ?_⟩
    · rw [tcpReadMsg_iff hn.pos, readLoop_first hn hle]
      exact heven n hn
    · simp only [tcpReadMsg, readLoop_full hno hs, Prod.mk.injEq, true_and,
        and_true]
      rw [store, if_neg (by rw [List.length_take]; omega)]

/-- When all messages of a stream are read one by one. -/
theorem readsAll_iff {ms : List (List UInt8)}
    (h : ∀ m ∈ ms, m.length ≤ buf.length ∧ FirstEnd m m.length) :
    ReadsAll ms ms.flatten buf
      ↔ ∀ m ∈ ms, m.length < buf.length → EvenBefore m m.length := by
  induction ms generalizing buf with
  | nil => simp [ReadsAll]
  | cons m ms ih =>
      obtain ⟨hle, hm⟩ := h m (List.mem_cons_self ..)
      have hfirst := firstEnd_append ms.flatten hm
      have hstore := length_store hle
      -- the first read ends where its message does, or the whole fails
      have hread : ∀ rest, tcpReadMsg (m :: ms).flatten buf
          = (m.length, store buf m, rest)
          ↔ rest = ms.flatten ∧ (m.length < buf.length
            → EvenBefore m m.length) := by
        intro rest
        have hiff := @tcpReadMsg_iff (m ++ ms.flatten) buf _
          hfirst.pos
        rw [readLoop_first hfirst hle, evenBefore_append, List.take_left,
          List.drop_left] at hiff
        rw [List.flatten_cons, ← hiff]
        constructor
        · intro hr
          have := congrArg Prod.fst hr
          have hloop : readLoop buf.length 0 (m ++ ms.flatten)
              = some m.length := by
            unfold tcpReadMsg at this
            split at this
            · exact absurd this (Nat.ne_of_lt hfirst.pos)
            · next k hk => rw [hk, show k = m.length from this]
          have hfull := (@tcpReadMsg_iff _ buf _ hfirst.pos).mpr hloop
          rw [List.take_left, List.drop_left] at hfull
          rw [hfull] at hr
          cases hr
          exact ⟨rfl, hfull⟩
        · intro h
          obtain ⟨rfl, hr⟩ := h
          exact hr
      -- the next read finds this message in its buffer
      have ih := @ih (store buf m) fun m' hm' => by
        rw [hstore]
        exact h m' (List.mem_cons_of_mem _ hm')
      rw [hstore] at ih
      simp only [ReadsAll, hread, List.forall_mem_cons]
      constructor
      · intro h
        obtain ⟨rest, ⟨rfl, heven⟩, hrest⟩ := h
        exact ⟨heven, ih.mp hrest⟩
      · intro h
        obtain ⟨heven, hrest⟩ := h
        exact ⟨_, ⟨rfl, heven⟩, ih.mpr hrest⟩

/-- A stream is cut at its first delimiter, and a sequence of messages
into its messages, exactly when an even number of CRs stands before each
delimiter that ends inside the buffer. -/
theorem delimiter_matching (buf : List UInt8) :
    (∀ s : List UInt8, CutsRight s buf
      ↔ ∀ n, FirstEnd s n → n < buf.length → EvenBefore s n)
    ∧ ∀ ms : List (List UInt8),
      (∀ m ∈ ms, m.length ≤ buf.length ∧ FirstEnd m m.length) →
      (ReadsAll ms ms.flatten buf
        ↔ ∀ m ∈ ms, m.length < buf.length → EvenBefore m m.length) :=
  ⟨fun _ => cutsRight_iff, fun _ => readsAll_iff⟩

/-- Two messages, one of which ends in two CRs. -/
theorem delimiter_matching_two :
    ReadsAll [ascii "a" ++ delim, ascii "b\r\r" ++ delim]
      (ascii "a\r\n\r\nb\r\r\r\n\r\n") (List.replicate 9 0) :=
  ((delimiter_matching (List.replicate 9 0)).2
    [ascii "a" ++ delim, ascii "b\r\r" ++ delim] (by decide)).mpr (by decide)

/-- A single CR before the delimiter, and it is not seen. -/
theorem cr_hides_delimiter :
    ¬ CutsRight (ascii "a\r\r\n\r\n") (List.replicate 9 0) := by
  intro h
  obtain ⟨hcut, -⟩ := h
  have hread := hcut 6 (by decide) (by decide)
  revert hread
  decide

end Psnet.Net
