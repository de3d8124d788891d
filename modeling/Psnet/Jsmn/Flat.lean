/-
Objects of plain members, written without blanks.

Every object the programs write is of this form: `flat` is its members,
`flatObject` its text. A lookup in it finds the first member whose key
starts with the key asked for (`findPair_flat`), with the text of its
value (`Holds`).

# What it is for

The headers of replies, the requests and the node objects are all flat. The
lemmas take any list of members, so each text needs only to be recognised
as one (`okHeader_eq`, `sendError_eq`, `Asking.text_eq`).
-/
import Psnet.Jsmn.Members
import Mathlib.Data.List.TakeWhile

namespace Psnet.Jsmn

open Forest Net

/-- Keys and their values. -/
abbrev Members := List (String × Piece)

/-- The members of an object with commas between them; `sep` stands
before the first. -/
def flat : List UInt8 → Members → Forest Lex
  | _, [] => .nil
  | sep, (key, v) :: ms => plainMember sep key v (flat (ascii ",") ms)

/-- A word or a string. -/
def Piece.Plain : Piece → Prop
  | .word w => w ≠ [] ∧ ∀ c ∈ w, isWord c = true
  | .string s => isBody s = true
  | _ => False

/-- The keys and the values are what they should be. -/
def PlainMembers (ms : Members) : Prop :=
  ∀ m ∈ ms, isBody (ascii m.1) = true ∧ m.2.Plain

variable {ms : Members} {sep js key : List UInt8} {v : Piece}
  {l l' : Lab}

/-- An object without members is plain. -/
theorem plainMembers_nil : PlainMembers [] := fun _ h => nomatch h

/-- A plain member before plain members. -/
theorem PlainMembers.cons {k : String} (hk : isBody (ascii k) = true)
    (hv : v.Plain) (h : PlainMembers ms) : PlainMembers ((k, v) :: ms) :=
  List.forall_mem_cons.mpr ⟨⟨hk, hv⟩, h⟩

/-- A plain value can be written by itself. -/
theorem Piece.Plain.legible (h : v.Plain) : v.Legible .nil := by
  cases v with
  | word w => exact ⟨rfl, h⟩
  | string s => exact ⟨rfl, h⟩
  | array inner => exact h.elim
  | object inner => exact h.elim

/-- A numeral is a word. -/
theorem plain_decimal (i : Int) : (Piece.word (decimal i)).Plain := by
  obtain ⟨hne, hchars⟩ := decimal_chars i
  refine ⟨hne, fun c hc => ?_⟩
  rcases hchars c hc with rfl | hd
  · decide
  · simp only [isDigit, Bool.and_eq_true, decide_eq_true_eq,
      UInt8.le_iff_toNat_le, UInt8.reduceToNat] at hd
    have hne : ∀ d : UInt8, d.toNat < 48 ∨ 57 < d.toNat → c ≠ d := by
      intro d hd' heq
      subst heq
      omega
    simp only [isWord, endsPrimitive, isBlank, UInt8.lt_iff_toNat_lt,
      UInt8.reduceToNat, Bool.and_eq_true, decide_eq_true_eq, bne_iff_ne,
      Bool.not_eq_true', Bool.or_eq_false_iff, beq_eq_false_iff_ne]
    refine ⟨⟨⟨⟨⟨by omega, by omega⟩, ⟨⟨⟨⟨⟨⟨?_, ?_⟩, ?_⟩, ?_⟩, ?_⟩, ?_⟩, ?_⟩,
      ?_⟩, ?_⟩, ?_⟩, ?_⟩
    all_goals exact hne _ (by decide)

/-- Text without quotes and backslashes can stand in a string. -/
theorem isBody_of_plain {s : List UInt8}
    (h : ∀ c ∈ s, c ≠ 0 ∧ c ≠ QUOTE ∧ c ≠ BACKSLASH) : isBody s = true := by
  induction s with
  | nil => rfl
  | cons c s ih =>
      obtain ⟨h0, hq, hb⟩ := h c (List.mem_cons_self ..)
      rw [isBody.eq_def]
      simp only [h0, hq, hb, or_self, ↓reduceIte]
      exact ih fun d hd => h d (List.mem_cons_of_mem _ hd)

-- ==================================================================== the text

/-- The members of a flat object are legible, provided a separator stands
between them. -/
theorem legible_flat {first : Bool} (hsep : Layout sep)
    (hfirst : first = true ∨ sep ≠ []) (h : PlainMembers ms) :
    Legible first (flat sep ms) := by
  induction ms generalizing sep first with
  | nil => trivial
  | cons m ms ih =>
      obtain ⟨⟨hk, hv⟩, hms⟩ := List.forall_mem_cons.mp h
      have hcolon : Layout (ascii ":") ∧ ascii ":" ≠ [] := by decide
      exact ⟨hsep, hfirst, ⟨rfl, hk⟩, trivial, hcolon.1, Or.inr hcolon.2,
        hv.legible, trivial, ih (by decide) (Or.inr (by decide)) hms⟩

/-- A flat object has a value for every key. -/
private theorem paired_flat (sep : List UInt8) (ms : Members) :
    Paired (flat sep ms) := by
  induction ms generalizing sep with
  | nil => trivial
  | cons m ms ih => exact ⟨⟨_, rfl⟩, ih _⟩

/-- Every member is two nodes, its key and its value. -/
theorem count_flat (sep : List UInt8) (ms : Members) :
    (flat sep ms).count = 2 * ms.length := by
  induction ms generalizing sep with
  | nil => rfl
  | cons m ms ih =>
      simp only [flat, plainMember, count_node, count_nil, ih,
        List.length_cons]
      omega

/-- Every member is two trees, its key and its value. -/
theorem width_flat (sep : List UInt8) (ms : Members) :
    (flat sep ms).width = 2 * ms.length := by
  induction ms generalizing sep with
  | nil => rfl
  | cons m ms ih =>
      simp only [flat, plainMember, width_node, ih, List.length_cons]
      omega

/-- A member is written as its key in quotes, a colon and its value, and
commas separate the others. -/
theorem text_flat (sep : List UInt8) (k : String) (v : Piece)
    (ms : Members) : text (flat sep ((k, v) :: ms))
      = sep ++ QUOTE :: (ascii k ++ QUOTE :: 58 :: (v.write []
        ++ text (flat (ascii ",") ms))) := by
  simp [flat, plainMember, text, Piece.write, show ascii ":" = [58] from rfl]

/-- No members are no text. -/
theorem text_flat_nil (sep : List UInt8) : text (flat sep []) = [] := rfl

/-- The text of an object of plain members. -/
def flatText (ms : Members) : List UInt8 :=
  LBRACE :: (text (flat [] ms) ++ [RBRACE])

/-- A control character is in the text of an object only where it is in a
key or in a string. -/
theorem control_notMem {c : UInt8} (hc : c < 32) (h : PlainMembers ms)
    (hkey : ∀ m ∈ ms, c ∉ ascii m.1)
    (hstr : ∀ m ∈ ms, ∀ s, m.2 = .string s → c ∉ s) : c ∉ flatText ms := by
  have hmarks : c ≠ QUOTE ∧ c ≠ 58 ∧ c ≠ 44 ∧ c ≠ LBRACE ∧ c ≠ RBRACE := by
    refine ⟨?_, ?_, ?_, ?_, ?_⟩ <;>
    · intro heq
      subst heq
      exact absurd hc (by decide)
  obtain ⟨hq, hcolon, hcomma, hopen, hclose⟩ := hmarks
  -- a word has no control characters, and the strings are free of this one
  have hvalue : ∀ m ∈ ms, c ∉ m.2.write [] := by
    intro m hm
    have hplain := (h m hm).2
    have hs := hstr m hm
    cases hv : m.2 with
    | word w =>
        rw [hv] at hplain
        intro hmem
        obtain ⟨-, -, hlow, -⟩ := isWord_iff (hplain.2 c hmem)
        exact hlow (Or.inl hc)
    | string s => simp [Piece.write, hq, hs s hv]
    | array inner => exact (hv ▸ hplain).elim
    | object inner => exact (hv ▸ hplain).elim
  -- by induction on the members; the separator is a comma from the second
  -- on
  have htext : ∀ sep, c ∉ sep → c ∉ text (flat sep ms) := by
    clear h hstr
    induction ms with
    | nil => exact fun _ _ => List.not_mem_nil
    | cons m ms ih =>
        intro sep hsep
        have hrest := ih
          (fun m' hm' => hkey m' (List.mem_cons_of_mem _ hm'))
          (fun m' hm' => hvalue m' (List.mem_cons_of_mem _ hm'))
          (ascii ",") (by
            rw [show ascii "," = [44] by decide]
            simpa using hcomma)
        have hk := hkey m (List.mem_cons_self ..)
        have hv := hvalue m (List.mem_cons_self ..)
        rw [text_flat]
        simp [hsep, hq, hk, hcolon, hv, hrest]
  simp [flatText, hopen, hclose, htext [] List.not_mem_nil]

-- =================================================================== the lookups

/-- The value of the first member whose key satisfies `p`. -/
def lookup (p : List UInt8 → Bool) (ms : Members) : Option Piece :=
  (ms.find? fun m => p (ascii m.1)).map Prod.snd

/-- A key is found where it stands first. -/
@[simp] theorem lookup_self (key : String) (v : Piece) (ms : Members) :
    lookup (ascii key).isPrefixOf ((key, v) :: ms) = some v := by
  have hself : (ascii key).isPrefixOf (ascii key) = true :=
    List.isPrefixOf_iff_prefix.mpr (List.prefix_refl _)
  rw [lookup, List.find?_cons, hself]
  rfl

/-- A member that does not satisfy `p` is passed over. -/
theorem lookup_skip {p : List UInt8 → Bool} {m : String × Piece}
    (ms : Members) (h : p (ascii m.1) = false) :
    lookup p (m :: ms) = lookup p ms := by
  rw [lookup, List.find?_cons, h]
  rfl

@[simp] theorem lookup_nil (p : List UInt8 → Bool) : lookup p [] = none :=
  rfl

/-- Looking a key up in the forest of a flat object is looking it up in the
list. -/
private theorem member_flat (p : List UInt8 → Bool) (sep : List UInt8)
    (ms : Members) (i : Nat) :
    (member p (flat sep ms) i).map Prod.snd = lookup p ms := by
  induction ms generalizing sep i with
  | nil => rfl
  | cons m ms ih =>
      simp only [flat, plainMember, member, Piece.content, lookup,
        List.find?_cons]
      by_cases hp : p (ascii m.1) = true
      · simp [hp]
      · simpa [hp, lookup] using ih (ascii ",") (i + 2)

/-- No text of a value contains a NUL. -/
private theorem nul_notMem_body {s : List UInt8} (h : isBody s = true) :
    0 ∉ s := by
  induction s using isBody.induct with
  | case1 => simp
  | case2 c cs hc =>
      rw [isBody.eq_def] at h
      simp only [if_pos hc] at h
      cases h
  | case3 hc => simp [isBody, hc] at h
  | case4 e cs hc ih =>
      simp only [isBody, if_neg hc, ↓reduceIte, Bool.and_eq_true] at h
      have he : (0 : UInt8) ≠ e := by
        intro heq
        subst heq
        exact absurd h.1 (by decide)
      simp only [List.mem_cons, not_or]
      exact ⟨by decide, he, ih h.2⟩
  | case5 c cs hc hb ih =>
      rw [isBody.eq_def] at h
      simp only [if_neg hc, if_neg hb] at h
      simp only [List.mem_cons, not_or]
      exact ⟨fun h0 => hc (Or.inl h0.symm), ih h⟩

/-- Nor does the text of an object. -/
theorem nul_notMem_flatText (h : PlainMembers ms) : 0 ∉ flatText ms := by
  refine control_notMem (by decide) h
    (fun m hm => nul_notMem_body (h m hm).1) fun m hm s hs => ?_
  have hplain := (h m hm).2
  rw [hs] at hplain
  exact nul_notMem_body hplain

/-- A plain value has no NUL. -/
theorem Piece.Plain.nul (h : v.Plain) : 0 ∉ v.content := by
  cases v with
  | word w => exact fun h0 => (isWord_iff (h.2 0 h0)).1 rfl
  | string s => exact nul_notMem_body h
  | array inner => exact h.elim
  | object inner => exact h.elim

/-- A text without NUL is a C string of its length. -/
theorem cstr_eq_self {w : List UInt8} (h : 0 ∉ w) : cstr w = w := by
  apply List.takeWhile_eq_self_iff.mpr
  intro c hc
  have : c ≠ 0 := fun h0 => h (h0 ▸ hc)
  simpa using this

/-- The type of a value. -/
def Piece.type : Piece → JsmnType
  | .word _ => .primitive
  | .string _ => .string
  | .array _ => .array
  | .object _ => .object

/-- At `l` the buffer holds the plain value `v`. -/
structure Holds (js : List UInt8) (l : Lab) (v : Piece) : Prop where
  plain : v.Plain
  type : l.type = v.type
  stop : l.stop = l.start + v.content.length
  text : ∃ u, js.drop l.start = v.content ++ u
    ∧ ∀ c ∈ u.head?, c = QUOTE ∨ c = 0 ∨ endsPrimitive c = true

/-- A label that stands on a plain value holds it. -/
theorem Stands.holds {l : Lab} (h : Stands js l v) (hv : v.Plain) :
    Holds js l v := by
  obtain ⟨lo, kids, u, hdrop, hu, rfl⟩ := h
  cases v with
  | word w => exact ⟨hv, rfl, rfl, u, hdrop, fun c hc => Or.inr (hu c hc)⟩
  | string s =>
      simp only [Piece.write, List.cons_append, List.append_assoc,
        List.nil_append] at hdrop
      exact ⟨hv, rfl, rfl, _, (byteAt_drop_cons hdrop).2, fun c hc =>
        Or.inl (Option.some.inj hc).symm⟩
  | array inner => exact hv.elim
  | object inner => exact hv.elim

/-- A value ends where it starts, or behind. -/
theorem Holds.le (h : Holds js l v) : l.start ≤ l.stop := by
  rw [h.stop]
  omega

/-- What follows a value that is held. -/
theorem Holds.next (h : Holds js l v) :
    byteAt js l.stop = QUOTE ∨ byteAt js l.stop = 0
      ∨ endsPrimitive (byteAt js l.stop) = true := by
  obtain ⟨u, hu, hhead⟩ := h.text
  rw [byteAt_drop, h.stop, drop_append hu]
  cases u with
  | nil => exact Or.inr (Or.inl rfl)
  | cons c u => exact hhead c rfl

/-- The C string from the start of a value, once the buffer is cut off
behind it. -/
theorem Holds.cut (h : Holds js l v) :
    cstr ((js.set l.stop 0).drop l.start) = v.content := by
  obtain ⟨u, hu, -⟩ := h.text
  have hle := h.le
  have hcstr := cstr_eq_self h.plain.nul
  rw [List.drop_set, if_neg (by omega), hu, h.stop,
    Nat.add_sub_cancel_left, List.set_append_right _ _ (Nat.le_refl _),
    Nat.sub_self]
  cases u with
  | nil => simpa using hcstr
  | cons c u => rw [List.set_cons_zero, cstr_append_nul, hcstr]

/-- A value is held wherever else the buffer is cut off. -/
theorem Holds.set (h : Holds js l v) {q : Nat}
    (hq : q < l.start ∨ l.stop ≤ q) : Holds (js.set q 0) l v := by
  obtain ⟨hplain, htype, hstop, u, hu, hhead⟩ := h
  refine ⟨hplain, htype, hstop, ?_⟩
  rw [List.drop_set]
  rcases hq with hq | hq
  · exact ⟨u, by rw [if_pos hq, hu], hhead⟩
  · rw [if_neg (by omega), hu, List.set_append_right _ _ (by omega)]
    refine ⟨_, rfl, fun c hc => ?_⟩
    cases u with
    | nil => cases hc
    | cons d u =>
        cases hn : q - l.start - v.content.length with
        | zero =>
            rw [hn] at hc
            cases hc
            exact Or.inr (Or.inl rfl)
        | succ n =>
            rw [hn] at hc
            cases hc
            exact hhead _ rfl

/-- A word does not start where a value ends. -/
theorem Holds.stop_ne (h : Holds js l v) {w : List UInt8}
    (h' : Holds js l' (.word w)) : l.stop ≠ l'.start := by
  intro heq
  obtain ⟨u, hu, -⟩ := h'.text
  obtain ⟨hne, hw⟩ := h'.plain
  obtain ⟨c, cs, rfl⟩ := List.exists_cons_of_ne_nil hne
  obtain ⟨hc, -⟩ := byteAt_drop_cons hu
  obtain ⟨h0, hend, -, hquote, -⟩ := isWord_iff (hw c (List.mem_cons_self ..))
  rcases heq ▸ h.next with hb | hb | hb
  · exact hquote (hc.symm.trans hb)
  · exact h0 (hc.symm.trans hb)
  · rw [hc, hend] at hb
    cases hb

/-- A lookup among plain members. -/
theorem findPair_flat {lo : Nat} {u : List UInt8} (h : PlainMembers ms)
    (hsep : Layout sep) (hu : Ends u)
    (hjs : js.drop lo = text (flat sep ms) ++ u) (hq : QUOTE ∉ key) :
    match lookup key.isPrefixOf ms with
    | none => findPair js key (labels lo (flat sep ms)) = none
    | some v => ∃ p, findPair js key (labels lo (flat sep ms)) = some p
        ∧ Holds js p.val v := by
  have hfind := findPair_text (legible_flat hsep (Or.inl rfl) h)
    (paired_flat sep ms) hu hjs hq
  have hmember := member_flat key.isPrefixOf sep ms 1
  cases hm : member key.isPrefixOf (flat sep ms) 1 with
  | none =>
      rw [hm] at hfind hmember
      rw [← hmember]
      exact hfind
  | some q =>
      rw [hm] at hfind hmember
      obtain ⟨p, hp, -, hstands⟩ := hfind
      rw [← hmember]
      refine ⟨p, hp, hstands.holds ?_⟩
      obtain ⟨m, hfound, heq⟩ := Option.map_eq_some_iff.mp hmember.symm
      exact heq ▸ (h m (List.mem_of_find?_eq_some hfound)).2

end Psnet.Jsmn
