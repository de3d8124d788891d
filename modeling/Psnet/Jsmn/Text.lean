/-
Texts the tokenizer reads, written from their trees.

A `Lex` is a token with what stands before it: blanks, and the comma or
colon of JSON, which the tokenizer does not tell from blanks. `text`
writes a forest of them and `labels` says where each value then stands;
`Legible` asks what every JSON text satisfies, and a little less. The
parse of a written text is its labels, whatever the nesting and the
layout (`zipParse_text`).

# How a text is read

`Advances` is any number of steps of the parse on characters of the text.
Each piece of a text has its lemma: layout is passed over
(`advances_layout`), a word and a string become one token
(`advances_word`, `advances_string`), and a bracket is entered and left
around what is in it (`advances_group`). The text of a forest is then read
by induction over the forest (`advances_text`). Only a word can run into
what follows it: `Ends` is what has to follow.
-/
import Psnet.Jsmn.Shape

namespace Psnet.Jsmn

open Forest

/-- What a token is made of. `inner` stands before a closing bracket. -/
inductive Piece
  | word (w : List UInt8)
  | string (s : List UInt8)
  | array (inner : List UInt8)
  | object (inner : List UInt8)
  deriving DecidableEq, Repr

/-- A token and the layout before it. -/
structure Lex where
  pre : List UInt8
  piece : Piece
  deriving DecidableEq, Repr

/-- A piece whose members are written as `kids`. -/
def Piece.write (kids : List UInt8) : Piece → List UInt8
  | .word w => w
  | .string s => QUOTE :: (s ++ [QUOTE])
  | .array inner => LBRACKET :: (kids ++ (inner ++ [RBRACKET]))
  | .object inner => LBRACE :: (kids ++ (inner ++ [RBRACE]))

/-- The label of a piece that stands at `lo`, with members of length
`n`. -/
def Piece.lab (lo n : Nat) : Piece → Lab
  | .word w => ⟨.primitive, lo, lo + w.length⟩
  | .string s => ⟨.string, lo + 1, lo + 1 + s.length⟩
  | .array inner => ⟨.array, lo, lo + n + inner.length + 2⟩
  | .object inner => ⟨.object, lo, lo + n + inner.length + 2⟩

/-- The text of a forest. -/
def text : Forest Lex → List UInt8
  | .nil => []
  | .node a kids rest => a.pre ++ (a.piece.write (text kids) ++ text rest)

/-- The labels of a text that stands at `lo`. -/
def labels : Nat → Forest Lex → Forest Lab
  | _, .nil => .nil
  | lo, .node a kids rest =>
      .node (a.piece.lab (lo + a.pre.length) (text kids).length)
        (labels (lo + a.pre.length + 1) kids)
        (labels (lo + a.pre.length
          + (a.piece.write (text kids)).length) rest)

/-- Every value of the text gets one label. -/
@[simp] theorem count_labels (lo : Nat) (f : Forest Lex) :
    (labels lo f).count = f.count := by
  induction f generalizing lo with
  | nil => rfl
  | node a kids rest ihk ihr => simp [labels, ihk, ihr]

/-- Every root of the text gets one label on the top level. -/
@[simp] theorem width_labels (lo : Nat) (f : Forest Lex) :
    (labels lo f).width = f.width := by
  induction f generalizing lo with
  | nil => rfl
  | node a kids rest _ ihr => simp [labels, ihr]

-- ================================================================== legibility

/-- Blanks, commas and colons. -/
def Layout (w : List UInt8) : Prop := ∀ c ∈ w, isBlank c = true

instance (w : List UInt8) : Decidable (Layout w) :=
  decidableChars w _

/-- Nothing is layout too. -/
theorem layout_nil : Layout [] := fun _ h => absurd h List.not_mem_nil

/-- A character a primitive may hold. -/
def isWord (c : UInt8) : Bool :=
  32 < c && c < 127 && !endsPrimitive c && c != QUOTE && c != LBRACE
    && c != LBRACKET

/-- The characters between the quotes of a string. -/
def isBody : List UInt8 → Bool
  | [] => true
  | c :: cs =>
      if c = 0 ∨ c = QUOTE then false
      else if c = BACKSLASH then
        match cs with
        | [] => false
        | e :: cs => isEscape e && isBody cs
      else isBody cs

/-- What a piece may hold. -/
def Piece.Legible (kids : Forest Lex) : Piece → Prop
  | .word w => kids = .nil ∧ w ≠ [] ∧ ∀ c ∈ w, isWord c = true
  | .string s => kids = .nil ∧ isBody s = true
  | .array inner | .object inner => Layout inner

/-- The layout is layout, neighbours are separated, and every piece is
what it should be. `first` marks the first of its siblings. -/
def Legible : Bool → Forest Lex → Prop
  | _, .nil => True
  | first, .node a kids rest =>
      Layout a.pre ∧ (first = true ∨ a.pre ≠ []) ∧ a.piece.Legible kids
        ∧ Legible true kids ∧ Legible false rest

instance (kids : Forest Lex) : (p : Piece) → Decidable (p.Legible kids)
  | .word _ => inferInstanceAs (Decidable (_ ∧ _ ∧ _))
  | .string _ => inferInstanceAs (Decidable (_ ∧ _))
  | .array inner => inferInstanceAs (Decidable (Layout inner))
  | .object inner => inferInstanceAs (Decidable (Layout inner))

instance decLegible : (first : Bool) → (f : Forest Lex) →
    Decidable (Legible first f)
  | _, .nil => isTrue trivial
  | _, .node _ kids rest =>
      have := decLegible true kids
      have := decLegible false rest
      inferInstanceAs (Decidable (_ ∧ _ ∧ _ ∧ _ ∧ _))

-- ================================================================ readability

/-- A character a primitive may go on with: quotes and opening brackets
are among them. -/
def isPrimitive (c : UInt8) : Bool :=
  32 < c && c < 127 && !endsPrimitive c

/-- What the tokenizer takes for a primitive. -/
def Primitive (w : List UInt8) : Prop :=
  (∃ c ∈ w.head?, c ≠ QUOTE ∧ c ≠ LBRACE ∧ c ≠ LBRACKET)
    ∧ ∀ c ∈ w, isPrimitive c = true

/-- What a piece may hold to be read. -/
def Piece.Readable (kids : Forest Lex) : Piece → Prop
  | .word w => kids = .nil ∧ Primitive w
  | .string s => kids = .nil ∧ isBody s = true
  | .array inner | .object inner => Layout inner

/-- Nothing, or something with layout before it. -/
def Spaced : Forest Lex → Prop
  | .nil => True
  | .node a _ _ => a.pre ≠ []

/-- What the tokenizer reads. Only a primitive must be separated from
what comes after it. -/
def Readable : Forest Lex → Prop
  | .nil => True
  | .node a kids rest =>
      Layout a.pre ∧ a.piece.Readable kids
        ∧ ((∃ w, a.piece = .word w) → Spaced rest)
        ∧ Readable kids ∧ Readable rest

/-- In a legible text words are told apart from what follows. -/
theorem Legible.spaced {f : Forest Lex} (h : Legible false f) :
    Spaced f := by
  cases f with
  | nil => trivial
  | node a kids rest => exact h.2.1.resolve_left (by decide)

/-- What starts a word may stand in it. -/
private theorem isPrimitive_of_word {c : UInt8} (h : isWord c = true) :
    isPrimitive c = true := by
  simp only [isWord, Bool.and_eq_true] at h
  simp only [isPrimitive, Bool.and_eq_true]
  exact h.1.1.1

/-- A legible text is one of those that are read. -/
theorem Legible.readable {f : Forest Lex} {first : Bool}
    (h : Legible first f) : Readable f := by
  induction f generalizing first with
  | nil => trivial
  | node a kids rest ihk ihr =>
      obtain ⟨hpre, -, hpiece, hkids, hrest⟩ := h
      refine ⟨hpre, ?_, fun _ => hrest.spaced, ihk hkids, ihr hrest⟩
      cases hp : a.piece with
      | word w =>
          rw [hp] at hpiece
          obtain ⟨hnil, hne, hw⟩ := hpiece
          obtain ⟨c, cs, rfl⟩ := List.exists_cons_of_ne_nil hne
          have hc := hw c (List.mem_cons_self ..)
          simp only [isWord, Bool.and_eq_true, bne_iff_ne] at hc
          exact ⟨hnil, ⟨c, rfl, hc.1.1.2, hc.1.2, hc.2⟩,
            fun d hd => isPrimitive_of_word (hw d hd)⟩
      | string s => rwa [hp] at hpiece
      | array inner => rwa [hp] at hpiece
      | object inner => rwa [hp] at hpiece

-- ================================================================== the scans

variable {js : List UInt8} {num : Nat} {z z' z'' : Zip}

/-- The scan of a string stops at the quote behind its body. -/
private theorem scanString_body {s : List UInt8} (r : List UInt8) (pos : Nat)
    (h : isBody s = true) :
    scanString (s ++ QUOTE :: r) pos = .ok (pos + s.length) := by
  induction s using isBody.induct generalizing pos with
  | case1 =>
      rw [List.nil_append, scanString.eq_def]
      rfl
  | case2 c cs hc =>
      rw [isBody.eq_def] at h
      simp only [if_pos hc] at h
      cases h
  | case3 hc => simp [isBody, hc] at h
  | case4 e cs hc ih =>
      have h0 : ¬ BACKSLASH = 0 := by decide
      have hq : ¬ BACKSLASH = QUOTE := by decide
      simp only [isBody, if_neg hc, ↓reduceIte, Bool.and_eq_true] at h
      simp only [List.cons_append, scanString, if_neg h0, if_neg hq,
        ↓reduceIte, h.1, ih (pos + 2) h.2, List.length_cons]
      congr 1
      omega
  | case5 c cs hc hb ih =>
      rw [isBody.eq_def] at h
      simp only [if_neg hc, if_neg hb] at h
      rw [not_or] at hc
      rw [List.cons_append, scanString.eq_def]
      simp only [if_neg hc.1, if_neg hc.2, if_neg hb, ih (pos + 1) h,
        List.length_cons]
      congr 1
      omega

/-- A text that ends the primitive before it. -/
def Ends (u : List UInt8) : Prop :=
  ∀ c ∈ u.head?, c = 0 ∨ endsPrimitive c = true

/-- What starts a word is printable, and is none of the characters the loop
looks for. -/
theorem isWord_iff {c : UInt8} (h : isWord c = true) :
    c ≠ 0 ∧ endsPrimitive c = false ∧ ¬ (c < 32 ∨ 127 ≤ c) ∧ c ≠ QUOTE
      ∧ c ≠ LBRACE ∧ c ≠ LBRACKET := by
  simp only [isWord, Bool.and_eq_true, decide_eq_true_eq, bne_iff_ne,
    Bool.not_eq_true', UInt8.lt_iff_toNat_lt, UInt8.reduceToNat] at h
  obtain ⟨⟨⟨⟨⟨h1, h2⟩, h3⟩, h4⟩, h5⟩, h6⟩ := h
  refine ⟨?_, h3, ?_, h4, h5, h6⟩
  · intro heq
    subst heq
    simp at h1
  · simp only [UInt8.lt_iff_toNat_lt, UInt8.le_iff_toNat_le,
      UInt8.reduceToNat]
    omega

/-- The characters of a word are those the scan goes on over. -/
theorem isPrimitive_iff {c : UInt8} :
    isPrimitive c = true
      ↔ c ≠ 0 ∧ endsPrimitive c = false ∧ ¬ (c < 32 ∨ 127 ≤ c) := by
  simp only [isPrimitive, endsPrimitive, isBlank, Bool.and_eq_true,
    decide_eq_true_eq, Bool.not_eq_true', Bool.or_eq_false_iff,
    beq_eq_false_iff_ne, UInt8.lt_iff_toNat_lt, UInt8.le_iff_toNat_le,
    UInt8.reduceToNat, ne_eq, ← UInt8.toNat_inj]
  omega

/-- The scan of a word stops where it ends. -/
private theorem scanPrimitive_word {w : List UInt8} {u : List UInt8}
    (pos : Nat) (hw : ∀ c ∈ w, isPrimitive c = true) (hu : Ends u) :
    scanPrimitive (w ++ u) pos = some (pos + w.length) := by
  induction w generalizing pos with
  | nil =>
      cases u with
      | nil => rfl
      | cons c u =>
          rw [List.nil_append, scanPrimitive, if_pos (by simpa using hu c rfl)]
          rfl
  | cons c w ih =>
      obtain ⟨h0, he, hr⟩ :=
        isPrimitive_iff.mp (hw c (List.mem_cons_self ..))
      rw [List.cons_append, scanPrimitive, if_neg (by simp [h0, he]),
        if_neg hr, ih _ fun d hd => hw d (List.mem_cons_of_mem _ hd)]
      simp only [List.length_cons, Option.some.injEq]
      omega

-- ================================================================ the reading

/-- From `z` the parse comes to `z'`. -/
def Advances (js : List UInt8) (num : Nat) (z z' : Zip) : Prop :=
  ∃ m, ∀ k, zipLoop js num (k + m) z = zipLoop js num k z'

/-- No step is needed to stay. -/
theorem Advances.refl (z : Zip) : Advances js num z z := ⟨0, fun _ => rfl⟩

/-- Two stretches of steps are one. -/
theorem Advances.trans (h : Advances js num z z')
    (h' : Advances js num z' z'') : Advances js num z z'' := by
  obtain ⟨m, hm⟩ := h
  obtain ⟨n, hn⟩ := h'
  refine ⟨n + m, fun k => ?_⟩
  rw [← Nat.add_assoc, hm, hn]

/-- A step on a character is a stretch of one. -/
theorem Advances.char (h0 : byteAt js z.pos ≠ 0)
    (h : zipChar js num z = .ok z') : Advances js num z z' :=
  ⟨1, fun k => by rw [zipLoop, if_neg h0, h]⟩

/-- A parse that comes to its end is the parse. -/
theorem Advances.parse {f : Forest Lab} {p : Nat}
    (h : Advances js num ⟨0, .nil, []⟩ ⟨p, f, []⟩)
    (hp : byteAt js p = 0) : zipParse js num = .ok f := by
  obtain ⟨m, hm⟩ := h
  obtain ⟨r, hr⟩ := @zipLoop_total ⟨0, .nil, []⟩ num js (js.length + 1)
    (Nat.zero_le _) (Nat.lt_succ_self _)
  have hend : zipLoop js num (1 + m) ⟨0, .nil, []⟩
      = some (.ok ⟨p, f, []⟩) := by
    rw [hm, zipLoop, if_pos hp]
  have heq := zipLoop_fuel hend (Nat.le_max_right (js.length + 1) (1 + m))
  rw [zipLoop_fuel hr (Nat.le_max_left _ _)] at heq
  cases heq
  exact zipParse_of_loop hr

/-- What is left of the text gives the character here and what is left
behind it. -/
theorem byteAt_drop_cons {c : UInt8} {r : List UInt8} {i : Nat}
    (h : js.drop i = c :: r) : byteAt js i = c ∧ js.drop (i + 1) = r := by
  constructor
  · rw [byteAt_drop, h]
    rfl
  · rw [← List.drop_drop, h]
    rfl

/-- Behind a word stands what follows it. -/
theorem drop_append {w r : List UInt8} {i : Nat}
    (h : js.drop i = w ++ r) : js.drop (i + w.length) = r := by
  rw [← List.drop_drop, h, List.drop_left]

/-- Layout is passed over. -/
private theorem advances_layout {w r : List UInt8} (hw : Layout w)
    (h : js.drop z.pos = w ++ r) :
    Advances js num z ⟨z.pos + w.length, z.cur, z.path⟩ := by
  induction w generalizing z with
  | nil => exact .refl z
  | cons c w ih =>
      obtain ⟨hc, hrest⟩ := byteAt_drop_cons h
      have hb := hw c (List.mem_cons_self ..)
      have hne : c ≠ 0 ∧ c ≠ LBRACE ∧ c ≠ LBRACKET ∧ c ≠ RBRACE
          ∧ c ≠ RBRACKET ∧ c ≠ QUOTE := by
        refine ⟨?_, ?_, ?_, ?_, ?_, ?_⟩ <;>
          · intro heq
            subst heq
            exact absurd hb (by decide)
      obtain ⟨h0, h1, h2, h3, h4, h5⟩ := hne
      have hstep : zipChar js num z = .ok ⟨z.pos + 1, z.cur, z.path⟩ := by
        simp only [zipChar, hc, if_neg h1, if_neg h2, if_neg h3, if_neg h4,
          if_neg h5, if_pos hb]
      have hnext := ih (z := ⟨z.pos + 1, z.cur, z.path⟩)
        (fun d hd => hw d (List.mem_cons_of_mem _ hd)) hrest
      rw [List.length_cons, show z.pos + (w.length + 1)
        = z.pos + 1 + w.length by omega]
      exact (Advances.char (hc ▸ h0) hstep).trans hnext

/-- What follows a primitive in a readable text ends it. -/
private theorem ends_spaced {f : Forest Lex} {u : List UInt8} (hf : Readable f)
    (hs : Spaced f) (hu : Ends u) : Ends (text f ++ u) := by
  cases f with
  | nil => exact hu
  | node a kids rest =>
      obtain ⟨hl, -⟩ := hf
      obtain ⟨c, cs, hc⟩ := List.exists_cons_of_ne_nil hs
      have hb := hl c (hc ▸ List.mem_cons_self ..)
      simp [text, hc, Ends, endsPrimitive, hb]

/-- In a legible text whatever follows a value ends a primitive. -/
theorem ends_rest {f : Forest Lex} {u : List UInt8} (hf : Legible false f)
    (hu : Ends u) : Ends (text f ++ u) :=
  ends_spaced hf.readable hf.spaced hu

/-- A word ends before layout, and where it ends without it. -/
theorem ends_layout {w r : List UInt8} (hw : Layout w) (hr : Ends r) :
    Ends (w ++ r) := by
  cases w with
  | nil => exact hr
  | cons c w =>
      have hb := hw c (List.mem_cons_self ..)
      simp [Ends, endsPrimitive, hb]

/-- With room for its token a string or word is put on its level. -/
private theorem zipPush_room {pos : Nat} {a : Lab} (h : z.count < num) :
    zipPush num z pos a = .ok ⟨pos, z.cur ++ tree a .nil, z.path⟩ :=
  if_neg (by omega)

/-- An opening bracket, where there is room. -/
private theorem advances_open {type : JsmnType} {c : UInt8}
    (hc : byteAt js z.pos = c)
    (ht : (type = .object ∧ c = LBRACE) ∨ (type = .array ∧ c = LBRACKET))
    (hroom : z.count < num) :
    Advances js num z
      ⟨z.pos + 1, .nil, ⟨⟨type, z.pos⟩, z.cur⟩ :: z.path⟩ := by
  have hnot : ¬ num ≤ z.count := by omega
  have hne : ¬ LBRACKET = LBRACE := by decide
  rcases ht with ⟨rfl, rfl⟩ | ⟨rfl, rfl⟩
  · refine .char (hc ▸ by decide) ?_
    simp only [zipChar, hc, ↓reduceIte, zipOpen, if_neg hnot]
  · refine .char (hc ▸ by decide) ?_
    simp only [zipChar, hc, if_neg hne, ↓reduceIte, zipOpen, if_neg hnot]

/-- The bracket that closes it. -/
private theorem advances_close {type : JsmnType} {c : UInt8} {s : Nat}
    {left : Forest Lab} {path : OpenPath} (hc : byteAt js z.pos = c)
    (ht : (type = .object ∧ c = RBRACE) ∨ (type = .array ∧ c = RBRACKET))
    (hp : z.path = ⟨⟨type, s⟩, left⟩ :: path) :
    Advances js num z
      ⟨z.pos + 1, left ++ tree ⟨type, s, z.pos + 1⟩ z.cur, path⟩ := by
  have h1 : ¬ RBRACE = LBRACE := by decide
  have h2 : ¬ RBRACE = LBRACKET := by decide
  have h3 : ¬ RBRACKET = LBRACE := by decide
  have h4 : ¬ RBRACKET = LBRACKET := by decide
  have h5 : ¬ RBRACKET = RBRACE := by decide
  rcases ht with ⟨rfl, rfl⟩ | ⟨rfl, rfl⟩
  · refine .char (hc ▸ by decide) ?_
    simp only [zipChar, hc, if_neg h1, if_neg h2, ↓reduceIte, zipClose, hp,
      ne_eq, not_true_eq_false]
  · refine .char (hc ▸ by decide) ?_
    simp only [zipChar, hc, if_neg h3, if_neg h4, if_neg h5, ↓reduceIte,
      zipClose, hp, ne_eq, not_true_eq_false]

/-- A word is read to its end in one step, and gives one token. -/
private theorem advances_word {w u : List UInt8} (hw : Primitive w)
    (hu : Ends u) (h : js.drop z.pos = w ++ u) (hroom : z.count < num) :
    Advances js num z ⟨z.pos + w.length,
      z.cur ++ tree ⟨.primitive, z.pos, z.pos + w.length⟩ .nil, z.path⟩ := by
  obtain ⟨⟨c, hhead, h1, h2, h3⟩, hw⟩ := hw
  obtain ⟨cs, rfl⟩ := List.head?_eq_some_iff.mp hhead
  obtain ⟨hc, -⟩ := byteAt_drop_cons h
  obtain ⟨h0, he, -⟩ := isPrimitive_iff.mp (hw c (List.mem_cons_self ..))
  simp only [endsPrimitive, Bool.or_eq_false_iff, beq_eq_false_iff_ne] at he
  obtain ⟨⟨hb, h4⟩, h5⟩ := he
  refine .char (hc ▸ h0) ?_
  simp only [zipChar, hc, if_neg h1, if_neg h2, if_neg h3, if_neg h4,
    if_neg h5, hb, Bool.false_eq_true, ↓reduceIte, h,
    scanPrimitive_word _ hw hu, zipPush_room hroom]

/-- A string is read to behind its closing quote, and its token leaves the
quotes out. -/
private theorem advances_string {s u : List UInt8} (hs : isBody s = true)
    (h : js.drop z.pos = QUOTE :: (s ++ QUOTE :: u)) (hroom : z.count < num) :
    Advances js num z ⟨z.pos + 1 + s.length + 1,
      z.cur ++ tree ⟨.string, z.pos + 1, z.pos + 1 + s.length⟩ .nil,
      z.path⟩ := by
  obtain ⟨hc, hrest⟩ := byteAt_drop_cons h
  have h1 : ¬ QUOTE = LBRACE := by decide
  have h2 : ¬ QUOTE = LBRACKET := by decide
  have h3 : ¬ QUOTE = RBRACE := by decide
  have h4 : ¬ QUOTE = RBRACKET := by decide
  refine .char (hc ▸ by decide) ?_
  simp only [zipChar, hc, if_neg h1, if_neg h2, if_neg h3, if_neg h4,
    ↓reduceIte, hrest, scanString_body u _ hs, zipPush_room hroom]

/-- The brackets of a piece. -/
def Brackets (type : JsmnType) (c d : UInt8) : Prop :=
  (type = .object ∧ c = LBRACE ∧ d = RBRACE)
    ∨ (type = .array ∧ c = LBRACKET ∧ d = RBRACKET)

/-- An object or array, given how its members are read. -/
private theorem advances_group {type : JsmnType} {c d : UInt8}
    {kids : Forest Lex}
    {inner u : List UInt8} (hcd : Brackets type c d) (hin : Layout inner)
    (h : js.drop z.pos = c :: (text kids ++ (inner ++ d :: u)))
    (hroom : z.count < num)
    (hk : js.drop (z.pos + 1) = text kids ++ (inner ++ d :: u) →
      Ends (inner ++ d :: u) →
      Advances js num
        ⟨z.pos + 1, .nil, ⟨⟨type, z.pos⟩, z.cur⟩ :: z.path⟩
        ⟨z.pos + 1 + (text kids).length, labels (z.pos + 1) kids,
          ⟨⟨type, z.pos⟩, z.cur⟩ :: z.path⟩) :
    Advances js num z ⟨z.pos + (text kids).length + inner.length + 2,
      z.cur ++ tree ⟨type, z.pos,
        z.pos + (text kids).length + inner.length + 2⟩
          (labels (z.pos + 1) kids), z.path⟩ := by
  obtain ⟨hc, hrest⟩ := byteAt_drop_cons h
  have hclose := drop_append hrest
  obtain ⟨hd, -⟩ := byteAt_drop_cons (drop_append hclose)
  have hends : Ends (inner ++ d :: u) := by
    apply ends_layout hin
    rcases hcd with ⟨-, -, rfl⟩ | ⟨-, -, rfl⟩
    · intro e he
      cases he
      exact Or.inr (by decide)
    · intro e he
      cases he
      exact Or.inr (by decide)
  have hopen := advances_open hc
    (hcd.imp (fun h => ⟨h.1, h.2.1⟩) fun h => ⟨h.1, h.2.1⟩) hroom
  have hlay : Advances js num _ _ := advances_layout
    (z := ⟨z.pos + 1 + (text kids).length, labels (z.pos + 1) kids,
      ⟨⟨type, z.pos⟩, z.cur⟩ :: z.path⟩) hin hclose
  have hshut : Advances js num _ _ := advances_close
    (z := ⟨z.pos + 1 + (text kids).length + inner.length,
      labels (z.pos + 1) kids, ⟨⟨type, z.pos⟩, z.cur⟩ :: z.path⟩) hd
    (hcd.imp (fun h => ⟨h.1, h.2.2⟩) fun h => ⟨h.1, h.2.2⟩) rfl
  -- the bracket, what is inside, the layout behind it, and the other
  -- bracket
  have hall := ((hopen.trans (hk hrest hends)).trans hlay).trans hshut
  simp only at hall
  rwa [show z.pos + 1 + (text kids).length + inner.length + 1
    = z.pos + (text kids).length + inner.length + 2 by omega] at hall

-- ================================================================== the parse

/-- A readable forest whose text the parse has reached is read in full,
where there is room for it. -/
private theorem advances_text (f : Forest Lex) {u : List UInt8}
    (hf : Readable f) (hu : Ends u)
    (h : js.drop z.pos = text f ++ u) (hroom : z.count + f.count ≤ num) :
    Advances js num z ⟨z.pos + (text f).length,
      z.cur ++ labels z.pos f, z.path⟩ := by
  induction f generalizing z u with
  | nil => simpa [text, labels] using Advances.refl z
  | node a kids rest ihk ihr =>
      obtain ⟨hpre, hpiece, hspaced, hkids, hrest⟩ := hf
      simp only [text, List.append_assoc] at h
      simp only [count_node] at hroom
      have hlay : Advances js num _ _ := advances_layout hpre h
      have hat := drop_append h
      have hafter := drop_append hat
      -- the value alone; the layout before it and the later siblings
      -- are the same for every piece
      suffices hval : Advances js num
          ⟨z.pos + a.pre.length, z.cur, z.path⟩
          ⟨z.pos + a.pre.length + (a.piece.write (text kids)).length,
            z.cur ++ tree (a.piece.lab (z.pos + a.pre.length)
              (text kids).length) (labels (z.pos + a.pre.length + 1) kids),
            z.path⟩ by
        have hcount : z.count + (kids.count + 1) + rest.count ≤ num := by
          omega
        have hnext := ihr (z := ⟨z.pos + a.pre.length
          + (a.piece.write (text kids)).length, z.cur
            ++ tree (a.piece.lab (z.pos + a.pre.length) (text kids).length)
              (labels (z.pos + a.pre.length + 1) kids), z.path⟩)
          hrest hu hafter (by simpa [Zip.count, Nat.add_assoc] using hcount)
        simpa [text, labels, tree, Nat.add_assoc, Forest.append_assoc]
          using (hlay.trans hval).trans hnext
      have hone : z.count < num := by omega
      generalize hp : z.pos + a.pre.length = p at hat hafter
      cases hpc : a.piece with
      | word w =>
          rw [hpc] at hpiece hat
          obtain ⟨rfl, hw⟩ := hpiece
          have hends := ends_spaced hrest (hspaced ⟨w, hpc⟩) hu
          exact advances_word (z := ⟨p, z.cur, z.path⟩) hw hends hat hone
      | string s =>
          rw [hpc] at hpiece hat
          obtain ⟨rfl, hs⟩ := hpiece
          have := advances_string (z := ⟨p, z.cur, z.path⟩) hs
            (by simpa [Piece.write] using hat) hone
          simpa [Piece.write, Piece.lab, labels, Nat.add_assoc,
            Nat.add_comm 1] using this
      | array inner =>
          rw [hpc] at hpiece hat
          have := advances_group (z := ⟨p, z.cur, z.path⟩)
            (Or.inr ⟨rfl, rfl, rfl⟩) hpiece
            (by simpa [Piece.write] using hat) hone fun hat hends => by
              simpa using ihk (z := ⟨p + 1, .nil, _⟩) hkids hends hat
                (by simp [Zip.count, pathCount] at hroom ⊢; omega)
          simpa [Piece.write, Piece.lab, Nat.add_assoc] using this
      | object inner =>
          rw [hpc] at hpiece hat
          have := advances_group (z := ⟨p, z.cur, z.path⟩)
            (Or.inl ⟨rfl, rfl, rfl⟩) hpiece
            (by simpa [Piece.write] using hat) hone fun hat hends => by
              simpa using ihk (z := ⟨p + 1, .nil, _⟩) hkids hends hat
                (by simp [Zip.count, pathCount] at hroom ⊢; omega)
          simpa [Piece.write, Piece.lab, Nat.add_assoc] using this

/-- The parse of a readable text, where there is room for its tokens. -/
theorem zipParse_readable {f : Forest Lex} {after : List UInt8}
    (hf : Readable f) (hafter : Layout after)
    (h : cstr js = text f ++ after) (hroom : f.count ≤ num) :
    zipParse js num = .ok (labels 0 f) := by
  have hends : Ends after := by
    rw [← List.append_nil after]
    exact ends_layout hafter fun c hc => nomatch hc
  rw [← zipParse_cstr, h]
  have hread : Advances (text f ++ after) num _ _ := advances_text
    (z := ⟨0, .nil, []⟩) f hf hends rfl (by simpa [Zip.count, pathCount])
  have hlay : Advances (text f ++ after) num _ _ := advances_layout
    (z := ⟨0 + (text f).length, labels 0 f, []⟩) (w := after) (r := [])
    hafter (by simp)
  apply Advances.parse (hread.trans (by simpa using hlay))
  simp [byteAt]

/-- And of a legible one. -/
theorem zipParse_text {f : Forest Lex} {after : List UInt8}
    (hf : Legible true f) (hafter : Layout after)
    (h : cstr js = text f ++ after) (hroom : f.count ≤ num) :
    zipParse js num = .ok (labels 0 f) :=
  zipParse_readable hf.readable hafter h hroom

/-- Without room for a token only layout is read. -/
private theorem layout_of_zipLoop {k pos : Nat}
    (h : zipLoop js 0 k ⟨pos, .nil, []⟩ = some (.ok z')) :
    Layout (cstr (js.drop pos)) := by
  induction k generalizing pos with
  | zero => cases h
  | succ k ih =>
      rw [zipLoop] at h
      by_cases h0 : byteAt js pos = 0
      · have hnil : cstr (js.drop pos) = [] := by
          rw [byteAt_drop] at h0
          cases hd : js.drop pos with
          | nil => rfl
          | cons c cs =>
              rw [hd] at h0
              rw [cstr_cons, if_pos (show c = 0 from h0)]
        rw [hnil]
        intro c hc
        cases hc
      · rw [if_neg h0] at h
        rw [(drop_eq_cons h0).2, cstr_cons, if_neg h0]
        by_cases hb : isBlank (byteAt js pos) = true
        · have hne : byteAt js pos ≠ LBRACE ∧ byteAt js pos ≠ LBRACKET
              ∧ byteAt js pos ≠ RBRACE ∧ byteAt js pos ≠ RBRACKET
              ∧ byteAt js pos ≠ QUOTE := by
            refine ⟨?_, ?_, ?_, ?_, ?_⟩ <;>
              · intro heq
                rw [heq] at hb
                exact absurd hb (by decide)
          obtain ⟨h1, h2, h3, h4, h5⟩ := hne
          simp only [zipChar, if_neg h1, if_neg h2, if_neg h3, if_neg h4,
            if_neg h5, if_pos hb] at h
          intro c hc
          rcases List.mem_cons.mp hc with rfl | hc
          · exact hb
          · exact ih h c hc
        · -- anything else asks for a token or closes nothing
          have herr : ∃ e, zipChar js 0 ⟨pos, .nil, []⟩ = .error e := by
            unfold zipChar
            simp only [hb, Bool.false_eq_true, ↓reduceIte]
            split
            · exact ⟨_, rfl⟩
            split
            · exact ⟨_, rfl⟩
            split
            · exact ⟨_, rfl⟩
            split
            · exact ⟨_, rfl⟩
            split
            · split <;> exact ⟨_, rfl⟩
            · split <;> exact ⟨_, rfl⟩
          obtain ⟨e, he⟩ := herr
          rw [he] at h
          cases h

/-- The texts without tokens. -/
theorem zipParse_blank :
    zipParse js num = .ok .nil ↔ Layout (cstr js) := by
  constructor
  · intro h
    obtain ⟨p, hp⟩ := zipParse_ok
      (zipParse_room h (show Forest.nil.count ≤ 0 from Nat.le_refl 0))
    exact layout_of_zipLoop hp
  · intro h
    exact zipParse_text (f := .nil) trivial h rfl (Nat.zero_le _)

end Psnet.Jsmn
