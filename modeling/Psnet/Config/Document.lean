/-
What a configuration file means.

A line is indentation, its text, and white space behind it (`Line`). The
text is a comment, the header of a section, a name with its value and
perhaps a note, or none of these (`Core`). What it means depends on
whether a name was given before: then an indented line goes on with the
value of that name, whatever it looks like (`Line.reading`). A file whose
lines are short enough is read line for line as what they mean
(`ini_document`).

# The shape of the proof

The parser works on characters and the meaning on lines, so there is one
lemma for each string function that says what it does to a text put
together from its parts: `rstrip_trimmed`, `lskip_trimmed` and
`findCharOrComment_cut`. A note begins at a semicolon behind white space
only, which is a condition on two characters that may come from different
parts: `spaceAfter` carries the first of them across the seam. One line is
then a case analysis over `Core` (`Line.Legible.iniLine`), and the file an
induction over its lines.
-/
import Psnet.Config.Ini
import Psnet.Jsmn.Flat

namespace Psnet.Config

open Net Jsmn

-- ==================================================================== the lines

/-- The text of a line. -/
inductive Core
  | blank
  | comment (mark : UInt8) (text : Text)
  | header (name after : Text)
  | unclosed (text : Text)
  | pair (name gap : Text) (sep : UInt8) (lead value : Text)
      (note : Option (Text × Text))
  | loose (text : Text)
  deriving DecidableEq, Repr

/-- A comment behind a value, after white space. -/
def noteText : Option (Text × Text) → Text
  | none => []
  | some (space, text) => space ++ SEMICOLON :: text

def Core.text : Core → Text
  | .blank => []
  | .comment mark text => mark :: text
  | .header name after => LBRACKET :: (name ++ RBRACKET :: after)
  | .unclosed text => LBRACKET :: text
  | .pair name gap sep lead value note =>
      (name ++ gap) ++ sep :: (lead ++ (value ++ noteText note))
  | .loose text => text

structure Line where
  indent : Text
  core : Core
  trail : Text
  deriving DecidableEq, Repr

def Line.text (l : Line) : Text := l.indent ++ (l.core.text ++ l.trail)

-- ============================================================ what can be written

def Blank (s : Text) : Prop := ∀ c ∈ s, isSpace c = true

instance (s : Text) : Decidable (Blank s) :=
  inferInstanceAs (Decidable (∀ c ∈ s, _))

/-- Neither end is white space. -/
structure Trimmed (s : Text) : Prop where
  head : ∀ c ∈ s.head?, isSpace c = false
  last : ∀ c ∈ s.getLast?, isSpace c = false

/-- No semicolon follows white space. -/
def NoNote (s : Text) : Prop :=
  ∀ a w b, s = a ++ w :: SEMICOLON :: b → isSpace w = false

/-- It starts like a name. -/
def Opens (s : Text) : Prop :=
  ∃ c r, s = c :: r ∧ c ≠ SEMICOLON ∧ c ≠ HASH ∧ c ≠ LBRACKET

/-- A name and a value that can be told apart, and the value from the
note. -/
structure PairOk (name gap : Text) (sep : UInt8) (lead value : Text)
    (note : Option (Text × Text)) : Prop where
  opens : Opens name
  key : Trimmed name ∧ NoNote name ∧ EQUALS ∉ name
  gap_blank : Blank gap
  cut : sep = EQUALS ∨ sep = COLON ∧ COLON ∉ name ∧ EQUALS ∉ value
  lead_blank : Blank lead
  content : Trimmed value ∧ NoNote value
  apart : ∀ space text, note = some (space, text) →
    value ≠ [] ∧ Blank space ∧ space ≠ []

def Core.Legible : Core → Prop
  | .blank => True
  | .comment mark _ => mark = SEMICOLON ∨ mark = HASH
  | .header name _ => RBRACKET ∉ name ∧ NoNote name
  | .unclosed text => RBRACKET ∉ text
  | .pair name gap sep lead value note => PairOk name gap sep lead value note
  | .loose text => Opens text ∧ EQUALS ∉ text ∧ COLON ∉ text

structure Line.Legible (l : Line) : Prop where
  indent : Blank l.indent
  core : l.core.Legible
  trimmed : Trimmed l.core.text
  trail : Blank l.trail
  plain : 0 ∉ l.text ∧ NEWLINE ∉ l.text

-- ============================================================== what they mean

/-- What a line says. -/
inductive Reading
  | nothing
  | bad
  | header (name : Text)
  | pair (name value : Text)
  | more (value : Text)
  deriving DecidableEq, Repr

/-- What a text says where no value goes on. -/
def Core.reading : Core → Reading
  | .blank | .comment _ _ => .nothing
  | .header name _ => .header name
  | .pair name _ _ _ value _ => .pair name value
  | .unclosed _ | .loose _ => .bad

/-- What a line says after the name `prev`. -/
def Line.reading (prev : Text) (l : Line) : Reading :=
  match l.core.reading with
  | .nothing => .nothing
  | r => if prev ≠ [] ∧ l.indent ≠ [] then .more l.core.text else r

variable {σ : Type}

/-- What comes of it. -/
def IniState.read (s : IniState σ) (handler : Handler σ) (lineno : Nat) :
    Reading → IniState σ
  | .nothing => s
  | .bad => s.fail lineno
  | .header name =>
      { s with
        sect := name.take (MAX_SECTION - 1)
        prevName := [] }
  | .pair name value =>
      { s with prevName := name.take (MAX_NAME - 1) }.call handler lineno
        name value
  | .more value => s.call handler lineno s.prevName value

/-- The lines read one after the other. -/
def readLines (handler : Handler σ) : Nat → List Line → IniState σ → IniState σ
  | _, [], s => s
  | lineno, l :: ls, s =>
      readLines handler (lineno + 1) ls
        (s.read handler (lineno + 1) (l.reading s.prevName))

/-- A file: its lines, behind a byte order mark or not. -/
structure Document where
  bom : Bool
  lines : List Line

def Document.text (d : Document) : List UInt8 :=
  (if d.bom then BOM else []) ++ d.lines.flatMap fun l => l.text ++ [NEWLINE]

/-- The lines can be written, and none is too long. A file without a byte
order mark does not look as if it had one. -/
structure Document.Legible (d : Document) : Prop where
  lines : ∀ l ∈ d.lines, l.Legible
  short : ∀ l ∈ d.lines, l.text.length + 1 < INI_MAX_LINE
  first : d.bom = true → ∀ l ∈ d.lines.head?,
    BOM.length + l.text.length + 1 < INI_MAX_LINE
  mark : d.bom = false → ¬ BOM <+: d.text

-- ==================================================================== the strings

section

variable {s t : Text} {c w : UInt8}

/-- Stripping the blanks behind a text that ends in no blank leaves the
text. -/
private theorem rstrip_trimmed (hs : ∀ c ∈ s.getLast?, isSpace c = false)
    (ht : Blank t) : rstrip (s ++ t) = s := by
  induction t using List.reverseRecOn with
  | nil =>
      rw [List.append_nil, rstrip, List.rdropWhile_eq_self_iff]
      intro hne
      rw [hs _ (List.getLast?_eq_some_getLast hne)]
      exact Bool.false_ne_true
  | append_singleton t x ih =>
      rw [rstrip, ← List.append_assoc, List.rdropWhile_concat_pos]
      · exact ih fun c hc => ht c (List.mem_append_left _ hc)
      · exact ht x (List.mem_append_right _ (List.mem_singleton_self x))

/-- Skipping the blanks before a text that starts with no blank leaves the
text. -/
private theorem lskip_trimmed (ht : Blank t)
    (hs : ∀ c ∈ s.head?, isSpace c = false) : lskip (t ++ s) = s := by
  induction t with
  | nil =>
      cases s with
      | nil => rfl
      | cons c s =>
          rw [List.nil_append, lskip, List.dropWhile_cons_of_neg]
          simp [hs c rfl]
  | cons x t ih =>
      rw [List.cons_append, lskip, List.dropWhile_cons_of_pos]
      · exact ih fun c hc => ht c (List.mem_cons_of_mem _ hc)
      · exact ht x (List.mem_cons_self ..)

/-- There is no note in an empty text. -/
private theorem noNote_nil : NoNote [] := fun a w b h => by simp at h

/-- A text without a note has none from its second character on. -/
theorem NoNote.tail {x : UInt8} (h : NoNote (x :: s)) : NoNote s :=
  fun a w b hs => h (x :: a) w b (by rw [hs, List.cons_append])

/-- Whether the search has just seen white space. -/
def spaceAfter : Bool → Text → Bool
  | was, [] => was
  | _, x :: s => spaceAfter (isSpace x) s

/-- What counts as the character before is that of the second text, unless
it is empty. -/
private theorem spaceAfter_append (was : Bool) (s t : Text) :
    spaceAfter was (s ++ t) = spaceAfter (spaceAfter was s) t := by
  induction s generalizing was with
  | nil => rfl
  | cons x s ih => exact ih (isSpace x)

/-- Behind blanks a note may start. -/
private theorem spaceAfter_blank {was : Bool} (hs : Blank s)
    (hwas : was = true ∨ s ≠ []) : spaceAfter was s = true := by
  induction s generalizing was with
  | nil => simpa [spaceAfter] using hwas
  | cons x s ih =>
      exact ih (fun c hc => hs c (List.mem_cons_of_mem _ hc))
        (Or.inl (hs x (List.mem_cons_self ..)))

/-- The search goes through a text without the character and without a
note. -/
private theorem findLoop_through (hc : c ∉ s) (hs : NoNote s) {was : Bool}
    (hwas : was = true → ∀ x ∈ s.head?, x ≠ SEMICOLON) (rest : Text) :
    findLoop c was (s ++ rest)
      = (s ++ (findLoop c (spaceAfter was s) rest).1,
        (findLoop c (spaceAfter was s) rest).2) := by
  induction s generalizing was with
  | nil => rfl
  | cons x s ih =>
      have hx : ¬ (x = c ∨ (was = true ∧ x = SEMICOLON)) := by
        rintro (rfl | ⟨htrue, rfl⟩)
        · exact hc (List.mem_cons_self ..)
        · exact hwas htrue _ rfl rfl
      have hnext : isSpace x = true → ∀ y ∈ s.head?, y ≠ SEMICOLON := by
        intro hsp y hy heq
        obtain ⟨r, rfl⟩ : ∃ r, s = y :: r := by
          cases s with
          | nil => cases hy
          | cons z r =>
              cases hy
              exact ⟨r, rfl⟩
        subst heq
        rw [hs [] x r rfl] at hsp
        cases hsp
      rw [List.cons_append, findLoop, if_neg hx,
        ih (fun h => hc (List.mem_cons_of_mem _ h)) hs.tail hnext]
      rfl

/-- The search stops at the character it looks for. -/
private theorem findLoop_stop (was : Bool) (rest : Text) :
    findLoop c was (c :: rest) = ([], c :: rest) := by
  simp [findLoop]

/-- The search stops at a note as well. -/
private theorem findLoop_note (rest : Text) :
    findLoop c true (SEMICOLON :: rest) = ([], SEMICOLON :: rest) := by
  simp [findLoop]

/-- Where the character is not there, or behind a comment, it is not
found. -/
private theorem findLoop_misses (hc : c ∉ s) (was : Bool) :
    (findLoop c was s).2.head? ≠ some c := by
  induction s generalizing was with
  | nil => simp [findLoop]
  | cons x s ih =>
      rw [findLoop]
      split
      · rw [List.head?_cons, ne_eq, Option.some.injEq]
        intro hx
        exact hc (hx ▸ List.mem_cons_self ..)
      · exact ih (fun h => hc (List.mem_cons_of_mem _ h)) _

/-- A search that is stopped by a note has not found its character. -/
private theorem findLoop_misses_note (hc : c ∉ s) (hsemi : c ≠ SEMICOLON)
    {was : Bool} (hwas : spaceAfter was s = true) (rest : Text) :
    (findLoop c was (s ++ SEMICOLON :: rest)).2.head? ≠ some c := by
  induction s generalizing was with
  | nil =>
      obtain rfl : was = true := hwas
      rw [List.nil_append, findLoop_note, List.head?_cons, ne_eq,
        Option.some.injEq]
      exact fun h => hsemi h.symm
  | cons x s ih =>
      rw [List.cons_append, findLoop]
      split
      · rw [List.head?_cons, ne_eq, Option.some.injEq]
        intro hx
        exact hc (hx ▸ List.mem_cons_self ..)
      · exact ih (fun h => hc (List.mem_cons_of_mem _ h)) hwas

/-- A character that is no blank is not among blanks. -/
theorem Blank.not_mem (hs : Blank s) (hc : isSpace c = false) : c ∉ s := by
  intro h
  rw [hs c h] at hc
  cases hc

/-- Blanks behind a text start no note. -/
theorem NoNote.blank (hs : NoNote s) (ht : Blank t) : NoNote (s ++ t) := by
  intro a w b heq
  have hmem : SEMICOLON ∉ t := ht.not_mem (by decide)
  -- the semicolon is in `s`, and so is what comes before it
  rw [List.append_eq_append_iff] at heq
  rcases heq with ⟨r, rfl, hr⟩ | ⟨r, hs', ht'⟩
  · exact absurd (hr ▸ by simp) hmem
  · cases r with
    | nil =>
        rw [List.nil_append] at ht'
        exact absurd (ht' ▸ by simp) hmem
    | cons y r =>
        cases r with
        | nil =>
            simp only [List.cons_append, List.nil_append, List.cons.injEq]
              at ht'
            exact absurd (ht'.2 ▸ List.mem_cons_self ..) hmem
        | cons z r =>
            simp only [List.cons_append, List.cons.injEq] at ht'
            obtain ⟨rfl, rfl, -⟩ := ht'
            exact hs a _ r hs'

end

-- ====================================================================== one line

section

variable {name gap lead value : Text} {sep : UInt8}
  {note : Option (Text × Text)}

/-- A text and what it is cut off at, by the character it does not
have. -/
private theorem findCharOrComment_cut {s rest : Text} {c : UInt8} (hc : c ∉ s)
    (hs : NoNote s) :
    findCharOrComment (s ++ c :: rest) c = (s, c :: rest) := by
  have hstart : false = true → ∀ x ∈ s.head?, x ≠ SEMICOLON := by
    intro h
    cases h
  rw [findCharOrComment, findLoop_through hc hs hstart, findLoop_stop,
    List.append_nil]

/-- Before a colon no `=` is found. -/
theorem PairOk.no_equals
    (h : PairOk name gap COLON lead value note) (hv : EQUALS ∉ value) :
    (findCharOrComment ((name ++ gap) ++ COLON ::
      (lead ++ (value ++ noteText note))) EQUALS).2.head?
        ≠ some EQUALS := by
  have hgap : EQUALS ∉ gap := h.gap_blank.not_mem (by decide)
  have hlead : EQUALS ∉ lead := h.lead_blank.not_mem (by decide)
  have hname := h.key.2.2
  have hcolon : EQUALS ≠ COLON := by decide
  cases hnote : note with
  | none =>
      refine findLoop_misses ?_ _
      simp [noteText, hname, hgap, hlead, hv, hcolon]
  | some n =>
      obtain ⟨space, text⟩ := n
      obtain ⟨-, hspace, hne⟩ := h.apart space text hnote
      have hsp : EQUALS ∉ space := hspace.not_mem (by decide)
      have hsplit : (name ++ gap) ++ COLON ::
            (lead ++ (value ++ noteText (some (space, text))))
          = ((name ++ gap) ++ COLON :: (lead ++ value) ++ space)
            ++ SEMICOLON :: text := by
        simp [noteText]
      rw [hsplit]
      refine findLoop_misses_note ?_ (by decide) ?_ _
      · simp [hname, hgap, hlead, hv, hsp, hcolon]
      · rw [spaceAfter_append]
        exact spaceAfter_blank hspace (Or.inr hne)

/-- A line with a pair is cut at the first separator. -/
theorem PairOk.cutPair (h : PairOk name gap sep lead value note) :
    cutPair ((name ++ gap) ++ sep :: (lead ++ (value ++ noteText note)))
      = some (name ++ gap, lead ++ (value ++ noteText note)) := by
  have hkey : NoNote (name ++ gap) := h.key.2.1.blank h.gap_blank
  have hnot : ∀ c, isSpace c = false → c ∉ name → c ∉ name ++ gap :=
    fun c hsp hc hmem => (List.mem_append.mp hmem).elim hc
      (h.gap_blank.not_mem hsp)
  unfold Config.cutPair
  rcases h.cut with rfl | ⟨rfl, hcolon, hvalue⟩
  · rw [findCharOrComment_cut (hnot _ (by decide) h.key.2.2) hkey]
    simp
  · dsimp only
    rw [if_neg (h.no_equals hvalue),
      findCharOrComment_cut (hnot _ (by decide) hcolon) hkey]
    simp

/-- The value without the white space and the note around it. -/
theorem PairOk.value_eq (h : PairOk name gap sep lead value note)
    (hzero : 0 ∉ value ++ noteText note) :
    rstrip (findCharOrComment (lskip (lead ++ (value ++ noteText note)))
      0).1 = value := by
  have hvalue : 0 ∉ value := fun hmem =>
    hzero (List.mem_append_left _ hmem)
  have hstart : false = true → ∀ x ∈ value.head?, x ≠ SEMICOLON := by
    intro h
    cases h
  have hthrough := fun rest =>
    findLoop_through hvalue h.content.2 hstart rest
  cases hnote : note with
  | none =>
      rw [noteText, List.append_nil,
        lskip_trimmed h.lead_blank h.content.1.head, findCharOrComment]
      have hall := hthrough []
      rw [List.append_nil] at hall
      rw [hall, findLoop, List.append_nil]
      simpa using rstrip_trimmed (t := []) h.content.1.last
        (fun _ hc => absurd hc List.not_mem_nil)
  | some n =>
      obtain ⟨space, text⟩ := n
      obtain ⟨hne, hspace, hsp⟩ := h.apart space text hnote
      have hhead : ∀ c ∈ (value ++ noteText (some (space, text))).head?,
          isSpace c = false := by
        intro c hc
        rw [List.head?_append_of_ne_nil _ hne] at hc
        exact h.content.1.head c hc
      have hzero' : 0 ∉ space := hspace.not_mem (by decide)
      have hnote : NoNote space := NoNote.blank (s := []) noNote_nil hspace
      -- the white space before the note starts with no semicolon
      have hsemi : spaceAfter false value = true →
          ∀ x ∈ space.head?, x ≠ SEMICOLON := by
        intro _ x hx heq
        subst heq
        exact hspace.not_mem (by decide) (List.mem_of_mem_head? hx)
      rw [lskip_trimmed h.lead_blank hhead, findCharOrComment, hthrough,
        noteText, findLoop_through hzero' hnote hsemi,
        spaceAfter_blank hspace (Or.inr hsp), findLoop_note, List.append_nil]
      exact rstrip_trimmed h.content.1.last hspace

-- a line as `fgets` reads it ---------------------------------------------

/-- A line that is not blank has characters. -/
theorem Core.Legible.ne_nil {core : Core} (h : core.Legible)
    (hne : core ≠ .blank) : core.text ≠ [] := by
  cases core with
  | blank => exact absurd rfl hne
  | comment mark text => exact List.cons_ne_nil _ _
  | header name after => exact List.cons_ne_nil _ _
  | unclosed text => exact List.cons_ne_nil _ _
  | pair name gap sep lead value note => simp [Core.text]
  | loose text =>
      obtain ⟨c, r, rfl, -⟩ := h.1
      exact List.cons_ne_nil _ _

/-- What is left of a line without the white space. -/
theorem Line.Legible.body {l : Line} (h : l.Legible) {rest : Text}
    (hrest : Blank rest) :
    lskip (rstrip (l.text ++ rest)) = l.core.text
      ∧ (l.core ≠ .blank → rstrip (l.text ++ rest)
        = l.indent ++ l.core.text) := by
  have htrail : Blank (l.trail ++ rest) := fun c hc =>
    (List.mem_append.mp hc).elim (h.trail c) (hrest c)
  by_cases hblank : l.core = .blank
  · refine ⟨?_, fun hne => absurd hblank hne⟩
    have hall : Blank (l.text ++ rest) := by
      intro c hc
      simp only [Line.text, hblank, Core.text, List.nil_append,
        List.append_assoc, List.mem_append] at hc
      rcases hc with hc | hc | hc
      · exact h.indent c hc
      · exact h.trail c hc
      · exact hrest c hc
    have hnil := rstrip_trimmed (s := []) (fun _ hc => by cases hc) hall
    rw [List.nil_append] at hnil
    rw [hnil, hblank]
    rfl
  · have hne := h.core.ne_nil hblank
    have hstrip : rstrip (l.text ++ rest) = l.indent ++ l.core.text := by
      have hlast : ∀ c ∈ (l.indent ++ l.core.text).getLast?,
          isSpace c = false := by
        intro c hc
        rw [List.getLast?_append_of_ne_nil _ hne] at hc
        exact h.trimmed.last c hc
      have := rstrip_trimmed hlast htrail
      simpa [Line.text] using this
    refine ⟨?_, fun _ => hstrip⟩
    rw [hstrip]
    exact lskip_trimmed h.indent h.trimmed.head

variable {σ : Type} {handler : Handler σ} {lineno : Nat} {s : IniState σ}

/-- A text that starts a line, and is not a comment. -/
theorem Core.Legible.plain {core : Core} (h : core.Legible)
    (hne : core ≠ .blank) (hcom : ∀ mark text, core ≠ .comment mark text) :
    ∃ c r, core.text = c :: r ∧ ¬ (c = SEMICOLON ∨ c = HASH) := by
  cases core with
  | blank => exact absurd rfl hne
  | comment mark text => exact absurd rfl (hcom mark text)
  | header name after => exact ⟨_, _, rfl, by decide⟩
  | unclosed text => exact ⟨_, _, rfl, by decide⟩
  | pair name gap sep lead value note =>
      obtain ⟨c, r, rfl, h₁, h₂, -⟩ := h.opens
      exact ⟨c, _, rfl, not_or.mpr ⟨h₁, h₂⟩⟩
  | loose text =>
      obtain ⟨c, r, rfl, h₁, h₂, -⟩ := h.1
      exact ⟨c, r, rfl, not_or.mpr ⟨h₁, h₂⟩⟩

/-- A line that does not go on with a value. -/
theorem Core.Legible.read {core : Core} (h : core.Legible)
    (htrim : Trimmed core.text) (hzero : 0 ∉ core.text) {c : UInt8}
    {r : Text} (htext : core.text = c :: r)
    (hplain : ¬ (c = SEMICOLON ∨ c = HASH)) :
    (if c = LBRACKET then sectionLine lineno r s
      else pairLine handler lineno (c :: r) s)
      = s.read handler lineno core.reading := by
  cases core with
  | blank => cases htext
  | comment mark text =>
      cases htext
      exact absurd h hplain
  | header name after =>
      cases htext
      rw [if_pos rfl, sectionLine, findCharOrComment_cut h.1 h.2]
      simp only [List.head?_cons, ↓reduceIte]
      rfl
  | unclosed text =>
      cases htext
      -- the bracket is looked for and not found
      have hmiss := findLoop_misses h false
      rw [if_pos rfl, sectionLine]
      dsimp only [findCharOrComment]
      rw [if_neg hmiss]
      rfl
  | pair name gap sep lead value note =>
      obtain ⟨x, rest, rfl, -, -, hx⟩ := h.opens
      have hc : c ≠ LBRACKET := by
        cases htext
        exact hx
      have hvalue : 0 ∉ value ++ noteText note := fun hmem => hzero (by
        simp only [Core.text, List.mem_append, List.mem_cons] at hmem ⊢
        tauto)
      rw [if_neg hc, pairLine, ← htext, Core.text, h.cutPair]
      simp only [h.value_eq hvalue, rstrip_trimmed h.key.1.last h.gap_blank]
      rfl
  | loose text =>
      obtain ⟨⟨x, rest, rfl, -, -, hx⟩, hequals, hcolon⟩ := h
      cases htext
      -- neither is a separator, and the line is an error
      have h₁ := findLoop_misses hequals false
      have h₂ := findLoop_misses hcolon false
      rw [if_neg hx, pairLine, Config.cutPair]
      dsimp only [findCharOrComment]
      rw [if_neg h₁, if_neg h₂]
      rfl

/-- The end of a line counts as blank. -/
private theorem newline_blank : Blank [NEWLINE] := by
  intro c hc
  rw [List.mem_singleton] at hc
  subst hc
  decide

/-- The loop body does with a line what the line says. -/
theorem Line.Legible.iniLine {l : Line} (h : l.Legible) {bom : Bool}
    (hfirst : lineno = 1 → s.prevName = []) (hbom : bom = true → lineno = 1)
    (hmark : bom = false → lineno = 1 → ¬ BOM <+: l.text ++ [NEWLINE]) :
    iniLine handler lineno
        ((if bom then BOM else []) ++ (l.text ++ [NEWLINE])) s
      = s.read handler lineno (l.reading s.prevName) := by
  obtain ⟨hskip, hbody⟩ := h.body newline_blank
  have hzero : 0 ∉ l.text ++ [NEWLINE] := by
    rw [List.mem_append, not_or]
    exact ⟨h.plain.1, by decide⟩
  have hcstr : cstr ((if bom then BOM else []) ++ (l.text ++ [NEWLINE]))
      = (if bom then BOM else []) ++ (l.text ++ [NEWLINE]) := by
    refine cstr_eq_self ?_
    rw [List.mem_append, not_or]
    refine ⟨?_, hzero⟩
    cases bom <;> decide
  -- the mark is found where it was written, and only there
  have hfound : (decide (lineno = 1) && BOM.isPrefixOf
      ((if bom then BOM else []) ++ (l.text ++ [NEWLINE]))) = bom := by
    cases bom with
    | true => simp [hbom rfl]
    | false =>
        by_cases hone : lineno = 1
        · have hno := Bool.eq_false_iff.mpr fun hpre =>
            hmark rfl hone (List.isPrefixOf_iff_prefix.mp hpre)
          simpa [hone] using hno
        · simp [hone]
  have hdrop : (if bom then
        ((if bom then BOM else []) ++ (l.text ++ [NEWLINE])).drop BOM.length
      else (if bom then BOM else []) ++ (l.text ++ [NEWLINE]))
      = l.text ++ [NEWLINE] := by
    cases bom with
    | true => simp
    | false => rfl
  unfold Config.iniLine
  simp only [hcstr, hfound, hdrop, hskip]
  -- a comment or blank line says nothing, whatever was named before
  by_cases hquiet : l.core.reading = .nothing
  · have hread : l.reading s.prevName = .nothing := by
      rw [Line.reading, hquiet]
    have hcore := h.core
    rw [hread]
    cases hl : l.core with
    | blank => rfl
    | comment mark text =>
        rw [hl] at hcore
        exact if_pos (show mark = SEMICOLON ∨ mark = HASH from hcore)
    | header => simp [hl, Core.reading] at hquiet
    | unclosed => simp [hl, Core.reading] at hquiet
    | pair => simp [hl, Core.reading] at hquiet
    | loose => simp [hl, Core.reading] at hquiet
  · have hne : l.core ≠ .blank := fun hl => hquiet (by rw [hl]; rfl)
    obtain ⟨c, r, htext, hplain⟩ := h.core.plain hne fun mark text hl =>
      hquiet (by rw [hl]; rfl)
    have hread : l.reading s.prevName
        = if s.prevName ≠ [] ∧ l.indent ≠ [] then .more l.core.text
          else l.core.reading := by
      rw [Line.reading]
      split
      · next hnothing => exact absurd hnothing hquiet
      · rfl
    -- the parser takes a line for indented when `start` is past `line`
    have hshort : l.core.text.length < (rstrip (l.text ++ [NEWLINE])).length
        ↔ l.indent ≠ [] := by
      rw [hbody hne, List.length_append, Nat.lt_add_left_iff_pos,
        List.length_pos_iff]
    have hcont : (s.prevName ≠ [] ∧ (bom = true
          ∨ l.core.text.length < (rstrip (l.text ++ [NEWLINE])).length))
        ↔ s.prevName ≠ [] ∧ l.indent ≠ [] := by
      rw [hshort]
      refine and_congr_right fun hprev => or_iff_right fun htrue => ?_
      exact hprev (hfirst (hbom htrue))
    have hzero' : 0 ∉ l.core.text := fun hmem => h.plain.1 (by
      rw [Line.text, List.mem_append, List.mem_append]
      exact Or.inr (Or.inl hmem))
    rw [hread]
    simp only [hcont]
    have hcore : _ = s.read handler lineno l.core.reading :=
      h.core.read h.trimmed hzero' htext hplain
    rw [htext] at hcont ⊢
    simp only [if_neg hplain]
    split
    · rfl
    · exact hcore

end

-- ================================================================== all the lines

section

variable {σ : Type} {handler : Handler σ}

/-- `fgets` returns a line that fits its buffer, newline included. -/
private theorem fgetsLoop_line {line : List UInt8} (h : NEWLINE ∉ line)
    (rest : List UInt8) :
    ∀ {k : Nat}, line.length < k →
      fgetsLoop k (line ++ NEWLINE :: rest) = (line ++ [NEWLINE], rest) := by
  induction line with
  | nil =>
      intro k hk
      obtain ⟨k, rfl⟩ : ∃ j, k = j + 1 := ⟨k - 1, by simp at hk; omega⟩
      simp [fgetsLoop]
  | cons c line ih =>
      intro k hk
      obtain ⟨k, rfl⟩ : ∃ j, k = j + 1 := ⟨k - 1, by simp at hk; omega⟩
      have hc : c ≠ NEWLINE := fun heq => h (heq ▸ List.mem_cons_self ..)
      rw [List.cons_append, fgetsLoop, if_neg hc,
        ih (fun hmem => h (List.mem_cons_of_mem _ hmem))
          (by simpa using hk)]
      rfl

/-- The lines of a file, as it is written. -/
def linesText (ls : List Line) : List UInt8 :=
  ls.flatMap fun l => l.text ++ [NEWLINE]

/-- The loop reads the lines one after the other. -/
private theorem iniLoop_lines {ls : List Line} (hl : ∀ l ∈ ls, l.Legible)
    (hs : ∀ l ∈ ls, l.text.length + 1 < INI_MAX_LINE) :
    ∀ {k lineno : Nat} {s : IniState σ}, ls.length ≤ k → 0 < lineno →
      iniLoop handler k lineno (linesText ls) s
        = readLines handler lineno ls s := by
  induction ls with
  | nil =>
      intro k lineno s hk hpos
      cases k <;> rfl
  | cons l ls ih =>
      intro k lineno s hk hpos
      obtain ⟨k, rfl⟩ : ∃ j, k = j + 1 := ⟨k - 1, by simp at hk; omega⟩
      have hleg := hl l (List.mem_cons_self ..)
      have hshort := hs l (List.mem_cons_self ..)
      have hget : fgets INI_MAX_LINE (linesText (l :: ls))
          = some (l.text ++ [NEWLINE], linesText ls) := by
        rw [linesText, List.flatMap_cons, List.append_assoc,
          List.singleton_append, fgets, if_neg (by simp),
          fgetsLoop_line hleg.plain.2 _ (by omega)]
        rfl
      have hline : iniLine handler (lineno + 1) (l.text ++ [NEWLINE]) s
          = s.read handler (lineno + 1) (l.reading s.prevName) := by
        show iniLine handler (lineno + 1) ((if false = true then BOM else [])
          ++ (l.text ++ [NEWLINE])) s = _
        exact hleg.iniLine (by omega) (by simp) (by omega)
      rw [iniLoop, hget]
      simp only [readLines, ← hline]
      exact ih (fun l h => hl l (List.mem_cons_of_mem _ h))
        (fun l h => hs l (List.mem_cons_of_mem _ h))
        (by simpa using hk) (by omega)

/-- A file has no more lines than characters, so the loop has fuel enough.
-/
private theorem length_lines (ls : List Line) :
    ls.length ≤ (linesText ls).length := by
  induction ls with
  | nil => simp
  | cons l ls ih =>
      simp only [linesText, List.flatMap_cons, List.length_append,
        List.length_cons] at ih ⊢
      omega

/-- A file is read as what its lines say, one after the other. -/
theorem ini_document {d : Document} (h : d.Legible) (user : σ) :
    iniParseFile handler d.text user
      = ((readLines handler 0 d.lines ⟨user, [], [], 0⟩).user,
        ((readLines handler 0 d.lines ⟨user, [], [], 0⟩).error : Int)) := by
  obtain ⟨bom, lines⟩ := d
  have hnl : NEWLINE ∉ (if bom then BOM else []) := by
    cases bom <;> decide
  have key : iniLoop handler (Document.text ⟨bom, lines⟩).length 0
      (Document.text ⟨bom, lines⟩) ⟨user, [], [], 0⟩
      = readLines handler 0 lines ⟨user, [], [], 0⟩ := by
    cases lines with
    | nil => cases bom <;> rfl
    | cons l ls =>
        have hleg := h.lines l (List.mem_cons_self ..)
        have hshort : (if bom then BOM else []).length + l.text.length + 1
            < INI_MAX_LINE := by
          cases bom with
          | false => simpa using h.short l (List.mem_cons_self ..)
          | true => exact h.first rfl l rfl
        have htext : Document.text ⟨bom, l :: ls⟩
            = ((if bom then BOM else []) ++ l.text)
              ++ NEWLINE :: linesText ls := by
          simp [Document.text, linesText]
        -- only the first line may have the mark before it, so it is read
        -- apart
        have hget : fgets INI_MAX_LINE (Document.text ⟨bom, l :: ls⟩)
            = some ((if bom then BOM else []) ++ (l.text ++ [NEWLINE]),
              linesText ls) := by
          rw [htext, fgets, if_neg (by simp), fgetsLoop_line,
            List.append_assoc]
          · rw [List.mem_append, not_or]
            exact ⟨hnl, hleg.plain.2⟩
          · rw [List.length_append]
            omega
        have hfuel : ∃ k, (Document.text ⟨bom, l :: ls⟩).length = k + 1
            ∧ ls.length ≤ k := by
          have := length_lines ls
          refine ⟨(Document.text ⟨bom, l :: ls⟩).length - 1, ?_, ?_⟩
            <;> simp only [htext, List.length_append, List.length_cons]
            <;> omega
        -- without one, the line does not start as if it had one
        have hmark : bom = false → 0 + 1 = 1
            → ¬ BOM <+: l.text ++ [NEWLINE] := by
          intro hbom _ hpre
          subst hbom
          refine h.mark rfl (hpre.trans ?_)
          rw [htext]
          simp
        obtain ⟨k, hk, hlen⟩ := hfuel
        rw [hk, iniLoop, hget]
        simp only [readLines]
        rw [hleg.iniLine (fun _ => rfl) (fun _ => rfl) hmark]
        exact iniLoop_lines (fun l hl => h.lines l (List.mem_cons_of_mem _ hl))
          (fun l hl => h.short l (List.mem_cons_of_mem _ hl)) hlen
          Nat.one_pos
  rw [iniParseFile, key]

end

-- ============================================================== an example

/-- Where there is no semicolon there is no note. -/
private theorem noNote_of_not_mem {s : Text} (h : SEMICOLON ∉ s) : NoNote s :=
  fun a w b hs => absurd (hs ▸ by simp) h

/-- A comment, a section with a value that goes on, and a line that is
nothing. -/
def sample : Document where
  bom := true
  lines :=
    [⟨[], .comment HASH (ascii " =psnet"), []⟩,
      ⟨[], .header (ascii "Router") (ascii "x"), []⟩,
      ⟨[], .pair (ascii "name") [32] EQUALS [] (ascii "a")
        (some ([32], ascii "note")), [13]⟩,
      ⟨[32], .header (ascii "c") [], []⟩,
      ⟨[], .loose (ascii "d"), []⟩]

/-- `Trimmed` as a check of the two ends. -/
private theorem trimmed_of_all {s : Text}
    (hhead : s.head?.all (! isSpace ·) = true)
    (hlast : s.getLast?.all (! isSpace ·) = true) : Trimmed s := by
  constructor
  · intro c hc
    rw [Option.mem_def.mp hc] at hhead
    simpa using hhead
  · intro c hc
    rw [Option.mem_def.mp hc] at hlast
    simpa using hlast

/-- The sample file is written as the format allows. -/
private theorem sample_legible : sample.Legible := by
  have hpair : PairOk (ascii "name") [32] EQUALS [] (ascii "a")
      (some ([32], ascii "note")) := by
    refine ⟨⟨_, _, rfl, by decide, by decide, by decide⟩,
      ⟨trimmed_of_all (by decide) (by decide), noNote_of_not_mem (by decide),
        by decide⟩,
      by decide, Or.inl rfl, by decide,
      ⟨trimmed_of_all (by decide) (by decide), noNote_of_not_mem (by decide)⟩,
      ?_⟩
    intro space text h
    cases h
    exact ⟨by decide, by decide, by decide⟩
  have hheader : ∀ name, RBRACKET ∉ name → SEMICOLON ∉ name →
      RBRACKET ∉ name ∧ NoNote name :=
    fun name h h' => ⟨h, noNote_of_not_mem h'⟩
  refine ⟨fun l hl => ?_, by decide, by decide, fun h => by cases h⟩
  simp only [sample, List.mem_cons, List.not_mem_nil, or_false] at hl
  rcases hl with rfl | rfl | rfl | rfl | rfl
  · exact ⟨by decide, Or.inr rfl, trimmed_of_all (by decide) (by decide),
      by decide, by decide⟩
  · exact ⟨by decide, hheader _ (by decide) (by decide),
      trimmed_of_all (by decide) (by decide), by decide, by decide⟩
  · exact ⟨by decide, hpair, trimmed_of_all (by decide) (by decide), by decide,
      by decide⟩
  · exact ⟨by decide, hheader _ (by decide) (by decide),
      trimmed_of_all (by decide) (by decide), by decide, by decide⟩
  · exact ⟨by decide, ⟨⟨_, _, rfl, by decide, by decide, by decide⟩,
      by decide, by decide⟩, trimmed_of_all (by decide) (by decide), by decide,
      by decide⟩

/-- It names one value, which goes on in the next line, and its last line
is the error. -/
theorem ini_document_sample :
    iniParseFile (fun l sect name value => (l ++ [(sect, name, value)], true))
        sample.text []
      = ([(ascii "Router", ascii "name", ascii "a"),
        (ascii "Router", ascii "name", ascii "[c]")], 5) :=
  (ini_document sample_legible []).trans (by decide)

end Psnet.Config
