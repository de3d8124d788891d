/-
Arrays of flat objects, written without blanks.

`arrayText` is what the list encoders write, an object of plain members
for each address. Its parse is one tree of three levels
(`zipParse_array`), which takes `arrayCount` tokens.
-/
import Psnet.Jsmn.Flat

namespace Psnet.Jsmn

open Forest Net

variable {ms : Members} {l : List Members} {sep js : List UInt8} {num : Nat}

/-- Objects with commas between them; `sep` stands before the first. -/
def objects : List UInt8 → List Members → Forest Lex
  | _, [] => .nil
  | sep, ms :: l => .node ⟨sep, .object []⟩ (flat [] ms) (objects (ascii ",") l)

/-- The text of an array of objects. -/
def arrayText (l : List Members) : List UInt8 :=
  LBRACKET :: (text (objects [] l) ++ [RBRACKET])

/-- The number of tokens of the array. -/
def arrayCount (l : List Members) : Nat :=
  1 + (l.map fun ms => 1 + 2 * ms.length).sum

theorem text_objects (sep : List UInt8) (ms : Members) (l : List Members) :
    text (objects sep (ms :: l))
      = sep ++ (flatText ms ++ text (objects (ascii ",") l)) := by
  simp [objects, text, Piece.write, flatText]

theorem count_objects (sep : List UInt8) (l : List Members) :
    (objects sep l).count = (l.map fun ms => 1 + 2 * ms.length).sum := by
  induction l generalizing sep with
  | nil => rfl
  | cons ms l ih =>
      simp only [objects, count_node, count_flat, ih, List.map_cons,
        List.sum_cons]
      omega

@[simp] theorem width_objects (sep : List UInt8) (l : List Members) :
    (objects sep l).width = l.length := by
  induction l generalizing sep with
  | nil => rfl
  | cons ms l ih => simp [objects, ih]

private theorem legible_objects {first : Bool} (hsep : Layout sep)
    (hfirst : first = true ∨ sep ≠ []) (h : ∀ ms ∈ l, PlainMembers ms) :
    Legible first (objects sep l) := by
  induction l generalizing sep first with
  | nil => trivial
  | cons ms l ih =>
      obtain ⟨hms, hl⟩ := List.forall_mem_cons.mp h
      exact ⟨hsep, hfirst, layout_nil,
        legible_flat (by decide) (Or.inl rfl) hms,
        ih (by decide) (Or.inr (by decide)) hl⟩

/-- Writing a comma after every object writes one too many. -/
private theorem text_objects_comma (l : List Members) :
    text (objects (ascii ",") l) ++ ascii ","
      = ascii "," ++ l.flatMap fun ms => flatText ms ++ ascii "," := by
  induction l with
  | nil => rfl
  | cons ms l ih =>
      rw [text_objects, List.append_assoc, List.append_assoc, ih,
        List.flatMap_cons]
      simp only [List.append_assoc]

theorem text_objects_dropLast (l : List Members) :
    (l.flatMap fun ms => flatText ms ++ ascii ",").dropLast
      = text (objects [] l) := by
  cases l with
  | nil => rfl
  | cons ms l =>
      have h : (ms :: l).flatMap (fun ms => flatText ms ++ ascii ",")
          = text (objects [] (ms :: l)) ++ ascii "," := by
        rw [text_objects, List.flatMap_cons, List.append_assoc,
          List.append_assoc, List.append_assoc, text_objects_comma]
        rfl
      rw [h, show ascii "," = [44] from rfl, List.dropLast_concat]

private theorem text_objects_append (sep : List UInt8) (l l' : List Members) :
    ∃ sep', text (objects sep (l ++ l'))
      = text (objects sep l) ++ text (objects sep' l') := by
  induction l generalizing sep with
  | nil => exact ⟨sep, rfl⟩
  | cons ms l ih =>
      obtain ⟨sep', h⟩ := ih (ascii ",")
      refine ⟨sep', ?_⟩
      rw [List.cons_append, text_objects, text_objects, h]
      simp only [List.append_assoc]

/-- More objects make a longer array. -/
theorem length_arrayText_lt (l : List Members) {l' : List Members}
    (h : l' ≠ []) : (arrayText l).length < (arrayText (l ++ l')).length := by
  obtain ⟨ms, l', rfl⟩ := List.exists_cons_of_ne_nil h
  obtain ⟨sep', ht⟩ := text_objects_append [] l (ms :: l')
  have hpos : 0 < (text (objects sep' (ms :: l'))).length := by
    rw [text_objects, flatText]
    simp
  simp only [arrayText, ht, List.length_cons, List.length_append]
  omega

theorem nul_notMem_arrayText (h : ∀ ms ∈ l, PlainMembers ms) :
    0 ∉ arrayText l := by
  have htext : 0 ∉ text (objects [] l) := by
    rw [← text_objects_dropLast]
    intro hmem
    obtain ⟨ms, hms, h0⟩ := List.mem_flatMap.mp (List.mem_of_mem_dropLast hmem)
    rcases List.mem_append.mp h0 with h0 | h0
    · exact nul_notMem_flatText (h ms hms) h0
    · exact absurd h0 (by decide)
  have hmarks : (0 : UInt8) ≠ LBRACKET ∧ (0 : UInt8) ≠ RBRACKET := by decide
  simp [arrayText, htext, hmarks]

/-- The parse of an array of objects, where there is room for it. -/
theorem zipParse_array {after : List UInt8} (h : ∀ ms ∈ l, PlainMembers ms)
    (hafter : Layout after) (hjs : cstr js = arrayText l ++ after)
    (hroom : arrayCount l ≤ num) :
    zipParse js num
      = .ok (tree ⟨.array, 0, (arrayText l).length⟩
          (labels 1 (objects [] l))) := by
  have hleg : Legible true (tree ⟨[], .array []⟩ (objects [] l)) :=
    ⟨by decide, Or.inl rfl, layout_nil,
      legible_objects (by decide) (Or.inl rfl) h, trivial⟩
  have htext : text (tree ⟨[], .array []⟩ (objects [] l)) ++ after
      = arrayText l ++ after := by
    simp [tree, text, Piece.write, arrayText]
  have hz : zipParse js num = .ok _ := zipParse_text hleg hafter
    (hjs.trans htext.symm) (by
      rw [arrayCount] at hroom
      simp only [tree, count_node, count_nil, count_objects]
      omega)
  rw [hz]
  simp [tree, labels, Piece.lab, arrayText]

end Psnet.Jsmn
