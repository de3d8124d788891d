/-
Ordered forests, and their preorder listings.

A forest is given by its first tree (a label and the forest below it)
and the trees that follow, so functions on it recurse structurally. Its
listing writes each label with the number of its children, parents
before children: the array a one-pass tokenizer leaves. A path is what such a
tokenizer has open: the nodes above a position, innermost first, each
with the trees to its left.

`Spans` says that every label's interval holds those of the labels below
it and that siblings follow one another.
-/
import Mathlib.Tactic.Common
import Mathlib.Data.List.Basic

/-- A list of trees with labels in `τ`. -/
inductive Forest (τ : Type*)
  | nil
  | node (a : τ) (kids rest : Forest τ)
  deriving DecidableEq, Repr

namespace Forest

variable {τ β : Type*}

/-- The trees of `f`, then those of `g`. -/
def append : Forest τ → Forest τ → Forest τ
  | nil, g => g
  | node a kids rest, g => node a kids (append rest g)

instance : Append (Forest τ) := ⟨append⟩

/-- A single tree. -/
def tree (a : τ) (kids : Forest τ) : Forest τ := node a kids nil

/-- The number of trees. -/
def width : Forest τ → Nat
  | nil => 0
  | node _ _ rest => rest.width + 1

/-- The number of nodes. -/
def count : Forest τ → Nat
  | nil => 0
  | node _ kids rest => kids.count + rest.count + 1

/-- The labels in preorder, each with the number of its children. -/
def listing (g : τ → Nat → β) : Forest τ → List β
  | nil => []
  | node a kids rest =>
      g a kids.width :: (listing g kids ++ listing g rest)

@[simp] theorem nil_append (g : Forest τ) : nil ++ g = g := rfl

@[simp] theorem node_append (a : τ) (kids rest g : Forest τ) :
    node a kids rest ++ g = node a kids (rest ++ g) := rfl

/-- Nothing behind a forest changes nothing. -/
@[simp] theorem append_nil (f : Forest τ) : f ++ nil = f := by
  induction f with
  | nil => rfl
  | node a kids rest _ ih => rw [node_append, ih]

/-- Three forests in a row, however they are grouped. -/
theorem append_assoc (f g h : Forest τ) : f ++ g ++ h = f ++ (g ++ h) := by
  induction f with
  | nil => rfl
  | node a kids rest _ ih => simp [ih]

@[simp] theorem width_nil : (nil : Forest τ).width = 0 := rfl

@[simp] theorem width_node (a : τ) (kids rest : Forest τ) :
    (node a kids rest).width = rest.width + 1 := rfl

/-- The trees of both forests. -/
@[simp] theorem width_append (f g : Forest τ) :
    (f ++ g).width = f.width + g.width := by
  induction f with
  | nil => simp
  | node a kids rest _ ih => simp [ih]; omega

@[simp] theorem count_nil : (nil : Forest τ).count = 0 := rfl

@[simp] theorem count_node (a : τ) (kids rest : Forest τ) :
    (node a kids rest).count = kids.count + rest.count + 1 := rfl

/-- The nodes of both forests. -/
@[simp] theorem count_append (f g : Forest τ) :
    (f ++ g).count = f.count + g.count := by
  induction f with
  | nil => simp
  | node a kids rest _ ih => simp [ih]; omega

/-- Every tree has a root. -/
theorem width_le_count (f : Forest τ) : f.width ≤ f.count := by
  induction f with
  | nil => exact Nat.le_refl 0
  | node a kids rest _ ih => simp; omega

section Listing

variable (g : τ → Nat → β)

@[simp] theorem listing_nil : listing g nil = [] := rfl

@[simp] theorem listing_node (a : τ) (kids rest : Forest τ) :
    listing g (node a kids rest)
      = g a kids.width :: (listing g kids ++ listing g rest) := rfl

/-- The listing of the second forest goes behind that of the first. -/
@[simp] theorem listing_append (f h : Forest τ) :
    listing g (f ++ h) = listing g f ++ listing g h := by
  induction f with
  | nil => rfl
  | node a kids rest _ ih => simp [ih]

/-- One entry for every node. -/
@[simp] theorem length_listing (f : Forest τ) :
    (listing g f).length = f.count := by
  induction f with
  | nil => rfl
  | node a kids rest ihk ihr => simp [ihk, ihr]

end Listing

-- ==================================================================== paths

/-- An open node, and the trees to its left. -/
structure Frame (σ τ : Type*) where
  label : σ
  left : Forest τ
  deriving DecidableEq, Repr

section Path

variable {σ : Type*}

/-- The number of nodes of a path and of the trees to its left. -/
def pathCount : List (Frame σ τ) → Nat
  | [] => 0
  | o :: path => pathCount path + o.left.count + 1

/-- The listing of a path whose innermost node has `w` children so
far. -/
def pathListing (og : σ → Nat → β) (g : τ → Nat → β) :
    List (Frame σ τ) → Nat → List β
  | [], _ => []
  | o :: path, w => pathListing og g path (o.left.width + 1)
      ++ listing g o.left ++ [og o.label w]

/-- One entry for every node to the left of the path, and one for each on
it. -/
@[simp] theorem length_pathListing (og : σ → Nat → β) (g : τ → Nat → β)
    (path : List (Frame σ τ)) (w : Nat) :
    (pathListing og g path w).length = pathCount path := by
  induction path generalizing w with
  | nil => rfl
  | cons o path ih => simp [pathListing, pathCount, ih]; omega

end Path

-- ================================================================= intervals

section Spans

variable (start stop : τ → Nat)

/-- Between `lo` and `hi` the trees' intervals follow one another, each
holding those of the trees below it. -/
def Spans : Nat → Forest τ → Nat → Prop
  | lo, nil, hi => lo ≤ hi
  | lo, node a kids rest, hi =>
      lo ≤ start a ∧ Spans (start a) kids (stop a) ∧ Spans (stop a) rest hi

variable {start stop} {lo mid hi : Nat}

/-- The end of what a forest spans is not before its start. -/
theorem Spans.le {f : Forest τ} (h : Spans start stop lo f hi) :
    lo ≤ hi := by
  induction f generalizing lo hi with
  | nil => exact h
  | node a kids rest ihk ihr =>
      obtain ⟨h₁, h₂, h₃⟩ := h
      exact Nat.le_trans h₁ (Nat.le_trans (ihk h₂) (ihr h₃))

/-- Two forests side by side span what both span. -/
theorem Spans.append {f g : Forest τ} (hf : Spans start stop lo f mid)
    (hg : Spans start stop mid g hi) :
    Spans start stop lo (f ++ g) hi := by
  induction f generalizing lo with
  | nil =>
      cases g with
      | nil => exact Nat.le_trans hf hg
      | node a kids rest => exact ⟨Nat.le_trans hf hg.1, hg.2⟩
  | node a kids rest _ ih => exact ⟨hf.1, hf.2.1, ih hf.2.2⟩

/-- A forest also fits a longer stretch. -/
theorem Spans.mono {f : Forest τ} {hi' : Nat}
    (h : Spans start stop lo f hi) (hle : hi ≤ hi') :
    Spans start stop lo f hi' := by
  induction f generalizing lo with
  | nil => exact Nat.le_trans h hle
  | node a kids rest _ ih => exact ⟨h.1, h.2.1, ih h.2.2⟩

end Spans

-- ======================================================== a property of nodes

/-- Every node of the forest, with the trees below it, satisfies `p`. -/
def All (p : τ → Forest τ → Prop) : Forest τ → Prop
  | nil => True
  | node a kids rest => p a kids ∧ All p kids ∧ All p rest

/-- What holds of the nodes of both forests holds of all of them. -/
theorem All.append {p : τ → Forest τ → Prop} {f g : Forest τ}
    (hf : All p f) (hg : All p g) : All p (f ++ g) := by
  induction f with
  | nil => exact hg
  | node a kids rest _ ih => exact ⟨hf.1, hf.2.1, ih hf.2.2⟩

/-- What follows from `p` at a node holds where `p` does. -/
theorem All.mono {p q : τ → Forest τ → Prop} {f : Forest τ}
    (h : All p f) (hpq : ∀ a kids, p a kids → q a kids) : All q f := by
  induction f with
  | nil => trivial
  | node a kids rest ihk ihr =>
      exact ⟨hpq a kids h.1, ihk h.2.1, ihr h.2.2⟩

-- ============================================================= positions

/-- The node at a position of the preorder listing, and the trees below
it. -/
def sub : Forest τ → Nat → Option (τ × Forest τ)
  | nil, _ => none
  | node a kids _, 0 => some (a, kids)
  | node _ kids rest, i + 1 =>
      if i < kids.count then sub kids i else sub rest (i - kids.count)

/-- The trees, as labels with what is below them. -/
def trees : Forest τ → List (τ × Forest τ)
  | nil => []
  | node a kids rest => (a, kids) :: trees rest

/-- One element for every tree. -/
@[simp] theorem length_trees (f : Forest τ) : f.trees.length = f.width := by
  induction f with
  | nil => rfl
  | node a kids rest _ ih => simp [trees, ih]

/-- The positions of the trees themselves, the first at `i`. -/
def starts : Nat → Forest τ → List Nat
  | _, nil => []
  | i, node _ kids rest => i :: starts (i + 1 + kids.count) rest

/-- One start for every tree. -/
@[simp] theorem length_starts (i : Nat) (f : Forest τ) :
    (starts i f).length = f.width := by
  induction f generalizing i with
  | nil => rfl
  | node a kids rest _ ih => simp [starts, ih]

/-- Every position is that of a node. -/
theorem sub_some {f : Forest τ} {i : Nat} (h : i < f.count) :
    ∃ p, sub f i = some p := by
  induction f generalizing i with
  | nil => exact absurd h (Nat.not_lt_zero i)
  | node a kids rest ihk ihr =>
      cases i with
      | zero => exact ⟨(a, kids), rfl⟩
      | succ i =>
          rw [sub]
          split
          · next hi => exact ihk hi
          · next hi =>
            rw [count_node] at h
            exact ihr (by omega)

/-- And only those are. -/
theorem sub_lt {f : Forest τ} {i : Nat} {p : τ × Forest τ}
    (h : sub f i = some p) : i < f.count := by
  induction f generalizing i with
  | nil => cases h
  | node a kids rest ihk ihr =>
      cases i with
      | zero => simp
      | succ i =>
          rw [sub] at h
          rw [count_node]
          split at h
          · have := ihk h
            omega
          · have := ihr h
            omega

/-- From its position on, the listing is that of the node's tree. -/
theorem sub_listing (g : τ → Nat → β) {f : Forest τ} {i : Nat} {a : τ}
    {kids : Forest τ} (h : sub f i = some (a, kids)) :
    ∃ r, (listing g f).drop i = listing g (tree a kids) ++ r := by
  induction f generalizing i with
  | nil => cases h
  | node b bkids rest ihk ihr =>
      cases i with
      | zero =>
          cases h
          exact ⟨listing g rest, by simp [tree]⟩
      | succ i =>
          rw [sub] at h
          split at h
          · next hi =>
            obtain ⟨r, hr⟩ := ihk h
            refine ⟨r ++ listing g rest, ?_⟩
            rw [listing_node, List.drop_succ_cons,
              List.drop_append_of_le_length (by simp; omega), hr,
              List.append_assoc]
          · next hi =>
            obtain ⟨r, hr⟩ := ihr h
            refine ⟨r, ?_⟩
            rw [listing_node, List.drop_succ_cons, List.drop_append,
              length_listing, hr, List.drop_eq_nil_of_le (by simp; omega),
              List.nil_append]

/-- What holds of all nodes holds of the one at an index, and of those below
it. -/
theorem All.sub {p : τ → Forest τ → Prop} {f : Forest τ} (h : All p f)
    {i : Nat} {a : τ} {kids : Forest τ} (hs : f.sub i = some (a, kids)) :
    p a kids ∧ All p kids := by
  induction f generalizing i with
  | nil => cases hs
  | node b bkids rest ihk ihr =>
      cases i with
      | zero =>
          cases hs
          exact ⟨h.1, h.2.1⟩
      | succ i =>
          rw [Forest.sub] at hs
          split at hs
          · exact ihk h.2.1 hs
          · exact ihr h.2.2 hs

/-- A node ends before the forest does. -/
theorem Spans.sub_le {start stop : τ → Nat} {f : Forest τ} {lo hi i : Nat}
    {a : τ} {kids : Forest τ} (h : Spans start stop lo f hi)
    (hs : f.sub i = some (a, kids)) : stop a ≤ hi := by
  induction f generalizing lo hi i with
  | nil => cases hs
  | node b bkids rest ihk ihr =>
      cases i with
      | zero =>
          cases hs
          exact h.2.2.le
      | succ i =>
          rw [Forest.sub] at hs
          split at hs
          · exact Nat.le_trans (ihk h.2.1 hs) h.2.2.le
          · exact ihr h.2.2 hs

/-- The trees below a node stand inside its interval. -/
theorem Spans.sub {start stop : τ → Nat} {f : Forest τ} {lo hi i : Nat}
    {a : τ} {kids : Forest τ} (h : Spans start stop lo f hi)
    (hs : f.sub i = some (a, kids)) :
    Spans start stop (start a) kids (stop a) := by
  induction f generalizing lo hi i with
  | nil => cases hs
  | node b bkids rest ihk ihr =>
      cases i with
      | zero =>
          cases hs
          exact h.2.1
      | succ i =>
          rw [Forest.sub] at hs
          split at hs
          · exact ihk h.2.1 hs
          · exact ihr h.2.2 hs

end Forest
