/-
Linked structures in a heap: singly linked chains and doubly linked
segments, described by the list of addresses they run through.

A heap sends an address to the node it holds, or to `none` where
nothing was allocated or the node was freed, so "following the links
succeeds" already says that no freed node is on the way. Both
predicates take the list of addresses as data: an operation on the
structure is then an operation on that list (append, erase, split),
and what each one owes is a statement about the two or three nodes
whose links it writes.

A segment has a loose end on each side: `p` is what the first node's
back link holds and `e` what the last node's forward link holds. A
null-terminated list is the segment between `none` and `none`; a ring
through a head `h` is the segment between `some h` and `some h`.
-/
import Mathlib.Tactic.Common
import Mathlib.Data.List.Basic
import Mathlib.Data.List.Infix
import Mathlib.Data.List.Nodup
import Mathlib.Logic.Function.Basic

namespace Linked

/-- What each address holds; `none` where nothing is allocated. -/
abbrev Heap (A N : Type*) := A → Option N

variable {A N : Type*}

-- ========================================================= the predicates

/-- The nodes at `l` follow one another by `next`, and the last one's
link is `e`. -/
def Chain (next : N → Option A) (h : Heap A N) : List A → Option A → Prop
  | [], _ => True
  | a :: l, e => (h a).map next = some (l.head?.or e) ∧ Chain next h l e

/-- The nodes at `l` follow one another by `next` and backwards by
`prev`; `p` and `e` are the links at the two ends. -/
def Seg (next prev : N → Option A) (h : Heap A N) :
    Option A → List A → Option A → Prop
  | _, [], _ => True
  | p, a :: l, e => (h a).map next = some (l.head?.or e)
      ∧ (h a).map prev = some p ∧ Seg next prev h (some a) l e

/-- The addresses met by following `next` from `s` up to a null link,
given fuel; `none` when the walk meets a freed node or does not end. -/
def walk (next : N → Option A) (h : Heap A N) :
    Nat → Option A → Option (List A)
  | 0, _ => none
  | _ + 1, none => some []
  | k + 1, some a =>
      match h a with
      | none => none
      | some n => (walk next h k (next n)).map (a :: ·)

variable {next prev : N → Option A} {h h' : Heap A N}

-- ============================================================== the chain

@[simp] theorem chain_nil {e : Option A} : Chain next h [] e := trivial

@[simp] theorem chain_cons {a : A} {l : List A} {e : Option A} :
    Chain next h (a :: l) e
      ↔ (h a).map next = some (l.head?.or e) ∧ Chain next h l e :=
  Iff.rfl

theorem chain_append {l₁ l₂ : List A} {e : Option A} :
    Chain next h (l₁ ++ l₂) e
      ↔ Chain next h l₁ (l₂.head?.or e) ∧ Chain next h l₂ e := by
  induction l₁ with
  | nil => simp
  | cons a l ih =>
      rw [List.cons_append, chain_cons, chain_cons, ih, List.head?_append,
        Option.or_assoc, and_assoc]

/-- A chain reads only the forward links of its own nodes. -/
theorem Chain.congr {l : List A} {e : Option A}
    (hag : ∀ a ∈ l, (h' a).map next = (h a).map next)
    (hc : Chain next h l e) : Chain next h' l e := by
  induction l with
  | nil => trivial
  | cons a l ih =>
      obtain ⟨hn, hrest⟩ := hc
      refine ⟨?_, ih (fun b hb => hag b (List.mem_cons_of_mem _ hb)) hrest⟩
      rw [hag a (List.mem_cons_self ..), hn]

/-- A write outside a chain does not touch it. -/
theorem Chain.update [DecidableEq A] {l : List A} {a : A} {v : Option N}
    {e : Option A} (ha : a ∉ l) (hc : Chain next h l e) :
    Chain next (Function.update h a v) l e :=
  hc.congr fun _ hb => by
    rw [Function.update_of_ne (ne_of_mem_of_not_mem hb ha)]

theorem Chain.isSome {l : List A} {e : Option A} (hc : Chain next h l e)
    {a : A} (ha : a ∈ l) : (h a).isSome := by
  induction l with
  | nil => cases ha
  | cons b l ih =>
      rcases List.mem_cons.mp ha with rfl | ha
      · cases hb : h a with
        | none => rw [chain_cons, hb] at hc; exact absurd hc.1 (by simp)
        | some n => rfl
      · exact ih hc.2 ha

/-- The last node of a chain may be linked to a new end. -/
theorem Chain.setLast [DecidableEq A] {l : List A} {a : A} {n : N}
    {e e' : Option A} (hc : Chain next h (l ++ [a]) e) (ha : a ∉ l)
    (hn : next n = e') :
    Chain next (Function.update h a (some n)) (l ++ [a]) e' := by
  rw [chain_append] at hc ⊢
  refine ⟨hc.1.update ha, ?_, trivial⟩
  · rw [Function.update_self, Option.map_some, hn]
    rfl

/-- A null-terminated chain that fits the fuel is what the walk
returns. -/
theorem walk_of_chain {l : List A} (hc : Chain next h l none) :
    ∀ {k : Nat}, l.length < k → walk next h k l.head? = some l := by
  induction l with
  | nil =>
      intro k hk
      obtain ⟨k, rfl⟩ : ∃ j, k = j + 1 := ⟨k - 1, by simp at hk; omega⟩
      rw [List.head?_nil, walk]
  | cons a l ih =>
      intro k hk
      obtain ⟨k, rfl⟩ : ∃ j, k = j + 1 := ⟨k - 1, by simp at hk; omega⟩
      obtain ⟨hn, hrest⟩ := hc
      have hw := ih hrest (k := k) (by simp at hk; omega)
      obtain ⟨n, hha, hnext⟩ := Option.map_eq_some_iff.mp hn
      rw [Option.or_none] at hnext
      simp [walk, hha, hnext, hw]

/-- What a walk returns is a null-terminated chain from its start. -/
theorem chain_of_walk {k : Nat} {s : Option A} {l : List A}
    (hw : walk next h k s = some l) :
    Chain next h l none ∧ s = l.head? := by
  induction k generalizing s l with
  | zero => cases hw
  | succ k ih =>
      cases s with
      | none =>
          cases hw
          exact ⟨trivial, rfl⟩
      | some a =>
          rw [walk] at hw
          cases ha : h a with
          | none => simp [ha] at hw
          | some n =>
              simp only [ha] at hw
              obtain ⟨l', hl', rfl⟩ := Option.map_eq_some_iff.mp hw
              obtain ⟨hc, hnext⟩ := ih hl'
              exact ⟨⟨by rw [ha, Option.map_some, hnext, Option.or_none], hc⟩,
                rfl⟩

-- ============================================================ the segment

@[simp] theorem seg_nil {p e : Option A} : Seg next prev h p [] e := trivial

@[simp] theorem seg_cons {p e : Option A} {a : A} {l : List A} :
    Seg next prev h p (a :: l) e
      ↔ (h a).map next = some (l.head?.or e) ∧ (h a).map prev = some p
        ∧ Seg next prev h (some a) l e :=
  Iff.rfl

theorem getLast?_cons_or {a : A} {l : List A} {p : Option A} :
    (a :: l).getLast?.or p = l.getLast?.or (some a) := by
  cases l with
  | nil => rfl
  | cons b l => simp [List.getLast?_eq_some_getLast]

theorem seg_append {p e : Option A} {l₁ l₂ : List A} :
    Seg next prev h p (l₁ ++ l₂) e
      ↔ Seg next prev h p l₁ (l₂.head?.or e)
        ∧ Seg next prev h (l₁.getLast?.or p) l₂ e := by
  induction l₁ generalizing p with
  | nil => simp
  | cons a l ih =>
      rw [List.cons_append, seg_cons, seg_cons, ih, List.head?_append,
        Option.or_assoc, getLast?_cons_or]
      tauto

/-- A segment reads only the links of its own nodes. -/
theorem Seg.congr {p e : Option A} {l : List A}
    (hn : ∀ a ∈ l, (h' a).map next = (h a).map next)
    (hp : ∀ a ∈ l, (h' a).map prev = (h a).map prev)
    (hs : Seg next prev h p l e) : Seg next prev h' p l e := by
  induction l generalizing p with
  | nil => trivial
  | cons a l ih =>
      obtain ⟨h1, h2, h3⟩ := hs
      refine ⟨?_, ?_, ih (fun b hb => hn b (List.mem_cons_of_mem _ hb))
        (fun b hb => hp b (List.mem_cons_of_mem _ hb)) h3⟩
      · rw [hn a (List.mem_cons_self ..), h1]
      · rw [hp a (List.mem_cons_self ..), h2]

/-- A write outside a segment does not touch it. -/
theorem Seg.update [DecidableEq A] {p e : Option A} {l : List A} {a : A}
    {v : Option N} (ha : a ∉ l) (hs : Seg next prev h p l e) :
    Seg next prev (Function.update h a v) p l e :=
  hs.congr
    (fun _ hb => by
      rw [Function.update_of_ne (ne_of_mem_of_not_mem hb ha)])
    (fun _ hb => by
      rw [Function.update_of_ne (ne_of_mem_of_not_mem hb ha)])

/-- Read forwards, a segment is a chain. -/
theorem Seg.chain {p e : Option A} {l : List A}
    (hs : Seg next prev h p l e) : Chain next h l e := by
  induction l generalizing p with
  | nil => trivial
  | cons a l ih => exact ⟨hs.1, ih hs.2.2⟩

/-- The last node of a segment may be linked to a new end. -/
theorem Seg.setLast [DecidableEq A] {p e e' : Option A} {l : List A}
    {a : A} {m n : N} (hs : Seg next prev h p (l ++ [a]) e) (ha : a ∉ l)
    (hm : h a = some m) (hn : next n = e') (hp : prev n = prev m) :
    Seg next prev (Function.update h a (some n)) p (l ++ [a]) e' := by
  rw [seg_append] at hs ⊢
  refine ⟨hs.1.update ha, ?_, ?_, trivial⟩
  · rw [Function.update_self, Option.map_some, hn]
    rfl
  · rw [Function.update_self, Option.map_some, hp, ← hs.2.2.1, hm]
    rfl

/-- The first node of a segment may be linked back to a new end. -/
theorem Seg.setFirst [DecidableEq A] {p p' e : Option A} {l : List A}
    {a : A} {m n : N} (hs : Seg next prev h p (a :: l) e) (ha : a ∉ l)
    (hm : h a = some m) (hn : next n = next m) (hp : prev n = p') :
    Seg next prev (Function.update h a (some n)) p' (a :: l) e := by
  obtain ⟨h1, -, h3⟩ := hs
  refine ⟨?_, ?_, h3.update ha⟩
  · rw [Function.update_self, Option.map_some, hn, ← h1, hm]
    rfl
  · rw [Function.update_self, Option.map_some, hp]

end Linked
