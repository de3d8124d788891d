/-
Stores to the links of doubly linked nodes.

`Fields` says where a node keeps its two links and what else it holds; a
store through a pointer changes one link of one node (`store_next`,
`store_prev`). `linkBetween` and `spliceBetween` are the sequences of
stores by which a node, or the nodes of another ring, are put between
two neighbours: at the end of a ring they do what `Ring.snoc` and
`Ring.splice` ask for. `linkPast` leaves a node out, as `Ring.tail` asks,
and `linkHead` puts a new head before the nodes of a ring, as
`Ring.rehead` does.
-/
import Psnet.Lib.Ring

namespace Linked

/-- The links of a node, how they are stored to, and its payload. -/
structure Fields (A N D : Type*) where
  next : N → A
  prev : N → A
  data : N → D
  setNext : A → N → N
  setPrev : A → N → N
  next_setNext : ∀ a n, next (setNext a n) = a
  prev_setNext : ∀ a n, prev (setNext a n) = prev n
  data_setNext : ∀ a n, data (setNext a n) = data n
  next_setPrev : ∀ a n, next (setPrev a n) = next n
  prev_setPrev : ∀ a n, prev (setPrev a n) = a
  data_setPrev : ∀ a n, data (setPrev a n) = data n

attribute [simp] Fields.next_setNext Fields.prev_setNext
  Fields.data_setNext Fields.next_setPrev Fields.prev_setPrev
  Fields.data_setPrev

variable {A N D : Type*} (F : Fields A N D)

/-- The nodes and their payloads are the same; only links may differ. -/
def Kept (h h' : Heap A N) : Prop :=
  ∀ b, (h' b).map F.data = (h b).map F.data

variable {F} {h h' : Heap A N} {head x : A} {as bs : List A}

theorem Kept.trans {h'' : Heap A N} (h₁ : Kept F h h')
    (h₂ : Kept F h' h'') : Kept F h h'' :=
  fun b => (h₂ b).trans (h₁ b)

/-- No node comes or goes. -/
theorem Kept.live (hk : Kept F h h') (b : A) :
    (h' b).isSome = (h b).isSome := by
  have := congrArg Option.isSome (hk b)
  rwa [Option.isSome_map, Option.isSome_map] at this

theorem Kept.isSome (hk : Kept F h h') {b : A} (hb : (h b).isSome) :
    (h' b).isSome := by
  rw [hk.live, hb]

/-- The last node of a ring. -/
theorem Ring.last_mem {next prev : N → A} (hr : Ring next prev h head as) :
    as.getLast?.getD head ∈ head :: as
      ∧ (h (as.getLast?.getD head)).isSome := by
  have hmem : as.getLast?.getD head ∈ head :: as := by
    rcases List.eq_nil_or_concat as with rfl | ⟨l, a, rfl⟩ <;> simp
  exact ⟨hmem, hr.isSome hmem⟩

variable [DecidableEq A]

/-- A store through a pointer; `none` where no node is. -/
def store (h : Heap A N) (a : A) (f : N → N) : Option (Heap A N) :=
  (h a).map fun n => Function.update h a (some (f n))

/-- `x` between `prev` and `next`. -/
def linkBetween (F : Fields A N D) (h : Heap A N) (x prev next : A) :
    Option (Heap A N) := do
  let h ← store h next (F.setPrev x)
  let h ← store h x (F.setNext next)
  let h ← store h x (F.setPrev prev)
  store h prev (F.setNext x)

/-- The nodes from `first` to `last` between `prev` and `next`. -/
def spliceBetween (F : Fields A N D) (h : Heap A N)
    (first last prev next : A) : Option (Heap A N) := do
  let h ← store h first (F.setPrev prev)
  let h ← store h prev (F.setNext first)
  let h ← store h last (F.setNext next)
  store h next (F.setPrev last)

/-- `prev` and `next` linked to each other, past what is between. -/
def linkPast (F : Fields A N D) (h : Heap A N) (prev next : A) :
    Option (Heap A N) := do
  let h ← store h next (F.setPrev prev)
  store h prev (F.setNext next)

/-- `head` before `first` and behind `last`. -/
def linkHead (F : Fields A N D) (h : Heap A N) (head first last : A) :
    Option (Heap A N) := do
  let h ← store h head (F.setNext first)
  let h ← store h head (F.setPrev last)
  let h ← store h first (F.setPrev head)
  store h last (F.setNext head)

-- ================================================================== one store

theorem store_next {a : A} (ha : (h a).isSome) (v : A) :
    ∃ h', store h a (F.setNext v) = some h' ∧ Kept F h h'
      ∧ (∀ b, (h' b).map F.next
          = if b = a then some v else (h b).map F.next)
      ∧ (∀ b, (h' b).map F.prev = (h b).map F.prev)
      ∧ ∀ b, b ≠ a → h' b = h b := by
  obtain ⟨n, hn⟩ := Option.isSome_iff_exists.mp ha
  refine ⟨Function.update h a (some (F.setNext v n)), by simp [store, hn],
    fun b => ?_, fun b => ?_, fun b => ?_,
    fun b hb => Function.update_of_ne hb _ _⟩ <;>
  · by_cases hb : b = a
    · subst hb
      simp [hn]
    · simp [hb]

theorem store_prev {a : A} (ha : (h a).isSome) (v : A) :
    ∃ h', store h a (F.setPrev v) = some h' ∧ Kept F h h'
      ∧ (∀ b, (h' b).map F.next = (h b).map F.next)
      ∧ (∀ b, (h' b).map F.prev
          = if b = a then some v else (h b).map F.prev)
      ∧ ∀ b, b ≠ a → h' b = h b := by
  obtain ⟨n, hn⟩ := Option.isSome_iff_exists.mp ha
  refine ⟨Function.update h a (some (F.setPrev v n)), by simp [store, hn],
    fun b => ?_, fun b => ?_, fun b => ?_,
    fun b hb => Function.update_of_ne hb _ _⟩ <;>
  · by_cases hb : b = a
    · subst hb
      simp [hn]
    · simp [hb]

-- ============================================================== four stores

/-- The links after `linkBetween`. -/
theorem linkBetween_spec {prev next : A} (hx : (h x).isSome)
    (hp : (h prev).isSome) (hn : (h next).isSome) :
    ∃ h', linkBetween F h x prev next = some h' ∧ Kept F h h'
      ∧ (∀ b, (h' b).map F.next = if b = prev then some x
          else if b = x then some next else (h b).map F.next)
      ∧ (∀ b, (h' b).map F.prev = if b = x then some prev
          else if b = next then some x else (h b).map F.prev)
      ∧ ∀ b, b ≠ x → b ≠ prev → b ≠ next → h' b = h b := by
  obtain ⟨h₁, e₁, k₁, n₁, p₁, f₁⟩ := store_prev (F := F) hn x
  obtain ⟨h₂, e₂, k₂, n₂, p₂, f₂⟩ := store_next (F := F) (k₁.isSome hx) next
  have k₁₂ := k₁.trans k₂
  obtain ⟨h₃, e₃, k₃, n₃, p₃, f₃⟩ :=
    store_prev (F := F) (k₁₂.isSome hx) prev
  have k₁₃ := k₁₂.trans k₃
  obtain ⟨h₄, e₄, k₄, n₄, p₄, f₄⟩ := store_next (F := F) (k₁₃.isSome hp) x
  refine ⟨h₄, ?_, k₁₃.trans k₄, fun b => ?_, fun b => ?_,
    fun b hbx hbp hbn => ?_⟩
  · simp only [linkBetween, e₁, e₂, e₃, e₄, bind, Option.bind_some]
  · rw [n₄, n₃, n₂, n₁]
  · rw [p₄, p₃, p₂, p₁]
  · rw [f₄ b hbp, f₃ b hbx, f₂ b hbx, f₁ b hbn]

/-- The links after `spliceBetween`. -/
theorem spliceBetween_spec {first last prev next : A} (hf : (h first).isSome)
    (hl : (h last).isSome) (hp : (h prev).isSome)
    (hn : (h next).isSome) :
    ∃ h', spliceBetween F h first last prev next = some h' ∧ Kept F h h'
      ∧ (∀ b, (h' b).map F.next = if b = last then some next
          else if b = prev then some first else (h b).map F.next)
      ∧ (∀ b, (h' b).map F.prev = if b = next then some last
          else if b = first then some prev else (h b).map F.prev)
      ∧ ∀ b, b ≠ first → b ≠ last → b ≠ prev → b ≠ next → h' b = h b := by
  obtain ⟨h₁, e₁, k₁, n₁, p₁, f₁⟩ := store_prev (F := F) hf prev
  obtain ⟨h₂, e₂, k₂, n₂, p₂, f₂⟩ :=
    store_next (F := F) (k₁.isSome hp) first
  have k₁₂ := k₁.trans k₂
  obtain ⟨h₃, e₃, k₃, n₃, p₃, f₃⟩ :=
    store_next (F := F) (k₁₂.isSome hl) next
  have k₁₃ := k₁₂.trans k₃
  obtain ⟨h₄, e₄, k₄, n₄, p₄, f₄⟩ :=
    store_prev (F := F) (k₁₃.isSome hn) last
  refine ⟨h₄, ?_, k₁₃.trans k₄, fun b => ?_, fun b => ?_,
    fun b hbf hbl hbp hbn => ?_⟩
  · simp only [spliceBetween, e₁, e₂, e₃, e₄, bind, Option.bind_some]
  · rw [n₄, n₃, n₂, n₁]
  · rw [p₄, p₃, p₂, p₁]
  · rw [f₄ b hbn, f₃ b hbl, f₂ b hbp, f₁ b hbf]

/-- The links after `linkPast`. -/
theorem linkPast_spec {prev next : A} (hp : (h prev).isSome)
    (hn : (h next).isSome) :
    ∃ h', linkPast F h prev next = some h' ∧ Kept F h h'
      ∧ (∀ b, (h' b).map F.next
          = if b = prev then some next else (h b).map F.next)
      ∧ (∀ b, (h' b).map F.prev
          = if b = next then some prev else (h b).map F.prev)
      ∧ ∀ b, b ≠ prev → b ≠ next → h' b = h b := by
  obtain ⟨h₁, e₁, k₁, n₁, p₁, f₁⟩ := store_prev (F := F) hn prev
  obtain ⟨h₂, e₂, k₂, n₂, p₂, f₂⟩ := store_next (F := F) (k₁.isSome hp) next
  refine ⟨h₂, ?_, k₁.trans k₂, fun b => ?_, fun b => ?_,
    fun b hbp hbn => ?_⟩
  · simp only [linkPast, e₁, e₂, bind, Option.bind_some]
  · rw [n₂, n₁]
  · rw [p₂, p₁]
  · rw [f₂ b hbp, f₁ b hbn]

/-- The links after `linkHead`. -/
theorem linkHead_spec {first last : A} (hh : (h head).isSome)
    (hf : (h first).isSome) (hl : (h last).isSome) :
    ∃ h', linkHead F h head first last = some h' ∧ Kept F h h'
      ∧ (∀ b, (h' b).map F.next = if b = last then some head
          else if b = head then some first else (h b).map F.next)
      ∧ (∀ b, (h' b).map F.prev = if b = first then some head
          else if b = head then some last else (h b).map F.prev) := by
  obtain ⟨h₁, e₁, k₁, n₁, p₁, -⟩ := store_next (F := F) hh first
  obtain ⟨h₂, e₂, k₂, n₂, p₂, -⟩ := store_prev (F := F) (k₁.isSome hh) last
  have k₁₂ := k₁.trans k₂
  obtain ⟨h₃, e₃, k₃, n₃, p₃, -⟩ :=
    store_prev (F := F) (k₁₂.isSome hf) head
  have k₁₃ := k₁₂.trans k₃
  obtain ⟨h₄, e₄, k₄, n₄, p₄, -⟩ :=
    store_next (F := F) (k₁₃.isSome hl) head
  refine ⟨h₄, ?_, k₁₃.trans k₄, fun b => ?_, fun b => ?_⟩
  · simp only [linkHead, e₁, e₂, e₃, e₄, bind, Option.bind_some]
  · rw [n₄, n₃, n₂, n₁]
  · rw [p₄, p₃, p₂, p₁]

-- ========================================================= the ends of a ring

/-- The first node of a ring left out. -/
theorem Ring.unlink (hr : Ring F.next F.prev h head (x :: as)) :
    ∃ h', linkPast F h head (as.head?.getD head) = some h'
      ∧ Ring F.next F.prev h' head as ∧ Kept F h h'
      ∧ ∀ b, b ∉ head :: as → h' b = h b := by
  have hmem : as.head?.getD head ∈ head :: as := by
    cases as <;> simp
  have hsub : ∀ b ∈ head :: as, b ∈ head :: x :: as := fun b hb =>
    (List.mem_cons.mp hb).elim (fun hb => hb ▸ List.mem_cons_self ..)
      fun hb => List.mem_cons_of_mem _ (List.mem_cons_of_mem _ hb)
  obtain ⟨h', he, hk, hn, hp, hf⟩ := linkPast_spec (F := F)
    (hr.isSome (List.mem_cons_self ..)) (hr.isSome (hsub _ hmem))
  have hhead : head ∉ as := fun hin =>
    (List.nodup_cons.mp hr.nodup).1 (List.mem_cons_of_mem _ hin)
  refine ⟨h', he, hr.tail ?_ ?_ (fun b hb => ?_) (fun b _ hbn => ?_), hk,
    fun b hb => hf b ?_ ?_⟩
  · rw [hn, if_pos rfl]
  · rw [hp, if_pos rfl]
  · rw [hn, if_neg (by rintro rfl; exact hhead hb)]
  · rw [hp, if_neg hbn]
  · rintro rfl
    exact hb (List.mem_cons_self ..)
  · rintro rfl
    exact hb hmem

/-- The nodes of a ring under another head. -/
theorem Ring.linkHead {y z : A} (hr : Ring F.next F.prev h head as)
    (hy : as.head? = some y) (hz : as.getLast? = some z)
    (hx : (h x).isSome) (hoff : x ∉ as) :
    ∃ h', linkHead F h x y z = some h'
      ∧ Ring F.next F.prev h' x as ∧ Kept F h h' := by
  have hyas : y ∈ as := List.mem_of_head? hy
  have hzas : z ∈ as := List.mem_of_getLast? hz
  obtain ⟨h', he, hk, hn, hp⟩ := linkHead_spec (F := F) hx
    (hr.isSome (List.mem_cons_of_mem _ hyas))
    (hr.isSome (List.mem_cons_of_mem _ hzas))
  have hne : ∀ b ∈ as, b ≠ x := fun b hb hbx => hoff (hbx ▸ hb)
  refine ⟨h', he, hr.rehead (List.ne_nil_of_mem hyas) hoff ?_ ?_
    (fun b hb => ?_) (fun b hb => ?_) (fun b hb hbl => ?_)
    (fun b hb hbf => ?_), hk⟩
  · rw [hn, if_neg (hne z hzas).symm, if_pos rfl, hy]
  · rw [hp, if_neg (hne y hyas).symm, if_pos rfl, hz]
  · rw [hp, if_pos (Option.some.inj (hb.symm.trans hy))]
  · rw [hn, if_pos (Option.some.inj (hb.symm.trans hz))]
  · rw [hn, if_neg (by rintro rfl; exact hbl hz), if_neg (hne b hb)]
  · rw [hp, if_neg (by rintro rfl; exact hbf hy), if_neg (hne b hb)]

/-- A node linked in at the end. -/
theorem Ring.link (hr : Ring F.next F.prev h head as)
    (hx : (h x).isSome) (hoff : x ∉ head :: as) :
    ∃ h', linkBetween F h x (as.getLast?.getD head) head = some h'
      ∧ Ring F.next F.prev h' head (as ++ [x]) ∧ Kept F h h'
      ∧ ∀ b, b ∉ x :: head :: as → h' b = h b := by
  obtain ⟨hmem, hlive⟩ := hr.last_mem
  obtain ⟨h', he, hk, hn, hp, hf⟩ := linkBetween_spec (F := F) hx hlive
    (hr.isSome (List.mem_cons_self ..))
  have hne : ∀ a ∈ head :: as, a ≠ x := fun a ha hax => hoff (hax ▸ ha)
  refine ⟨h', he, hr.snoc hoff ?_ ?_ ?_ ?_ (fun a ha hal => ?_)
    (fun a ha => ?_), hk, fun b hb => ?_⟩
  · rw [hn, if_neg (hne _ hmem).symm, if_pos rfl]
  · rw [hp, if_pos rfl]
  · rw [hn, if_pos rfl]
  · rw [hp, if_neg (hne head (List.mem_cons_self ..)), if_pos rfl]
  · rw [hn, if_neg hal, if_neg (hne a ha)]
  · rw [hp, if_neg (hne a (List.mem_cons_of_mem _ ha)), if_neg ?_]
    intro heq
    subst heq
    exact (List.nodup_cons.mp hr.nodup).1 ha
  · simp only [List.mem_cons, not_or] at hb
    refine hf b hb.1 (fun hlast => ?_) hb.2.1
    rw [hlast] at hb
    exact (List.mem_cons.mp hmem).elim hb.2.1 hb.2.2

/-- The nodes of another ring spliced in at the end. -/
theorem Ring.spliced {body y z : A} (ha : Ring F.next F.prev h head as)
    (hb : Ring F.next F.prev h body bs) (hy : bs.head? = some y)
    (hz : bs.getLast? = some z) (hoff : ∀ a ∈ head :: as, a ∉ bs) :
    ∃ h', spliceBetween F h y z (as.getLast?.getD head) head = some h'
      ∧ Ring F.next F.prev h' head (as ++ bs) ∧ Kept F h h' := by
  obtain ⟨hmem, hlive⟩ := ha.last_mem
  have hyb : y ∈ bs := List.mem_of_head? hy
  have hzb : z ∈ bs := List.mem_of_getLast? hz
  obtain ⟨h', he, hk, hn, hp, -⟩ := spliceBetween_spec (F := F)
    (hb.isSome (List.mem_cons_of_mem _ hyb))
    (hb.isSome (List.mem_cons_of_mem _ hzb)) hlive
    (ha.isSome (List.mem_cons_self ..))
  have hhead : ∀ b ∈ bs, head ≠ b := by
    intro b hb' heq
    subst heq
    exact hoff head (List.mem_cons_self ..) hb'
  have hlast : ∀ b ∈ bs, as.getLast?.getD head ≠ b := by
    intro b hb' heq
    exact hoff _ hmem (heq ▸ hb')
  have hheadas : head ∉ as := (List.nodup_cons.mp ha.nodup).1
  refine ⟨h', he, ha.splice hb hy hz hoff ?_ ?_ ?_ ?_
    (fun a _ hal haz => ?_) (fun a ha' hay => ?_), hk⟩
  · rw [hp, if_neg (hhead y hyb).symm, if_pos rfl]
  · rw [hn, if_neg (hlast z hzb), if_pos rfl]
  · rw [hn, if_pos rfl]
  · rw [hp, if_pos rfl]
  · rw [hn, if_neg haz, if_neg hal]
  · rw [hp, if_neg ?_, if_neg hay]
    intro heq
    subst heq
    rcases List.mem_append.mp ha' with hin | hin
    · exact hheadas hin
    · exact hhead a hin rfl

end Linked
