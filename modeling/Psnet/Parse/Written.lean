/-
Requests that are written as flat objects.

`zipParse_flat` parses them, and `Argument` is what a handler then finds
under a key. A handler cuts the buffer off behind the value it reads
(`Holds.cut`); that changes no other value and hides no key
(`Argument.cut`).
-/
import Psnet.Jsmn.Flat
import Psnet.Parse.Message

namespace Psnet.Parse

open Net Jsmn Forest

variable {msg after key : List UInt8} {ms : Members} {v w : Piece}
  {l l' : Lab} {kids rest : Forest Lab} {a : Lab} {num : Nat}

/-- The members of a flat object at the start of the buffer. -/
def flatKids (ms : Members) : Forest Lab := labels 1 (flat [] ms)

private theorem text_object (ms : Members) (after : List UInt8) :
    text (tree ⟨[], .object []⟩ (flat [] ms)) ++ after
      = flatText ms ++ after := by
  simp [tree, text, Piece.write, flatText]

/-- The parse of a flat object, where there is room for it. -/
theorem zipParse_flat (hms : PlainMembers ms) (hafter : Layout after)
    (hmsg : cstr msg = flatText ms ++ after)
    (hroom : 1 + 2 * ms.length ≤ num) :
    zipParse msg num
      = .ok (tree ⟨.object, 0, (flatText ms).length⟩ (flatKids ms)) := by
  have hleg : Legible true (tree ⟨[], .object []⟩ (flat [] ms)) :=
    ⟨by decide, Or.inl rfl, layout_nil,
      legible_flat (by decide) (Or.inl rfl) hms, trivial⟩
  have hz : zipParse msg num = .ok _ := zipParse_text hleg hafter
    (hmsg.trans (text_object ms after).symm)
    (by simp only [tree, count_node, count_nil, count_flat]; omega)
  rw [hz]
  simp [tree, labels, Piece.lab, flatText, flatKids]

/-- What a buffer that holds a flat object begins with. -/
private theorem flat_prefix (hmsg : cstr msg = flatText ms ++ after) :
    ∃ r, msg.drop 1 = text (flat [] ms) ++ (RBRACE :: (after ++ r)) := by
  obtain ⟨r, hr⟩ := List.takeWhile_prefix (l := msg) (p := (· ≠ 0))
  refine ⟨r, ?_⟩
  rw [← cstr, hmsg] at hr
  rw [← hr]
  simp [flatText]

-- =================================================================== arguments

/-- Under `key` the object with members `kids` has the plain value
`v`. -/
def Argument (msg : List UInt8) (kids : Forest Lab) (key : List UInt8)
    (v : Piece) : Prop :=
  ∃ p, findPair msg key kids = some p ∧ Holds msg p.val v

/-- Keys that can stand in no layout. -/
def KeyText (key : List UInt8) : Prop :=
  ∀ c ∈ key, c ≠ QUOTE ∧ c ≠ 0 ∧ endsPrimitive c = false

instance (key : List UInt8) : Decidable (KeyText key) :=
  decidableChars key _

theorem KeyText.quote (h : KeyText key) : QUOTE ∉ key :=
  fun hq => (h _ hq).1 rfl

/-- The value of the first member whose key starts with `key`. -/
theorem argument_flat (hms : PlainMembers ms)
    (hmsg : cstr msg = flatText ms ++ after) (hkey : KeyText key)
    (hv : lookup key.isPrefixOf ms = some v) :
    Argument msg (flatKids ms) key v := by
  obtain ⟨r, hr⟩ := flat_prefix hmsg
  have hends : Ends (RBRACE :: (after ++ r)) := by
    intro c hc
    cases hc
    exact Or.inr (by decide)
  have hfind := findPair_flat hms (by decide) hends hr hkey.quote
  rw [hv] at hfind
  exact hfind

theorem no_argument_flat (hms : PlainMembers ms)
    (hmsg : cstr msg = flatText ms ++ after) (hkey : KeyText key)
    (hv : lookup key.isPrefixOf ms = none) :
    findPair msg key (flatKids ms) = none := by
  obtain ⟨r, hr⟩ := flat_prefix hmsg
  have hends : Ends (RBRACE :: (after ++ r)) := by
    intro c hc
    cases hc
    exact Or.inr (by decide)
  have hfind := findPair_flat hms (by decide) hends hr hkey.quote
  rw [hv] at hfind
  exact hfind

/-- The text of a value that is held. -/
theorem valText_holds (h : Holds msg l v) : valText msg l = v.content := by
  obtain ⟨u, hu, -⟩ := h.text
  unfold valText
  rw [hu, show l.stop - l.start = v.content.length by rw [h.stop]; omega,
    List.take_left]
  exact cstr_eq_self h.plain.nul

/-- Cutting the buffer off where no character of the key stands hides no
key. -/
private theorem startsWith_set {q : Nat} (hq : byteAt msg q ∉ key)
    (h0 : 0 ∉ key)
    (i : Nat) : startsWith (msg.set q 0) i key = startsWith msg i key := by
  induction key generalizing i with
  | nil => rfl
  | cons k key ih =>
      rw [List.mem_cons, not_or] at hq h0
      rw [startsWith, startsWith, ih hq.2 h0.2]
      by_cases hi : i = q
      · subst hi
        have hset : byteAt (msg.set i 0) i = 0 := by
          by_cases hlt : i < msg.length <;> simp [byteAt, hlt]
        rw [hset, beq_false_of_ne h0.1, beq_false_of_ne hq.1]
      · have hset : byteAt (msg.set q 0) i = byteAt msg i := by
          simp [byteAt, List.getElem?_set_ne (Ne.symm hi)]
        rw [hset]

/-- Where a value ends, a word among the other values is not cut. -/
private theorem holds_aside {w : List UInt8} {p q : Pair} {lo hi : Nat}
    (hs : LabSpans lo kids hi) (hp : p ∈ pairs kids 1)
    (hq : q ∈ pairs kids 1) (h : Holds msg p.val v)
    (h' : Holds msg q.val (.word w)) :
    p.val.stop < q.val.start ∨ q.val.stop ≤ p.val.stop := by
  by_cases hpq : p = q
  · exact Or.inr (by rw [hpq])
  · have hne := h.stop_ne h'
    rcases pairs_apart hs hp hq hpq with hle | hle
    · exact Or.inl (by omega)
    · exact Or.inr (Nat.le_trans hle h.le)

/-- Of two arguments the buffer is cut off behind one and then behind the
other: the second is still found, and the first can still be read. -/
theorem Argument.cut {key' n w : List UInt8} {lo hi : Nat}
    (hs : LabSpans lo kids hi) (h : Argument msg kids key (.word n))
    (h' : Argument msg kids key' (.word w)) (hkey : KeyText key') :
    ∃ p q, findPair msg key kids = some p
      ∧ findPair (msg.set p.val.stop 0) key' kids = some q
      ∧ cstr (((msg.set p.val.stop 0).set q.val.stop 0).drop q.val.start) = w
      ∧ cstr (((msg.set p.val.stop 0).set q.val.stop 0).drop p.val.start)
        = n := by
  obtain ⟨p, hp, hpn⟩ := h
  obtain ⟨q, hq, hqw⟩ := h'
  have hpm := (findPair_mem hp).1
  have hqm := (findPair_mem hq).1
  have hkept : findPair (msg.set p.val.stop 0) key' kids
      = findPair msg key' kids := by
    refine findPair_congr hs fun j _ => startsWith_set ?_ ?_ j
    · intro hmem
      obtain ⟨h₁, h₂, h₃⟩ := hkey _ hmem
      rcases hpn.next with hb | hb | hb
      · exact h₁ hb
      · exact h₂ hb
      · rw [h₃] at hb
        cases hb
    · exact fun h0 => (hkey 0 h0).2.1 rfl
  refine ⟨p, q, hp, hkept.trans hq,
    (hqw.set (holds_aside hs hpm hqm hpn hqw)).cut, ?_⟩
  have hcut := (hpn.set (holds_aside hs hqm hpm hqw hpn)).cut
  by_cases hpq : p.val.stop = q.val.stop
  · rw [← hpq] at hcut ⊢
    exact hcut
  · rwa [List.set_comm _ _ hpq]

-- ===================================================================== methods

private theorem startsWith_of_drop {js w u : List UInt8} {i : Nat}
    (h : js.drop i = w ++ u) (hlen : w.length = key.length) :
    startsWith js i key = decide (w = key) := by
  induction key generalizing i w with
  | nil =>
      rw [List.length_eq_zero_iff.mp hlen]
      rfl
  | cons k key ih =>
      obtain ⟨c, w, rfl⟩ := List.exists_cons_of_length_eq_add_one hlen
      obtain ⟨hc, hrest⟩ := byteAt_drop_cons h
      rw [startsWith, hc, ih hrest (by simpa using hlen)]
      by_cases hck : c = k <;> simp [hck]

/-- A value is compared by its text. -/
private theorem valEq_holds (h : Holds msg l v) (str : Text) :
    valEq msg l str = decide (v.content = str) := by
  obtain ⟨u, hu, -⟩ := h.text
  have hlen : ((l.stop : Int) - l.start = str.length)
      ↔ v.content.length = str.length := by
    rw [h.stop]
    omega
  unfold valEq
  by_cases heq : v.content.length = str.length
  · rw [decide_eq_true (hlen.mpr heq), Bool.true_and,
      startsWith_of_drop hu heq]
  · rw [decide_eq_false (mt hlen.mp heq), Bool.false_and, eq_comm,
      decide_eq_false_iff_not]
    intro heq
    subst heq
    exact heq rfl

/-- The command of that name. -/
def named {μ : Type} (w : Text) (cmds : List (String × μ)) : Option μ :=
  (cmds.find? fun c => decide (w = ascii c.1)).map Prod.snd

/-- The request a flat object makes. -/
theorem request_flat {μ : Type} (cmds : List (String × μ))
    (hms : PlainMembers ms) (hafter : Layout after)
    (hmsg : cstr msg = flatText ms ++ after)
    (hroom : 1 + 2 * ms.length ≤ num)
    (hm : lookup (ascii "method").isPrefixOf ms = some v) :
    request cmds msg num = (named v.content cmds).map fun m =>
      ⟨m, ⟨.object, 0, (flatText ms).length⟩, flatKids ms, .nil⟩ := by
  obtain ⟨p, hp, hv⟩ := argument_flat hms hmsg (by decide) hm
  have hz := zipParse_flat hms hafter hmsg hroom
  simp only [request_eq hz rfl hp, command, named, valEq_holds hv]

end Psnet.Parse
