/-
The tracker's handlers keep what a TCP connection needs, and answer from
what they are to read (`service_lawful`).

A handler that cuts the buffer off behind an argument leaves it so, and
writes nothing else to the connection. Of the buffer it reads the C
strings at the tokens of the request, so two buffers with the same text
are answered alike.
-/
import Psnet.Server.Connection
import Psnet.Tracker.Service

namespace Psnet.Tracker

open Net Jsmn Parse Forest DeltaList Client Server

variable {inet : Inet} {clientTable clientTable' : Table Sockaddr}
  {mi mi' : MsgInfo} {tok : List JsmnTok} {wire : Text}

-- =========================================================== what they keep

private theorem processList_keeps
    (h : processList inet clientTable mi tok = some (mi', wire)) :
    Keeps mi mi' := by
  simp only [processList, bind, Option.bind_eq_some_iff] at h
  obtain ⟨num, -, h⟩ := h
  split at h
  · cases h
    exact .refl mi
  · simp only [Option.bind_eq_some_iff] at h
    obtain ⟨t, -, msg, hmsg, s, -, wire', -, h⟩ := h
    cases h
    exact ⟨rfl, .refl _, setChar_length hmsg⟩

theorem processDiscover_keeps
    (h : processDiscover inet clientTable mi tok = some (mi', wire)) :
    Keeps mi mi' := by
  unfold processDiscover at h
  obtain ⟨num, -, h⟩ := Option.bind_eq_some_iff.mp h
  dsimp only at h
  split at h
  · cases h
    exact .refl mi
  · obtain ⟨tnum, -, h⟩ := Option.bind_eq_some_iff.mp h
    obtain ⟨msg, hmsg, h⟩ := Option.bind_eq_some_iff.mp h
    obtain ⟨port, -, h⟩ := Option.bind_eq_some_iff.mp h
    have hlen := setChar_length hmsg
    split at h
    · cases h
      exact ⟨rfl, .refl _, hlen⟩
    · obtain ⟨tport, -, h⟩ := Option.bind_eq_some_iff.mp h
      obtain ⟨msg', hmsg', h⟩ := Option.bind_eq_some_iff.mp h
      obtain ⟨s, -, h⟩ := Option.bind_eq_some_iff.mp h
      have hlen' := (setChar_length hmsg').trans hlen
      split at h
      · cases h
        exact ⟨rfl, .refl _, hlen'⟩
      · obtain ⟨s', -, h⟩ := Option.bind_eq_some_iff.mp h
        obtain ⟨wire', -, h⟩ := Option.bind_eq_some_iff.mp h
        cases h
        exact ⟨rfl, sameHost_setInPort _ _, hlen'⟩

-- ========================================================= what they answer

/-- What is listed does not depend on what lies behind the text. -/
private theorem processList_reads {a : Lab} {kids : Forest Lab}
    (r r' : List JsmnTok) (h : ReadsAlike kids mi mi') :
    (processList inet clientTable mi (tokens (tree a kids) ++ r)).map
        Prod.snd
      = (processList inet clientTable mi'
          (tokens (tree a kids) ++ r')).map Prod.snd := by
  obtain ⟨lo, hi, hs, hhi⟩ := h.spans
  have hagree := AgreeTo.of_cstr h.text
  rcases jsmnGetValue_agree hagree hs hhi h.written.1 (ascii "num")
      (a := a) (by decide) r r' with
    ⟨h₁, h₂⟩ | ⟨i, v, k, hi, hle, hv, h₁, h₂, h₃, h₄⟩
  · simp only [processList, h₁, h₂, bind, Option.bind_some, ↓reduceIte]
    rfl
  · have hset := hagree.set v.stop
    simp only [processList, h₁, h₂, bind, Option.bind_some, if_neg hi, h₃,
      h₄, Lab.tok, setChar_nat, stringAt_nat,
      hset.drop (i := v.start) (by omega)]
    cases sendClients inet clientTable none _ <;> rfl

theorem processDiscover_reads {a : Lab} {kids : Forest Lab}
    (r r' : List JsmnTok) (h : ReadsAlike kids mi mi') :
    (processDiscover inet clientTable mi (tokens (tree a kids) ++ r)).map
        Prod.snd
      = (processDiscover inet clientTable mi'
          (tokens (tree a kids) ++ r')).map Prod.snd := by
  obtain ⟨lo, hi, hs, hhi⟩ := h.spans
  have hagree := AgreeTo.of_cstr h.text
  rcases jsmnGetValue_agree hagree hs hhi h.written.1 (ascii "num")
      (a := a) (by decide) r r' with
    ⟨h₁, h₂⟩ | ⟨i, v, k, hi₁, hle, hv, h₁, h₂, h₃, h₄⟩
  · simp only [processDiscover, h₁, h₂, bind, Option.bind_some, ↓reduceIte]
    rfl
  · -- the port is looked up in the text with `num` cut off
    have hset := hagree.set v.stop
    rcases jsmnGetValue_agree hset hs hhi h.written.1
        (ascii "port") (a := a) (by decide) r r' with
      ⟨g₁, g₂⟩ | ⟨j, w, l, hj, hle', hw, g₁, g₂, g₃, g₄⟩
    · simp only [processDiscover, h₁, h₂, bind, Option.bind_some,
        if_neg hi₁, h₃, h₄, Lab.tok, setChar_nat, g₁, g₂, ↓reduceIte]
      rfl
    · have hset' := hset.set w.stop
      simp only [processDiscover, h₁, h₂, bind, Option.bind_some,
        if_neg hi₁, h₃, h₄, Lab.tok, setChar_nat, g₁, g₂, if_neg hj, g₃,
        g₄, stringAt_nat, hset'.drop (i := w.start) (by omega),
        hset'.drop (i := v.start) (by omega)]
      cases discoverPort _ with
      | none => rfl
      | some iport =>
          simp only [h.host (htons iport)]
          cases sendClients inet clientTable _ _ <;> rfl

/-- The tracker's handlers are lawful. -/
theorem service_lawful (inet : Inet) : (service inet).Lawful where
  names := show ∀ cmd ∈ commands, ∀ b ∈ ascii cmd.1, b ≠ 0 by decide
  errors := show dirError .noMethod ≠ dirError .badMethod by decide
  keeps {st st' mi mi' tok m wire sent} h := by
    cases m with
    | list =>
        simp only [service, process, bind, Option.bind_eq_some_iff] at h
        obtain ⟨⟨mi₁, wire₁⟩, hl, h⟩ := h
        cases h
        exact processList_keeps hl
    | discover =>
        simp only [service, process, bind, Option.bind_eq_some_iff] at h
        obtain ⟨⟨mi₁, wire₁⟩, hd, h⟩ := h
        cases h
        exact processDiscover_keeps hd
    | info =>
        cases h
        exact .refl mi
  reads st mi mi' a kids r r' m h := by
    cases m with
    | list =>
        have hl := @processList_reads inet st mi mi' a kids r r' h
        simp only [service, process, bind]
        revert hl
        cases processList inet st mi (tokens (tree a kids) ++ r) <;>
          cases processList inet st mi' (tokens (tree a kids) ++ r') <;>
          simp
    | discover =>
        have hd := @processDiscover_reads inet st mi mi' a kids r r' h
        simp only [service, process, bind]
        revert hd
        cases processDiscover inet st mi (tokens (tree a kids) ++ r) <;>
          cases processDiscover inet st mi' (tokens (tree a kids) ++ r') <;>
          simp
    | info => rfl

end Psnet.Tracker
