/-
The router's handlers keep what a TCP connection needs, and answer from
what they are to read (`service_lawful`).

A broadcast changes one character of the buffer; the other requests change
nothing of what `handle_connection` keeps between requests.
-/
import Psnet.Router.Broadcast
import Psnet.Router.Flood
import Psnet.Server.Connection

namespace Psnet.Router

open Net Jsmn Parse Forest DeltaList Client Server

variable {inet : Inet} {st st' : RouterState}

-- =========================================================== what they keep

theorem processBroadcast_keeps {mi mi' : MsgInfo} {tok : List JsmnTok}
    {sent : Option (List UdpSend)}
    (h : processBroadcast st mi tok = some (st', mi', sent)) :
    Keeps mi mi' := by
  unfold processBroadcast at h
  obtain ⟨⟨rc, is⟩, -, h⟩ := Option.bind_eq_some_iff.mp h
  dsimp only at h
  split at h
  · cases h
    exact .refl mi
  · obtain ⟨hops, -, h⟩ := Option.bind_eq_some_iff.mp h
    obtain ⟨id, -, h⟩ := Option.bind_eq_some_iff.mp h
    obtain ⟨v, -, h⟩ := Option.bind_eq_some_iff.mp h
    split at h
    · cases h
      exact .refl mi
    · obtain ⟨msg, hmsg, h⟩ := Option.bind_eq_some_iff.mp h
      obtain ⟨msgid, -, h⟩ := Option.bind_eq_some_iff.mp h
      obtain ⟨⟨cached, cache⟩, -, h⟩ := Option.bind_eq_some_iff.mp h
      have hlen := setChar_length hmsg
      split at h
      · cases h
        exact ⟨rfl, .refl _, hlen⟩
      · obtain ⟨sent, -, h⟩ := Option.bind_eq_some_iff.mp h
        cases h
        exact ⟨rfl, .refl _, hlen⟩

theorem process_keeps {mi mi' : MsgInfo} {tok : List JsmnTok} {m : Method}
    {wire : Text} {sent : Option (List UdpSend)}
    (h : process inet st mi tok m = some (st', mi', wire, sent)) :
    Keeps mi mi' := by
  cases m with
  | broadcast =>
      simp only [process, bind, Option.bind_eq_some_iff] at h
      obtain ⟨⟨st₁, mi₁, sent₁⟩, hb, h⟩ := h
      cases h
      exact processBroadcast_keeps hb
  | discover =>
      simp only [process, bind, Option.bind_eq_some_iff] at h
      obtain ⟨wire₁, -, h⟩ := h
      cases h
      exact .refl mi
  | ip | info | ping =>
      cases h
      exact .refl mi

-- ========================================================= what they answer

/-- Whether a broadcast is handled does not depend on what lies behind
its text. -/
private theorem processBroadcast_reads {mi mi' : MsgInfo} {a : Lab}
    {kids : Forest Lab} (r r' : List JsmnTok) (h : ReadsAlike kids mi mi') :
    (processBroadcast st mi (tokens (tree a kids) ++ r)).isSome
      = (processBroadcast st mi' (tokens (tree a kids) ++ r')).isSome := by
  obtain ⟨lo, hi, hs, hhi⟩ := h.spans
  rw [processBroadcast_spec h.written.1 hs,
    processBroadcast_spec h.written.2 hs, ← eligible_congr h.text hs hhi]
  cases eligible mi.msg kids with
  | none => rfl
  | some e =>
      simp only [passOn, bind]
      cases cacheMsg st.msgCache e.2 with
      | none => rfl
      | some q =>
          simp only [Option.bind_some]
          split
          · rfl
          · have hrel := floodMessage_host st.routers st.clientTable
              { mi with msg := bump mi.msg e.1 }
              { mi' with msg := bump mi'.msg e.1 } h.host
            revert hrel
            generalize floodMessage _ _ { mi with msg := _ } = x
            generalize floodMessage _ _ { mi' with msg := _ } = y
            intro hrel
            cases hrel <;> rfl

theorem processDiscover_reads {mi mi' : MsgInfo} {a : Lab}
    {kids : Forest Lab} (r r' : List JsmnTok) (h : ReadsAlike kids mi mi') :
    processDiscover inet st mi (tokens (tree a kids) ++ r)
      = processDiscover inet st mi' (tokens (tree a kids) ++ r') := by
  obtain ⟨lo, hi, hs, hhi⟩ := h.spans
  have hagree := AgreeTo.of_cstr h.text
  rcases jsmnGetValue_agree hagree hs hhi h.written.1 (ascii "num")
      (a := a) (by decide) r r' with
    ⟨h₁, h₂⟩ | ⟨i, v, k, hi, hle, hv, h₁, h₂, h₃, h₄⟩
  · simp only [processDiscover, h₁, h₂, bind, Option.bind_some, ↓reduceIte]
  · have hstr : stringAt mi.msg (Lab.tok v k).start
        = stringAt mi'.msg (Lab.tok v k).start := by
      show stringAt _ (v.start : Int) = stringAt _ (v.start : Int)
      rw [stringAt_nat, stringAt_nat, hagree.drop (by omega)]
    simp only [processDiscover, h₁, h₂, bind, Option.bind_some, if_neg hi,
      h₃, h₄, hstr]

/-- The router's handlers are lawful. -/
theorem service_lawful (inet : Inet) : (service inet).Lawful where
  names := show ∀ cmd ∈ commands, ∀ b ∈ ascii cmd.1, b ≠ 0 by decide
  errors := show nodeError .noMethod ≠ nodeError .badMethod by decide
  keeps h := process_keeps h
  reads st mi mi' a kids r r' m h := by
    cases m with
    | broadcast =>
        have hb := @processBroadcast_reads st mi mi' a kids r r' h
        simp only [service, process, bind]
        revert hb
        cases processBroadcast st mi (tokens (tree a kids) ++ r) <;>
          cases processBroadcast st mi' (tokens (tree a kids) ++ r') <;>
          simp
    | ip =>
        obtain ⟨hf, h4, h6⟩ := h.host.fields
        simp only [service, process, Option.map_some, processIp, Inet.ntop,
          hf, h4, h6]
    | info | ping => rfl
    | discover =>
        simp only [service, process, processDiscover_reads r r' h, bind]
        cases processDiscover inet st mi' _ <;> rfl

end Psnet.Router
