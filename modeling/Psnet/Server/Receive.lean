/-
How the two servers fill a message (common/server.c).

Both start from a `msg_info` fresh from `malloc`, whose contents are
arbitrary. The UDP server fills all three fields; the TCP server leaves
`len` as it is, and `msg` to `tcp_read_msg`.
-/
import Psnet.Client.Model
import Psnet.Jsmn.Stable
import Psnet.Net.Response

namespace Psnet.Server

open Net Jsmn Client

/-- The bytes `recvfrom` stores: the rest of a datagram is dropped. -/
def recvBytes (d : List UInt8) : List UInt8 := d.take (MSG_MAX - 1)

/-- The address `recvfrom` stores in `sizeof(struct sockaddr_in)` bytes,
which is no more than either kind has: of the bytes at offset 8 the first
eight are written. -/
def recvAddr (old sender : Sockaddr) : Sockaddr :=
  { sender with
    sin6Addr := Vector.ofFn fun i : Fin 16 =>
      if i.val < 8 then sender.sin6Addr[i] else old.sin6Addr[i] }

@[simp] theorem recvAddr_ssFamily (old sender : Sockaddr) :
    (recvAddr old sender).ssFamily = sender.ssFamily := by
  rw [recvAddr]

@[simp] theorem recvAddr_sinAddr (old sender : Sockaddr) :
    (recvAddr old sender).sinAddr = sender.sinAddr := by
  rw [recvAddr]

/-- `udp_server_main`: the message a datagram becomes in the memory of
`old`. -/
def udpReceive (old : MsgInfo) (sender : Sockaddr) (d : List UInt8) :
    MsgInfo where
  len := (recvBytes d).length
  addr := recvAddr old.addr sender
  msg := store old.msg (recvBytes d)

/-- `tcp_server_main`: the message of a new connection. -/
def tcpAccept (old : MsgInfo) (peer : Sockaddr) : MsgInfo where
  len := old.len
  addr := peer
  msg := old.msg

-- ================================================================ the buffer

variable {buf m : List UInt8}

theorem store_of_lt (h : m.length < buf.length) :
    store buf m = m ++ 0 :: buf.drop (m.length + 1) := if_pos h

/-- The bytes stored are a full buffer or end in a NUL. -/
private theorem store_cases (buf m : List UInt8) :
    (∃ r, store buf m = m ++ 0 :: r) ∨ store buf m = m := by
  unfold store
  split
  · exact Or.inl ⟨_, rfl⟩
  · exact Or.inr rfl

theorem take_store (buf m : List UInt8) :
    (store buf m).take m.length = m := by
  rcases store_cases buf m with ⟨r, hr⟩ | hr
  · rw [hr, List.take_left]
  · rw [hr, List.take_length]

theorem cstr_store (buf m : List UInt8) :
    cstr (store buf m) = cstr m := by
  rcases store_cases buf m with ⟨r, hr⟩ | hr
  · rw [hr, cstr_append_nul]
  · rw [hr]

theorem byteAt_store {i : Nat}
    (hi : i < m.length) : byteAt (store buf m) i = byteAt m i := by
  rcases store_cases buf m with ⟨r, hr⟩ | hr
  · rw [hr, byteAt_append _ hi]
  · rw [hr]

/-- Writing inside the bytes stored. -/
theorem set_store {i : Nat} (hi : i < m.length) (c : UInt8) :
    (store buf m).set i c = store buf (m.set i c) := by
  unfold store
  rw [List.length_set]
  split
  · rw [List.set_append_left _ _ hi]
  · rfl

theorem recvBytes_length (d : List UInt8) :
    (recvBytes d).length ≤ MSG_MAX - 1 := List.length_take_le ..

theorem recvBytes_of_lt {d : List UInt8} (h : d.length < MSG_MAX) :
    recvBytes d = d := List.take_of_length_le (Nat.le_pred_of_lt h)

-- ========================================================== reading a message

private theorem readLoop_le {room pos n : Nat} {s : List UInt8}
    (h : readLoop room pos s = some n) : n ≤ room ∧ n ≤ s.length := by
  induction room generalizing pos n s with
  | zero =>
      cases h
      simp
  | succ room ih =>
      rw [readLoop.eq_def] at h
      simp only at h
      split at h
      · cases h
        simp
      · cases s with
        | nil => cases h
        | cons c s =>
            obtain ⟨k, hk, rfl⟩ := Option.map_eq_some_iff.mp h
            obtain ⟨h₁, h₂⟩ := ih hk
            exact ⟨Nat.succ_le_succ h₁, Nat.succ_le_succ h₂⟩

/-- A message read over TCP is stored at the start of the buffer. -/
theorem tcpReadMsg_pos {s rest buf' : List UInt8} {n : Nat}
    (h : tcpReadMsg s buf = (n, buf', rest)) (hn : 0 < n) :
    (s.take n).length = n ∧ n ≤ buf.length
      ∧ buf' = store buf (s.take n) := by
  unfold tcpReadMsg at h
  split at h
  · cases h
    exact absurd hn (Nat.lt_irrefl 0)
  · next k hk =>
    cases h
    obtain ⟨h₁, h₂⟩ := readLoop_le hk
    exact ⟨List.length_take_of_le h₂, h₁, rfl⟩

end Psnet.Server
