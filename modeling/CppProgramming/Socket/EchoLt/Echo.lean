import CppProgramming.Socket.EchoLt.Connection

/-!
# The level-triggered echo connection echoes

The ring invariant `Inv` says that one position is free and that the bytes sent,
followed by the bytes in the ring, are the bytes received.  Delivering appends to
both sides and releasing moves bytes from the ring to the socket, so every call
of `handle` keeps it (`kept_inv`), and a run follows (`echo_in_order`).
-/

namespace CppProgramming.Socket.EchoLt

open CppProgramming.Lib RingBuffer

namespace State

/-- **The ring invariant.** -/
structure Inv (s : State) : Prop where
  ok : s.buf.Ok maxPktSize
  order : s.sent ++ s.buf.contents maxPktSize = s.received

theorem inv_fresh (mem : ℕ → UInt8) (added : Bool) : (fresh mem added).Inv where
  ok := by simp [fresh, Ok]
  order := by simp [fresh]

variable {k : Answers} {s : State}

theorem Inv.setEpollout (h : s.Inv) (flag : Bool) : (s.setEpollout k flag).Inv where
  ok := by rw [setEpollout_buf]; exact h.ok
  order := by simpa using h.order

theorem Inv.setEpollin (h : s.Inv) (flag : Bool) : (s.setEpollin k flag).Inv where
  ok := by rw [setEpollin_buf]; exact h.ok
  order := by simpa using h.order

/-- The free position is why no byte of the ring is overwritten. -/
theorem Inv.deliver (h : s.Inv) {data : List UInt8}
    (hn : data.length ≤ maxPktSize - 1 - s.buf.used) : (s.deliver k data).Inv := by
  have hok : s.buf.used ≤ maxPktSize - 1 := h.ok
  have hcontents := contents_recv pktSize h.ok data hn
  unfold State.deliver
  refine Inv.setEpollin ⟨?_, ?_⟩ _
  · exact ok_addExist pktSize (by rw [used_scatter]; omega)
  · rw [hcontents, ← List.append_assoc, h.order]

theorem Inv.release (h : s.Inv) {n : ℕ} (hn : n ≤ s.buf.used) : (s.release k n).Inv := by
  unfold State.release
  refine Inv.setEpollout ⟨?_, ?_⟩ _
  · exact ok_addBlank h.ok hn
  · rw [contents_addBlank pktSize hn, List.append_assoc, List.take_append_drop, h.order]

theorem kept_inv (k : Answers) : Kept k Inv where
  ok _ h := h.ok
  setEpollin _ flag h := h.setEpollin flag
  setEpollout _ flag h := h.setEpollout flag
  deliver _ _ hn h := h.deliver hn
  release _ _ hn h := h.release hn

end State

theorem run_inv {mem : ℕ → UInt8} {added : Bool} {calls : List Call} {s : State}
    (h : server.Run (State.fresh mem added) calls s) : s.Inv :=
  run_kept (fun c _ => State.kept_inv c.answers) h (State.inv_fresh mem added)

/-- **The connection echoes.**  After any run of calls that all returned `0`, the
bytes handed to the socket, followed by the bytes the ring holds, are the bytes
received, in order. -/
theorem echo_in_order {mem : ℕ → UInt8} {added : Bool} {calls : List Call} {s : State}
    (h : server.Run (State.fresh mem added) calls s) :
    s.sent ++ (ringIdx maxPktSize s.buf.f.toNat (s.buf.p - s.buf.f).toNat).map s.buf.buf =
      s.received :=
  (run_inv h).order

theorem echo_in_order_firstCall :
    afterFirstCall.sent ++
        (ringIdx maxPktSize afterFirstCall.buf.f.toNat
          (afterFirstCall.buf.p - afterFirstCall.buf.f).toNat).map afterFirstCall.buf.buf =
      afterFirstCall.received :=
  echo_in_order run_firstCall

end CppProgramming.Socket.EchoLt
