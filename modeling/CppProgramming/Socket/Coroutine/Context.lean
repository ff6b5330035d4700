import CppProgramming.Socket.Coroutine.Connection

/-!
# What a swap keeps

`handle`, and the swap with which the coroutine waits, move the control and the notes about
waiting.  The coroutine's own data, where it is, its buffer and whether it has exited, are
the coroutine's to change (`Same`).  At the end of each section the steps are taken apart by
their labels.
-/

namespace CppProgramming.Socket.Coroutine

/-- The coroutine is where it was, with the same data. -/
structure Frame.Same (f g : Frame) : Prop where
  buffer : g.buffer = f.buffer
  exited : g.exited = f.exited
  ctxFnew : g.ctxFnew = f.ctxFnew

theorem Frame.Same.refl (f : Frame) : f.Same f := ⟨rfl, rfl, rfl⟩

theorem Frame.Same.unsent {f g : Frame} (h : f.Same g) : g.unsent = f.unsent := by
  rw [Frame.unsent, Frame.unsent, h.ctxFnew, h.buffer]

namespace Waiting

variable (s : Waiting) (ev : BitVec 32)

theorem same_handleIn : s.toFrame.Same (s.handleIn ev).toFrame := by
  rw [handleIn]
  split
  · split <;> exact ⟨rfl, rfl, rfl⟩
  · exact ⟨rfl, rfl, rfl⟩

theorem same_handle : s.toFrame.Same (s.handle ev).toFrame := by
  rw [handle]
  split
  · exact ⟨rfl, rfl, rfl⟩
  · split
    · split
      · exact ⟨rfl, rfl, rfl⟩
      · exact s.same_handleIn ev
    · exact s.same_handleIn ev

theorem same_suspend : s.toFrame.Same s.suspend.toFrame := by
  rw [suspend]
  split
  · exact ⟨rfl, rfl, rfl⟩
  · split
    · exact ⟨rfl, rfl, rfl⟩
    · exact s.same_handleIn _
  · exact ⟨rfl, rfl, rfl⟩

/-- What the end of `run` leaves. -/
theorem exit_spec : s.exit.buffer = s.buffer ∧ s.exit.ctxFnew = .done ∧ s.exit.exited = true := by
  have h := same_suspend { s with toFrame := { s.goto .done with exited := true } }
  exact ⟨h.buffer, h.ctxFnew, h.exited⟩

/-! What a step is, by its label. -/

variable {s t : Waiting}

theorem next_handle {ev : BitVec 32} (h : s.next (.handle ev) = some t) :
    (∃ ret, s.control = .main ret) ∧ t = s.handle ev := by
  rw [next] at h
  split at h
  · rename_i ret hcontrol
    split at h
    · exact absurd h (by simp)
    · exact ⟨⟨ret, hcontrol⟩, (Option.some.inj h).symm⟩
  · exact absurd h (by simp)

theorem next_recv {answer : RecvResult bufSize} (h : s.next (.recv answer) = some t) :
    s.control = .coroutine ∧ s.ctxFnew = .recv ∧ t = s.recvAnswer answer := by
  rw [next] at h
  split at h
  · rename_i hcontrol hpoint
    exact ⟨hcontrol, hpoint, (Option.some.inj h).symm⟩
  · exact absurd h (by simp)

theorem next_send {answer : (n : ℕ) → SendResult n} (h : s.next (.send answer) = some t) :
    s.control = .coroutine ∧ ∃ size haveSent lt ret, s.ctxFnew = .send size haveSent lt ret ∧
      t = s.sendAnswer size haveSent ret (answer (size - haveSent)) := by
  rw [next] at h
  split at h
  · rename_i size haveSent lt ret hcontrol hpoint
    exact ⟨hcontrol, size, haveSent, lt, ret, hpoint, (Option.some.inj h).symm⟩
  · exact absurd h (by simp)

end Waiting

namespace Semaphores

variable (s : Semaphores) (ev : BitVec 32)

theorem same_handleIn : s.toFrame.Same (s.handleIn ev).toFrame := by
  rw [handleIn]
  split
  · split <;> exact ⟨rfl, rfl, rfl⟩
  · exact ⟨rfl, rfl, rfl⟩

theorem same_handle : s.toFrame.Same (s.handle ev).toFrame := by
  rw [handle]
  split
  · exact ⟨rfl, rfl, rfl⟩
  · split
    · split
      · exact ⟨rfl, rfl, rfl⟩
      · exact s.same_handleIn ev
    · exact s.same_handleIn ev

theorem same_suspend : s.toFrame.Same s.suspend.toFrame := by
  rw [suspend]
  split
  · exact ⟨rfl, rfl, rfl⟩
  · split
    · exact ⟨rfl, rfl, rfl⟩
    · exact s.same_handleIn _
  · exact ⟨rfl, rfl, rfl⟩

/-- What the end of `run` leaves. -/
theorem exit_spec : s.exit.buffer = s.buffer ∧ s.exit.ctxFnew = .done ∧ s.exit.exited = true := by
  have h := same_suspend { s with toFrame := { s.goto .done with exited := true } }
  exact ⟨h.buffer, h.ctxFnew, h.exited⟩

/-! What a step is, by its label. -/

variable {s t : Semaphores}

theorem next_handle {ev : BitVec 32} (h : s.next (.handle ev) = some t) :
    (∃ ret, s.control = .main ret) ∧ t = s.handle ev := by
  rw [next] at h
  split at h
  · rename_i ret hcontrol
    split at h
    · exact absurd h (by simp)
    · exact ⟨⟨ret, hcontrol⟩, (Option.some.inj h).symm⟩
  · exact absurd h (by simp)

theorem next_recv {answer : RecvResult bufSize} (h : s.next (.recv answer) = some t) :
    s.control = .coroutine ∧ s.ctxFnew = .recv ∧ t = s.recvAnswer answer := by
  rw [next] at h
  split at h
  · rename_i hcontrol hpoint
    exact ⟨hcontrol, hpoint, (Option.some.inj h).symm⟩
  · exact absurd h (by simp)

theorem next_send {answer : (n : ℕ) → SendResult n} (h : s.next (.send answer) = some t) :
    s.control = .coroutine ∧ ∃ size haveSent lt ret, s.ctxFnew = .send size haveSent lt ret ∧
      t = s.sendAnswer size haveSent ret (answer (size - haveSent)) := by
  rw [next] at h
  split at h
  · rename_i size haveSent lt ret hcontrol hpoint
    exact ⟨hcontrol, size, haveSent, lt, ret, hpoint, (Option.some.inj h).symm⟩
  · exact absurd h (by simp)

end Semaphores

end CppProgramming.Socket.Coroutine
