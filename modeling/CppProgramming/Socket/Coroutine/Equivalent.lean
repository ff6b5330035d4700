import CppProgramming.Socket.Coroutine.Connection

/-!
# The two coroutine servers are the same server

`Waiting` clears its `wait_status` in the coroutine, behind the swap that resumed it;
`Semaphores` clears a semaphore in `post`, in front of that swap.  Between two system calls
this makes no difference: `Agree` relates two connections whose contexts are at the same
places, whose buffers agree on what is being sent, and one of which waits for what the
other waits for.  Each function of the one class keeps it with the same function of the
other, so that the two are bisimilar (`bisimulation`).
-/

namespace CppProgramming.Socket.Coroutine

open CppProgramming.Lib

/-- How much of the buffer is in use. -/
def Point.size : Point → ℕ
  | .recv => 0
  | .send size _ _ _ => size
  | .done => 0

/-- Two connections at the same place; the rest of the buffers does not matter. -/
structure Frame.Agree (s t : Frame) : Prop where
  buffer : s.buffer.take s.ctxFnew.size = t.buffer.take s.ctxFnew.size
  exited : s.exited = t.exited
  ctxMain : s.ctxMain = t.ctxMain
  ctxFnew : s.ctxFnew = t.ctxFnew
  control : s.control = t.control

namespace Frame.Agree

variable {s t : Frame}

theorem unsent (h : s.Agree t) : s.unsent = t.unsent := by
  have hbuffer := h.buffer
  rw [Frame.unsent, Frame.unsent, ← h.ctxFnew]
  cases hp : s.ctxFnew with
  | recv => rfl
  | done => rfl
  | send size haveSent lt ret =>
    rw [hp] at hbuffer
    show (s.buffer.drop haveSent).take (size - haveSent) =
      (t.buffer.drop haveSent).take (size - haveSent)
    rw [← List.drop_take, ← List.drop_take]
    exact congrArg (List.drop haveSent) hbuffer

theorem request (h : s.Agree t) : s.request = t.request := by
  rw [Frame.request, Frame.request, ← h.control, ← h.ctxFnew, h.unsent]

theorem giveBack (h : s.Agree t) (ret : ℤ) : (s.giveBack ret).Agree (t.giveBack ret) :=
  ⟨h.buffer, h.exited, h.ctxMain, h.ctxFnew, rfl⟩

theorem swapTo (h : s.Agree t) (caller : Caller) : (s.swapTo caller).Agree (t.swapTo caller) :=
  ⟨h.buffer, h.exited, rfl, h.ctxFnew, rfl⟩

/-- Going to a place that uses no more of the buffer than the two agree on. -/
theorem goto (h : s.Agree t) {p : Point} (hp : s.buffer.take p.size = t.buffer.take p.size) :
    (s.goto p).Agree (t.goto p) :=
  ⟨hp, h.exited, h.ctxMain, rfl, h.control⟩

end Frame.Agree

structure Agree (s : Waiting) (t : Semaphores) : Prop where
  frame : s.toFrame.Agree t.toFrame
  recv : s.waitStatus = .waitCouldRecv ↔ t.recvSem.waiting = true
  send : s.waitStatus = .waitCouldSend ↔ t.sendSem.waiting = true

namespace Agree

variable {s : Waiting} {t : Semaphores}

theorem giveBack (h : Agree s t) (ret : ℤ) :
    Agree { s with toFrame := s.giveBack ret } { t with toFrame := t.giveBack ret } :=
  ⟨h.frame.giveBack ret, h.recv, h.send⟩

theorem postRecv (h : Agree s t) (hwait : s.waitStatus = .waitCouldRecv) (caller : Caller) :
    Agree (s.resume caller) (t.postRecv caller) := by
  have hsend := h.send
  rw [hwait] at hsend
  exact ⟨h.frame.swapTo caller, by simp [Waiting.resume, Semaphores.postRecv,
    CoroutineSemaphore.idle], by simpa [Waiting.resume, Semaphores.postRecv] using hsend⟩

theorem postSend (h : Agree s t) (hwait : s.waitStatus = .waitCouldSend) (caller : Caller) :
    Agree (s.resume caller) (t.postSend caller) := by
  have hrecv := h.recv
  rw [hwait] at hrecv
  exact ⟨h.frame.swapTo caller, by simpa [Waiting.resume, Semaphores.postSend] using hrecv,
    by simp [Waiting.resume, Semaphores.postSend, CoroutineSemaphore.idle]⟩

theorem handleIn (h : Agree s t) (ev : BitVec 32) : Agree (s.handleIn ev) (t.handleIn ev) := by
  rw [Waiting.handleIn, Semaphores.handleIn]
  by_cases hev : Armed ev EPOLLIN
  · rw [if_pos hev, if_pos hev]
    by_cases hwait : s.waitStatus = .waitCouldRecv
    · rw [if_pos hwait, if_pos (h.recv.mp hwait)]
      exact h.postRecv hwait .handleIn
    · rw [if_neg hwait, if_neg (mt h.recv.mpr hwait)]
      exact h.giveBack 0
  · rw [if_neg hev, if_neg hev]
    exact h.giveBack 0

theorem handle (h : Agree s t) (ev : BitVec 32) : Agree (s.handle ev) (t.handle ev) := by
  rw [Waiting.handle, Semaphores.handle]
  by_cases hforeign : ev &&& ~~~(EPOLLIN ||| EPOLLOUT) ≠ 0
  · rw [if_pos hforeign, if_pos hforeign]
    exact h.giveBack (-1)
  · rw [if_neg hforeign, if_neg hforeign]
    by_cases hev : Armed ev EPOLLOUT
    · rw [if_pos hev, if_pos hev]
      by_cases hwait : s.waitStatus = .waitCouldSend
      · rw [if_pos hwait, if_pos (h.send.mp hwait)]
        exact h.postSend hwait (.handleOut ev)
      · rw [if_neg hwait, if_neg (mt h.send.mpr hwait)]
        exact h.handleIn ev
    · rw [if_neg hev, if_neg hev]
      exact h.handleIn ev

theorem suspend (h : Agree s t) : Agree s.suspend t.suspend := by
  rw [Waiting.suspend, Semaphores.suspend, ← h.frame.ctxMain, ← h.frame.exited]
  cases s.ctxMain with
  | start => exact h.giveBack 0
  | handleOut ev =>
    by_cases hexited : s.exited = true
    · simp only [hexited, if_true]
      exact h.giveBack (-1)
    · simp only [hexited]
      exact h.handleIn ev
  | handleIn => exact h.giveBack _

theorem exit (h : Agree s t) : Agree s.exit t.exit :=
  suspend ⟨⟨rfl, rfl, h.frame.ctxMain, rfl, h.frame.control⟩, h.recv, h.send⟩

/-- The loop of `await_send`, while the two agree on what it sends. -/
theorem awaitSend (h : Agree s t) {size : ℕ} (hbuffer : s.buffer.take size = t.buffer.take size)
    (haveSent : ℕ) (ret : ℤ) :
    Agree (s.awaitSend size haveSent ret) (t.awaitSend size haveSent ret) := by
  rw [Waiting.awaitSend, Semaphores.awaitSend]
  by_cases hlt : haveSent < size
  · rw [dif_pos hlt, dif_pos hlt]
    exact ⟨h.frame.goto hbuffer, h.recv, h.send⟩
  · rw [dif_neg hlt, dif_neg hlt]
    by_cases hret : ret < 0
    · rw [if_pos hret, if_pos hret]
      exact h.exit
    · rw [if_neg hret, if_neg hret]
      exact ⟨h.frame.goto rfl, h.recv, h.send⟩

theorem recvAnswer (h : Agree s t) (hpoint : s.ctxFnew = .recv) (hrun : s.waitStatus = .running)
    (r : RecvResult bufSize) : Agree (s.recvAnswer r) (t.recvAnswer r) := by
  have hsend := h.send
  rw [hrun] at hsend
  cases r with
  | bytes data pos le =>
    have hfill : (s.fill data).buffer.take data.length = (t.fill data).buffer.take data.length := by
      simp [Frame.fill]
    have hframe : (s.fill data).Agree (t.fill data) := by
      refine ⟨?_, h.frame.exited, h.frame.ctxMain, h.frame.ctxFnew, h.frame.control⟩
      show (s.fill data).buffer.take s.ctxFnew.size = (t.fill data).buffer.take s.ctxFnew.size
      rw [hpoint]
      rfl
    exact awaitSend (s := { s with toFrame := s.fill data })
      (t := { t with toFrame := t.fill data }) ⟨hframe, h.recv, h.send⟩ hfill 0 0
  | eof => exact h.exit
  | again => exact suspend ⟨h.frame, by simp [CoroutineSemaphore.taken], by simpa using hsend⟩
  | error => exact h.exit

theorem sendAnswer (h : Agree s t) {size haveSent : ℕ} {lt : haveSent < size} {ret : ℤ}
    (hpoint : s.ctxFnew = .send size haveSent lt ret) (hrun : s.waitStatus = .running)
    (r : SendResult (size - haveSent)) :
    Agree (s.sendAnswer size haveSent ret r) (t.sendAnswer size haveSent ret r) := by
  have hrecv := h.recv
  rw [hrun] at hrecv
  have hbuffer := h.frame.buffer
  rw [hpoint] at hbuffer
  cases r with
  | sent len le => exact h.awaitSend hbuffer _ _
  | again => exact suspend ⟨h.frame, by simpa using hrecv, by simp [CoroutineSemaphore.taken]⟩
  | error => exact h.awaitSend hbuffer _ _

end Agree

/-! ### The coroutine is `running` -/

namespace Waiting

variable {s t : Waiting} {l : Label}

/-- A coroutine that has control waits for nothing. -/
def Running (s : Waiting) : Prop := s.control = .coroutine → s.waitStatus = .running

theorem running_giveBack (s : Waiting) (ret : ℤ) :
    Running { s with toFrame := s.giveBack ret } := fun h => by simp [Frame.giveBack] at h

theorem running_handleIn (s : Waiting) (ev : BitVec 32) : (s.handleIn ev).Running := by
  rw [handleIn]
  split
  · split
    · exact fun _ => rfl
    · exact s.running_giveBack 0
  · exact s.running_giveBack 0

theorem running_handle (s : Waiting) (ev : BitVec 32) : (s.handle ev).Running := by
  rw [handle]
  split
  · exact s.running_giveBack (-1)
  · split
    · split
      · exact fun _ => rfl
      · exact s.running_handleIn ev
    · exact s.running_handleIn ev

theorem running_suspend (s : Waiting) : s.suspend.Running := by
  rw [suspend]
  split
  · exact s.running_giveBack 0
  · split
    · exact s.running_giveBack (-1)
    · exact s.running_handleIn _
  · exact s.running_giveBack _

theorem running_awaitSend (h : s.waitStatus = .running) (size haveSent : ℕ) (ret : ℤ) :
    (s.awaitSend size haveSent ret).Running := by
  rw [awaitSend]
  split
  · exact fun _ => h
  · split
    · exact running_suspend _
    · exact fun _ => h

theorem running_recvAnswer (h : s.waitStatus = .running) (r : RecvResult bufSize) :
    (s.recvAnswer r).Running := by
  cases r with
  | bytes data pos le =>
    exact running_awaitSend (s := { s with toFrame := s.fill data }) h data.length 0 0
  | eof => exact running_suspend _
  | again => exact running_suspend _
  | error => exact running_suspend _

theorem running_sendAnswer (h : s.waitStatus = .running) (size haveSent : ℕ) (ret : ℤ) {n : ℕ}
    (r : SendResult n) : (s.sendAnswer size haveSent ret r).Running := by
  cases r with
  | sent len le => exact running_awaitSend h _ _ _
  | again => exact running_suspend _
  | error => exact running_awaitSend h _ _ _

end Waiting

/-! ### The bisimulation -/

def waiting (mem : Vector UInt8 bufSize) : System Waiting Label :=
  System.ofStep (· = Waiting.start mem) Waiting.next

def semaphores (mem : Vector UInt8 bufSize) : System Semaphores Label :=
  System.ofStep (· = Semaphores.start mem) Semaphores.next

/-- Two connections at the same place, at which `Waiting` is running if it has control. -/
def Partners (s : Waiting) (t : Semaphores) : Prop := s.Running ∧ Agree s t

theorem partners_next {s : Waiting} {t : Semaphores} (h : Partners s t) (l : Label) :
    Option.Rel Partners (s.next l) (t.next l) := by
  obtain ⟨hrun, hagree⟩ := h
  cases l with
  | handle ev =>
    rw [Waiting.next, Semaphores.next, ← hagree.frame.control]
    cases s.control with
    | coroutine => exact .none
    | main ret =>
      by_cases hret : ret < 0
      · simp only [if_pos hret]
        exact .none
      · simp only [if_neg hret]
        exact .some ⟨s.running_handle ev, hagree.handle ev⟩
  | recv answer =>
    rw [Waiting.next, Semaphores.next, ← hagree.frame.control, ← hagree.frame.ctxFnew]
    cases hcontrol : s.control with
    | main ret => exact .none
    | coroutine =>
      cases hpoint : s.ctxFnew with
      | send size haveSent lt ret => exact .none
      | done => exact .none
      | recv =>
        have hrunning := hrun hcontrol
        exact .some ⟨Waiting.running_recvAnswer hrunning answer,
          hagree.recvAnswer hpoint hrunning answer⟩
  | send answer =>
    rw [Waiting.next, Semaphores.next, ← hagree.frame.control, ← hagree.frame.ctxFnew]
    cases hcontrol : s.control with
    | main ret => exact .none
    | coroutine =>
      cases hpoint : s.ctxFnew with
      | recv => exact .none
      | done => exact .none
      | send size haveSent lt ret =>
        have hrunning := hrun hcontrol
        exact .some ⟨Waiting.running_sendAnswer hrunning _ _ _ _,
          hagree.sendAnswer hpoint hrunning _⟩

theorem bisimulation (mem mem' : Vector UInt8 bufSize) :
    (waiting mem).Bisimulation (semaphores mem') Partners :=
  .of_next fun _ _ l h => partners_next h l

theorem partners_start (mem mem' : Vector UInt8 bufSize) :
    Partners (Waiting.start mem) (Semaphores.start mem') :=
  ⟨fun _ => rfl, ⟨⟨rfl, rfl, rfl, rfl, rfl⟩, by simp [Waiting.start, Semaphores.start,
    CoroutineSemaphore.idle], by simp [Waiting.start, Semaphores.start, CoroutineSemaphore.idle]⟩⟩

/-- What one sees of the two connections. -/
structure Alike (s : Waiting) (t : Semaphores) : Prop where
  request : s.request = t.request
  control : s.control = t.control
  exited : s.exited = t.exited
  recv : ∀ ret, s.control = .main ret →
    (s.waitStatus = .waitCouldRecv ↔ t.recvSem.waiting = true)
  send : ∀ ret, s.control = .main ret →
    (s.waitStatus = .waitCouldSend ↔ t.sendSem.waiting = true)

theorem Agree.alike {s : Waiting} {t : Semaphores} (h : Agree s t) : Alike s t where
  request := h.frame.request
  control := h.frame.control
  exited := h.frame.exited
  recv _ _ := h.recv
  send _ _ := h.send

/-- **The two servers are equivalent.**  From `start` on, whatever their buffers hold, the same
events and the same answers of the kernel lead one somewhere if and only if they lead the
other somewhere, and then both are in front of the same system call, or have returned the
same from `handle`, have exited or not, and wait for the same. -/
theorem servers_equivalent (mem mem' : Vector UInt8 bufSize) (ls : List Label) :
    ((∃ s, (waiting mem).Run (Waiting.start mem) ls s) ↔
        ∃ t, (semaphores mem').Run (Semaphores.start mem') ls t) ∧
      ∀ s t, (waiting mem).Run (Waiting.start mem) ls s →
        (semaphores mem').Run (Semaphores.start mem') ls t → Alike s t := by
  have hbisim := bisimulation mem mem'
  have hstart := partners_start mem mem'
  refine ⟨⟨?_, ?_⟩, fun s t hs ht => ?_⟩
  · rintro ⟨s, hs⟩
    obtain ⟨t, ht, -⟩ := hbisim.run_forth hstart hs
    exact ⟨t, ht⟩
  · rintro ⟨t, ht⟩
    obtain ⟨s, hs, -⟩ := hbisim.run_back hstart ht
    exact ⟨s, hs⟩
  · obtain ⟨u, hu, hpartners⟩ := hbisim.run_forth hstart hs
    obtain rfl := System.run_ofStep_unique ht hu
    exact hpartners.2.alike

end CppProgramming.Socket.Coroutine
