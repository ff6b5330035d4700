import CppProgramming.Lib.Transition
import CppProgramming.Socket.Coroutine.Context
import Mathlib.Data.List.TakeDrop

/-!
# `await_send`

One call of `await_send` of the two coroutine servers, from where `run` calls it to where
`run` goes on.  The two differ in what they note while they wait; what they do with an answer
of `send` is the same (`Sends`), and the rest is said of any server of which that holds.

A `Call` is a state of the server with the `send` calls that were made so far.  As `run` goes
straight on behind `await_send`, its result shows in where the coroutine is: in front of the
next `recv` when it was `0`, and at the end when it was negative.

The loop ends only when all bytes are sent.  A hard error is noted in `ret`, and then the
same bytes are offered again (`sendAnswer` of the two classes).
-/

namespace CppProgramming.Socket.Coroutine

open CppProgramming.Lib

/-- What the coroutine does with the answer to the `send` at `haveSent`. -/
def Frame.Sent (f : Frame) (size haveSent : ℕ) (ret : ℤ) {n : ℕ} (r : SendResult n) (g : Frame) :
    Prop :=
  match r with
  | .sent len _ =>
    g.buffer = f.buffer ∧
      ((∃ lt, g.ctxFnew = .send size (haveSent + len) lt ret) ∨
        (size ≤ haveSent + len ∧ 0 ≤ ret ∧ g.ctxFnew = .recv) ∨
        (size ≤ haveSent + len ∧ ret < 0 ∧ g.ctxFnew = .done ∧ g.exited = true))
  | .again => f.Same g
  | .error => g.buffer = f.buffer ∧ ∃ lt, g.ctxFnew = .send size haveSent lt (-1)

/-- What the servers have in common here: where `await_send(ctx, buf, size)` begins, that
`handle` leaves the coroutine where it is, and what `send` leads to. -/
structure Sends {σ : Type*} (frame : σ → Frame) (awaitSend : ℕ → σ → σ)
    (next : σ → Label → Option σ) : Prop where
  enter : ∀ s size, (frame (awaitSend size s)).buffer = (frame s).buffer ∧
    ((size = 0 ∧ (frame (awaitSend size s)).ctxFnew = .recv) ∨
      ∃ lt, (frame (awaitSend size s)).ctxFnew = .send size 0 lt 0)
  handle : ∀ s ev t, next s (.handle ev) = some t → (frame s).Same (frame t)
  recv : ∀ s answer t, next s (.recv answer) = some t → (frame s).ctxFnew = .recv
  send : ∀ s answer t, next s (.send answer) = some t → ∃ size haveSent lt ret,
    (frame s).ctxFnew = .send size haveSent lt ret ∧
      (frame s).Sent size haveSent ret (answer (size - haveSent)) (frame t)

namespace Waiting

theorem sent_sendAnswer (s : Waiting) {size haveSent : ℕ} (lt : haveSent < size) {ret : ℤ}
    {n : ℕ} (r : SendResult n) :
    s.toFrame.Sent size haveSent ret r (s.sendAnswer size haveSent ret r).toFrame := by
  cases r with
  | sent len le =>
    rw [sendAnswer, awaitSend]
    split
    · exact ⟨rfl, Or.inl ⟨_, rfl⟩⟩
    · rename_i hge
      split
      · rename_i hneg
        obtain ⟨hbuffer, hdone, hexited⟩ := s.exit_spec
        exact ⟨hbuffer, Or.inr (Or.inr ⟨by omega, hneg, hdone, hexited⟩)⟩
      · exact ⟨rfl, Or.inr (Or.inl ⟨by omega, by omega, rfl⟩)⟩
  | again => exact same_suspend { s with waitStatus := .waitCouldSend }
  | error =>
    rw [sendAnswer, awaitSend, dif_pos lt]
    exact ⟨rfl, _, rfl⟩

theorem sends : Sends toFrame (fun size s => awaitSend size 0 0 s) next where
  enter s size := by
    by_cases hpos : 0 < size
    · rw [awaitSend, dif_pos hpos]
      exact ⟨rfl, Or.inr ⟨hpos, rfl⟩⟩
    · rw [awaitSend, dif_neg hpos, if_neg (Int.lt_irrefl 0)]
      exact ⟨rfl, Or.inl ⟨by omega, rfl⟩⟩
  handle s ev t h := (next_handle h).2 ▸ s.same_handle ev
  recv _ _ _ h := (next_recv h).2.1
  send s answer t h := by
    obtain ⟨-, size, haveSent, lt, ret, hpoint, rfl⟩ := next_send h
    exact ⟨size, haveSent, lt, ret, hpoint, s.sent_sendAnswer lt _⟩

end Waiting

namespace Semaphores

theorem sent_sendAnswer (s : Semaphores) {size haveSent : ℕ} (lt : haveSent < size) {ret : ℤ}
    {n : ℕ} (r : SendResult n) :
    s.toFrame.Sent size haveSent ret r (s.sendAnswer size haveSent ret r).toFrame := by
  cases r with
  | sent len le =>
    rw [sendAnswer, awaitSend]
    split
    · exact ⟨rfl, Or.inl ⟨_, rfl⟩⟩
    · rename_i hge
      split
      · rename_i hneg
        obtain ⟨hbuffer, hdone, hexited⟩ := s.exit_spec
        exact ⟨hbuffer, Or.inr (Or.inr ⟨by omega, hneg, hdone, hexited⟩)⟩
      · exact ⟨rfl, Or.inr (Or.inl ⟨by omega, by omega, rfl⟩)⟩
  | again => exact same_suspend { s with sendSem := .taken }
  | error =>
    rw [sendAnswer, awaitSend, dif_pos lt]
    exact ⟨rfl, _, rfl⟩

theorem sends : Sends toFrame (fun size s => awaitSend size 0 0 s) next where
  enter s size := by
    by_cases hpos : 0 < size
    · rw [awaitSend, dif_pos hpos]
      exact ⟨rfl, Or.inr ⟨hpos, rfl⟩⟩
    · rw [awaitSend, dif_neg hpos, if_neg (Int.lt_irrefl 0)]
      exact ⟨rfl, Or.inl ⟨by omega, rfl⟩⟩
  handle s ev t h := (next_handle h).2 ▸ s.same_handle ev
  recv _ _ _ h := (next_recv h).2.1
  send s answer t h := by
    obtain ⟨-, size, haveSent, lt, ret, hpoint, rfl⟩ := next_send h
    exact ⟨size, haveSent, lt, ret, hpoint, s.sent_sendAnswer lt _⟩

end Semaphores

/-! ### One call -/

/-- A call of `send`: what it was offered, how much that is, and its answer. -/
structure SendCall where
  data : List UInt8
  toSend : ℕ
  answer : SendResult toSend

/-- The bytes that were accepted, in the order of the calls. -/
def accepted (calls : List SendCall) : List UInt8 :=
  calls.flatMap fun c => c.data.take c.answer.count

/-- The `send` that a step answers. -/
def sendCall (f : Frame) : Label → List SendCall
  | .send answer =>
    match f.ctxFnew with
    | .send size haveSent _ _ => [⟨f.unsent, size - haveSent, answer (size - haveSent)⟩]
    | .recv => []
    | .done => []
  | .handle _ => []
  | .recv _ => []

variable {σ : Type*} (frame : σ → Frame) (awaitSend : ℕ → σ → σ) (next : σ → Label → Option σ)

/-- One call of `await_send` for the bytes `data` at the front of the buffer, while the
coroutine is in it. -/
def callSystem (data : List UInt8) : System (σ × List SendCall) Label where
  init c := ∃ s, (frame s).control = .coroutine ∧ (frame s).exited = false ∧
    (frame s).buffer.take data.length = data ∧ c = (awaitSend data.length s, [])
  step c l d := (∃ size haveSent lt ret, (frame c.1).ctxFnew = .send size haveSent lt ret) ∧
    next c.1 l = some d.1 ∧ d.2 = c.2 ++ sendCall (frame c.1) l

theorem callSystem_step {data : List UInt8} {c : σ × List SendCall} {l : Label} {t : σ}
    (hpoint : ∃ size haveSent lt ret, (frame c.1).ctxFnew = .send size haveSent lt ret)
    (h : next c.1 l = some t) :
    (callSystem frame awaitSend next data).step c l (t, c.2 ++ sendCall (frame c.1) l) :=
  ⟨hpoint, h, rfl⟩

/-- **What `await_send` has to do**: every `send` offers what is left, the accepted bytes are
a front of the data, behind the last of them `0` was returned, and behind a hard error there
is no further call and `run` has left its loop. -/
structure Transmits (data : List UInt8) (f : Frame) (calls : List SendCall) : Prop where
  offered : ∀ i c, calls[i]? = some c → c.data = data.drop (accepted (calls.take i)).length
  inOrder : accepted calls = data.take (accepted calls).length
  returned : (accepted calls).length = data.length → f.ctxFnew = .recv
  failed : ∀ i c, calls[i]? = some c → c.answer.failed = true →
    i + 1 = calls.length ∧ f.ctxFnew = .done ∧ f.exited = true

/-! ### What holds of every call -/

/-- Some `send` answered a hard error. -/
def Failed (calls : List SendCall) : Prop := ∃ c ∈ calls, c.answer.failed = true

/-- Where the coroutine is, and what that says of the calls so far: `ret` remembers that one
of them failed, and the loop goes on for as long as bytes are left. -/
def Progress (data : List UInt8) (f : Frame) (calls : List SendCall) : Prop :=
  match f.ctxFnew with
  | .send size haveSent _ ret =>
    size = data.length ∧ haveSent = (accepted calls).length ∧ (ret < 0 ↔ Failed calls)
  | .recv => ¬ Failed calls
  | .done => ∃ c before, calls = before ++ [c] ∧ Failed before ∧ c.answer.failed = false

structure CallInv (data : List UInt8) (f : Frame) (calls : List SendCall) : Prop where
  buffer : f.buffer.take data.length = data
  offered : ∀ i c, calls[i]? = some c → c.data = data.drop (accepted (calls.take i)).length
  inOrder : accepted calls = data.take (accepted calls).length
  progress : Progress data f calls

variable {data : List UInt8} {f g : Frame} {calls : List SendCall}

@[simp] theorem accepted_nil : accepted [] = [] := rfl

theorem accepted_concat (c : SendCall) :
    accepted (calls ++ [c]) = accepted calls ++ c.data.take c.answer.count := by
  simp [accepted]

theorem failed_concat (calls : List SendCall) (c : SendCall) :
    Failed (calls ++ [c]) ↔ Failed calls ∨ c.answer.failed = true := by
  simp only [Failed, List.mem_append, List.mem_singleton]
  constructor
  · rintro ⟨d, hd | rfl, hfailed⟩
    · exact Or.inl ⟨d, hd, hfailed⟩
    · exact Or.inr hfailed
  · rintro (⟨d, hd, hfailed⟩ | hfailed)
    · exact ⟨d, Or.inl hd, hfailed⟩
    · exact ⟨c, Or.inr rfl, hfailed⟩

/-- The coroutine waits, or is resumed. -/
theorem CallInv.same (h : CallInv data f calls) (hsame : f.Same g) : CallInv data g calls where
  buffer := hsame.buffer ▸ h.buffer
  offered := h.offered
  inOrder := h.inOrder
  progress := by
    have hprogress := h.progress
    rw [Progress] at hprogress ⊢
    rw [hsame.ctxFnew]
    exact hprogress

/-- The part that is offered is what is left of the data. -/
theorem CallInv.unsent (h : CallInv data f calls) {size haveSent : ℕ} {lt : haveSent < size}
    {ret : ℤ} (hpoint : f.ctxFnew = .send size haveSent lt ret) :
    f.unsent = data.drop (accepted calls).length := by
  have hprogress := h.progress
  rw [Progress, hpoint] at hprogress
  obtain ⟨rfl, rfl, -⟩ := hprogress
  calc f.unsent
      = (f.buffer.drop (accepted calls).length).take (data.length - (accepted calls).length) := by
        rw [Frame.unsent, hpoint]
    _ = (f.buffer.take data.length).drop (accepted calls).length := List.drop_take.symm
    _ = data.drop (accepted calls).length := by rw [h.buffer]

/-- One call of `send` is offered what is left, and takes a front of it. -/
theorem offered_concat
    (h : ∀ i c, calls[i]? = some c → c.data = data.drop (accepted (calls.take i)).length)
    {c : SendCall} (hc : c.data = data.drop (accepted calls).length) :
    ∀ i d, (calls ++ [c])[i]? = some d →
      d.data = data.drop (accepted ((calls ++ [c]).take i)).length := by
  intro i d hd
  by_cases hi : i < calls.length
  · rw [List.getElem?_append_left hi] at hd
    rw [List.take_append_of_le_length (by omega)]
    exact h i d hd
  · have hlt := (List.getElem?_eq_some_iff.mp hd).1
    obtain rfl : i = calls.length := by
      rw [List.length_append, List.length_singleton] at hlt
      omega
    rw [List.getElem?_concat_length] at hd
    obtain rfl := Option.some.inj hd
    rw [List.take_left]
    exact hc

theorem inOrder_concat (h : accepted calls = data.take (accepted calls).length)
    {c : SendCall} (hc : c.data = data.drop (accepted calls).length)
    (hle : c.answer.count ≤ data.length - (accepted calls).length) :
    (accepted (calls ++ [c])).length = (accepted calls).length + c.answer.count ∧
      accepted (calls ++ [c]) = data.take (accepted (calls ++ [c])).length := by
  have hlength : (accepted (calls ++ [c])).length = (accepted calls).length + c.answer.count := by
    rw [accepted_concat, List.length_append, List.length_take, hc, List.length_drop]
    omega
  refine ⟨hlength, ?_⟩
  rw [hlength, List.take_add, ← h, accepted_concat, hc]

/-- **The step of the loop.** -/
theorem CallInv.send (h : CallInv data f calls) {size haveSent : ℕ} {lt : haveSent < size} {ret : ℤ}
    (hpoint : f.ctxFnew = .send size haveSent lt ret) (r : SendResult (size - haveSent))
    (hsent : f.Sent size haveSent ret r g) :
    CallInv data g (calls ++ [⟨f.unsent, size - haveSent, r⟩]) := by
  have hunsent := h.unsent hpoint
  have hprogress := h.progress
  rw [Progress, hpoint] at hprogress
  obtain ⟨rfl, rfl, hret⟩ := hprogress
  obtain ⟨hlength, hinOrder⟩ := inOrder_concat h.inOrder (c := ⟨f.unsent, _, r⟩) hunsent r.count_le
  have hbuffer : g.buffer = f.buffer := by
    cases r with
    | sent => exact hsent.1
    | again => exact hsent.buffer
    | error => exact hsent.1
  refine ⟨hbuffer ▸ h.buffer, offered_concat h.offered hunsent, hinOrder, ?_⟩
  have hfailed := failed_concat calls ⟨f.unsent, _, r⟩
  cases r with
  | sent len le =>
    have hkept : Failed (calls ++ [⟨f.unsent, _, .sent len le⟩]) ↔ Failed calls :=
      hfailed.trans (by simp [SendResult.failed])
    rcases hsent.2 with ⟨lt', hnext⟩ | ⟨-, hnonneg, hnext⟩ | ⟨-, hneg, hnext, -⟩
    · rw [Progress, hnext]
      exact ⟨rfl, hlength.symm, hret.trans hkept.symm⟩
    · rw [Progress, hnext]
      intro hcalls
      have hneg := hret.mpr (hkept.mp hcalls)
      omega
    · rw [Progress, hnext]
      exact ⟨_, calls, rfl, hret.mp hneg, rfl⟩
  | again =>
    have hkept : Failed (calls ++ [⟨f.unsent, _, .again⟩]) ↔ Failed calls :=
      hfailed.trans (by simp [SendResult.failed])
    rw [Progress, hsent.ctxFnew, hpoint]
    exact ⟨rfl, hlength.symm, hret.trans hkept.symm⟩
  | error =>
    obtain ⟨lt', hnext⟩ := hsent.2
    rw [Progress, hnext]
    exact ⟨rfl, hlength.symm, iff_of_true (by omega) (hfailed.mpr (Or.inr rfl))⟩

variable {frame awaitSend next}

theorem Sends.inv_init (h : Sends frame awaitSend next) {c : σ × List SendCall}
    (hc : (callSystem frame awaitSend next data).init c) : CallInv data (frame c.1) c.2 := by
  obtain ⟨s, -, -, hdata, rfl⟩ := hc
  obtain ⟨hbuffer, hpoint⟩ := h.enter s data.length
  refine ⟨hbuffer ▸ hdata, by simp, by simp, ?_⟩
  rw [Progress]
  rcases hpoint with ⟨-, hrecv⟩ | ⟨lt, hsend⟩
  · rw [hrecv]
    simp [Failed]
  · rw [hsend]
    exact ⟨rfl, rfl, by simp [Failed]⟩

theorem Sends.inv_step (h : Sends frame awaitSend next) {c d : σ × List SendCall} {l : Label}
    (hc : CallInv data (frame c.1) c.2) (hstep : (callSystem frame awaitSend next data).step c l d) :
    CallInv data (frame d.1) d.2 := by
  obtain ⟨⟨size, haveSent, lt, ret, hpoint⟩, hnext, hcalls⟩ := hstep
  cases l with
  | handle ev =>
    rw [hcalls, sendCall, List.append_nil]
    exact hc.same (h.handle _ _ _ hnext)
  | recv answer => exact absurd ((h.recv _ _ _ hnext).symm.trans hpoint) (by simp)
  | send answer =>
    obtain ⟨size', haveSent', lt', ret', hpoint', hsent⟩ := h.send _ _ _ hnext
    rw [hcalls, sendCall, hpoint']
    exact hc.send hpoint' _ hsent

theorem Sends.inv_reachable (h : Sends frame awaitSend next) {c : σ × List SendCall}
    (hc : (callSystem frame awaitSend next data).Reachable c) : CallInv data (frame c.1) c.2 :=
  hc.invariant (fun _ => h.inv_init) fun _ _ _ _ => h.inv_step

/-- A call does what it has to do for as long as no `send` answers a hard error, and no
longer. -/
theorem CallInv.transmits_iff (h : CallInv data f calls) :
    Transmits data f calls ↔ ¬ Failed calls := by
  constructor
  · rintro htransmits ⟨c, hc, hfailed⟩
    obtain ⟨i, hi⟩ := List.getElem?_of_mem hc
    obtain ⟨hlast, hdone, -⟩ := htransmits.failed i c hi hfailed
    have hprogress := h.progress
    rw [Progress, hdone] at hprogress
    obtain ⟨d, before, rfl, -, hd⟩ := hprogress
    obtain rfl : i = before.length := by simpa using hlast
    rw [List.getElem?_concat_length] at hi
    obtain rfl := Option.some.inj hi
    exact absurd hfailed (by simp [hd])
  · intro hnone
    refine ⟨h.offered, h.inOrder, ?_, ?_⟩
    · intro hall
      have hprogress := h.progress
      rw [Progress] at hprogress
      split at hprogress
      · rename_i lt _ _
        omega
      · assumption
      · obtain ⟨c, before, rfl, hbefore, -⟩ := hprogress
        exact absurd ((failed_concat before c).mpr (Or.inl hbefore)) hnone
    · intro i c hi hfailed
      exact absurd ⟨c, List.mem_of_getElem? hi, hfailed⟩ hnone

/-! ### Both servers -/

/-- The calls of `await_send` in `server_epoll_et_ucontext.cpp`. -/
def Waiting.callSystem (data : List UInt8) : System (Waiting × List SendCall) Label :=
  Coroutine.callSystem Waiting.toFrame (fun size s => s.awaitSend size 0 0) Waiting.next data

/-- The calls of `await_send` in `server_epoll_et_ucontext1.cpp`. -/
def Semaphores.callSystem (data : List UInt8) : System (Semaphores × List SendCall) Label :=
  Coroutine.callSystem Semaphores.toFrame (fun size s => s.awaitSend size 0 0) Semaphores.next data

/-- **When a call of `await_send` is right**: exactly when none of its `send`s answered a
hard error, for all data, in both servers. -/
theorem await_send_transmits_iff (data : List UInt8) :
    (∀ c, (Waiting.callSystem data).Reachable c →
      (Transmits data c.1.toFrame c.2 ↔ ¬ Failed c.2)) ∧
    (∀ c, (Semaphores.callSystem data).Reachable c →
      (Transmits data c.1.toFrame c.2 ↔ ¬ Failed c.2)) :=
  ⟨fun _ hc => (Waiting.sends.inv_reachable hc).transmits_iff,
    fun _ hc => (Semaphores.sends.inv_reachable hc).transmits_iff⟩

/-- One byte is to be sent and the socket is broken: the second call of `send` is behind the
first hard error. -/
theorem await_send_calls_again :
    (∃ c, (Waiting.callSystem [0]).Reachable c ∧
      c.2.map (fun call => call.answer.failed) = [true, true] ∧
      ¬ Transmits [0] c.1.toFrame c.2) ∧
    (∃ c, (Semaphores.callSystem [0]).Reachable c ∧
      c.2.map (fun call => call.answer.failed) = [true, true] ∧
      ¬ Transmits [0] c.1.toFrame c.2) := by
  constructor
  · have hone := System.Reachable.step (M := Waiting.callSystem [0]) (.of_init
      ⟨Waiting.start (Vector.replicate bufSize 0), rfl, rfl, rfl, rfl⟩)
      (l := .send fun _ => .error) (callSystem_step _ _ _ ⟨_, _, _, _, rfl⟩ rfl)
    have htwo := hone.step (l := .send fun _ => .error)
      (callSystem_step _ _ _ ⟨_, _, _, _, rfl⟩ rfl)
    refine ⟨_, htwo, rfl, ?_⟩
    intro h
    have hlast := (h.failed 0 _ rfl rfl).1
    exact absurd hlast (by decide)
  · have hone := System.Reachable.step (M := Semaphores.callSystem [0]) (.of_init
      ⟨Semaphores.start (Vector.replicate bufSize 0), rfl, rfl, rfl, rfl⟩)
      (l := .send fun _ => .error) (callSystem_step _ _ _ ⟨_, _, _, _, rfl⟩ rfl)
    have htwo := hone.step (l := .send fun _ => .error)
      (callSystem_step _ _ _ ⟨_, _, _, _, rfl⟩ rfl)
    refine ⟨_, htwo, rfl, ?_⟩
    intro h
    have hlast := (h.failed 0 _ rfl rfl).1
    exact absurd hlast (by decide)

end CppProgramming.Socket.Coroutine
