import CppProgramming.Socket.Coroutine.Context
import CppProgramming.Socket.EdgeTriggered

/-!
# The coroutine server loses no wake-up

The connection of `server_epoll_et_ucontext1.cpp` on a socket under edge-triggered epoll.
`handle` throws an event away when the coroutine waits for the other direction, or for
none.  This loses nothing because the coroutine waits only behind a call that answered
`EAGAIN`: at that moment the direction is not ready, and from then on it becomes ready only
with an event (`Wakes`).

`WellFormed` is what every call keeps: a coroutine that has control waits for nothing, and
one that has not waits at the call it is in front of, with its own semaphore, or has
exited.
-/

namespace CppProgramming.Socket.Coroutine

open CppProgramming.Lib

namespace Semaphores

variable {s t : Semaphores} {l : Label}

/-- The semaphores of a coroutine without control. -/
def Suspended (s : Semaphores) : Prop :=
  match s.ctxFnew with
  | .recv => s.exited = false ∧ s.recvSem = .taken ∧ s.sendSem = .idle
  | .send _ _ _ _ => s.exited = false ∧ s.recvSem = .idle ∧ s.sendSem = .taken
  | .done => s.exited = true ∧ s.recvSem = .idle ∧ s.sendSem = .idle

/-- A coroutine with control has not exited and waits for nothing. -/
structure Resumed (s : Semaphores) : Prop where
  exited : s.exited = false
  recvSem : s.recvSem = .idle
  sendSem : s.sendSem = .idle

structure WellFormed (s : Semaphores) : Prop where
  suspended : ∀ ret, s.control = .main ret → s.Suspended
  resumed : s.control = .coroutine → s.Resumed
  posted : ∀ sem ∈ s.posted, sem = .taken

theorem wellFormed_start (mem : Vector UInt8 bufSize) : (start mem).WellFormed where
  suspended ret h := by simp [start, Frame.start] at h
  resumed _ := ⟨rfl, rfl, rfl⟩
  posted sem h := by simp [start] at h

theorem wellFormed_giveBack (h : s.Suspended) (hposted : ∀ sem ∈ s.posted, sem = .taken)
    (ret : ℤ) : WellFormed { s with toFrame := s.giveBack ret } where
  suspended _ _ := h
  resumed hcontrol := by simp [Frame.giveBack] at hcontrol
  posted := hposted

/-- A coroutine that waits on `recv_sem` does not wait on `send_sem`. -/
theorem Suspended.of_recv (h : s.Suspended) (hwait : s.recvSem.waiting = true) :
    s.exited = false ∧ s.recvSem = .taken ∧ s.sendSem = .idle := by
  rw [Suspended] at h
  split at h
  · exact h
  · exact absurd hwait (by simp [h.2.1, CoroutineSemaphore.idle])
  · exact absurd hwait (by simp [h.2.1, CoroutineSemaphore.idle])

theorem Suspended.of_send (h : s.Suspended) (hwait : s.sendSem.waiting = true) :
    s.exited = false ∧ s.recvSem = .idle ∧ s.sendSem = .taken := by
  rw [Suspended] at h
  split at h
  · exact absurd hwait (by simp [h.2.2, CoroutineSemaphore.idle])
  · exact h
  · exact absurd hwait (by simp [h.2.2, CoroutineSemaphore.idle])

theorem wellFormed_postRecv (h : s.Suspended) (hposted : ∀ sem ∈ s.posted, sem = .taken)
    (hwait : s.recvSem.waiting = true) (caller : Caller) : (s.postRecv caller).WellFormed where
  suspended ret hcontrol := by simp [postRecv, Frame.swapTo] at hcontrol
  resumed _ := ⟨(h.of_recv hwait).1, rfl, (h.of_recv hwait).2.2⟩
  posted sem hsem := by
    rcases List.mem_append.mp hsem with hsem | hsem
    · exact hposted sem hsem
    · rw [List.mem_singleton.mp hsem]
      exact (h.of_recv hwait).2.1

theorem wellFormed_postSend (h : s.Suspended) (hposted : ∀ sem ∈ s.posted, sem = .taken)
    (hwait : s.sendSem.waiting = true) (caller : Caller) : (s.postSend caller).WellFormed where
  suspended ret hcontrol := by simp [postSend, Frame.swapTo] at hcontrol
  resumed _ := ⟨(h.of_send hwait).1, (h.of_send hwait).2.1, rfl⟩
  posted sem hsem := by
    rcases List.mem_append.mp hsem with hsem | hsem
    · exact hposted sem hsem
    · rw [List.mem_singleton.mp hsem]
      exact (h.of_send hwait).2.2

theorem wellFormed_handleIn (h : s.Suspended) (hposted : ∀ sem ∈ s.posted, sem = .taken)
    (ev : BitVec 32) : (s.handleIn ev).WellFormed := by
  rw [handleIn]
  split
  · split
    · rename_i hwait
      exact wellFormed_postRecv h hposted hwait .handleIn
    · exact wellFormed_giveBack h hposted 0
  · exact wellFormed_giveBack h hposted 0

theorem wellFormed_handle (h : s.Suspended) (hposted : ∀ sem ∈ s.posted, sem = .taken)
    (ev : BitVec 32) : (s.handle ev).WellFormed := by
  rw [handle]
  split
  · exact wellFormed_giveBack h hposted (-1)
  · split
    · split
      · rename_i hwait
        exact wellFormed_postSend h hposted hwait (.handleOut ev)
      · exact wellFormed_handleIn h hposted ev
    · exact wellFormed_handleIn h hposted ev

theorem wellFormed_suspend (h : s.Suspended) (hposted : ∀ sem ∈ s.posted, sem = .taken) :
    s.suspend.WellFormed := by
  rw [suspend]
  split
  · exact wellFormed_giveBack h hposted 0
  · split
    · exact wellFormed_giveBack h hposted (-1)
    · exact wellFormed_handleIn h hposted _
  · exact wellFormed_giveBack h hposted _

theorem wellFormed_exit (h : s.Resumed) (hposted : ∀ sem ∈ s.posted, sem = .taken) :
    s.exit.WellFormed :=
  wellFormed_suspend (s := { s with toFrame := { s.goto .done with exited := true } })
    ⟨rfl, h.recvSem, h.sendSem⟩ hposted

theorem wellFormed_goto (h : s.WellFormed) (hcontrol : s.control = .coroutine) (p : Point) :
    WellFormed { s with toFrame := s.goto p } where
  suspended ret hmain := by
    have hmain : s.control = .main ret := hmain
    simp [hcontrol] at hmain
  resumed _ := ⟨(h.resumed hcontrol).exited, (h.resumed hcontrol).recvSem,
    (h.resumed hcontrol).sendSem⟩
  posted := h.posted

theorem wellFormed_awaitSend (h : s.WellFormed) (hcontrol : s.control = .coroutine)
    (size haveSent : ℕ) (ret : ℤ) : (s.awaitSend size haveSent ret).WellFormed := by
  rw [awaitSend]
  split
  · exact wellFormed_goto h hcontrol _
  · split
    · exact wellFormed_exit (h.resumed hcontrol) h.posted
    · exact wellFormed_goto h hcontrol _

theorem wellFormed_recvAnswer (h : s.WellFormed) (hcontrol : s.control = .coroutine)
    (hpoint : s.ctxFnew = .recv) (r : RecvResult bufSize) : (s.recvAnswer r).WellFormed := by
  have hresumed := h.resumed hcontrol
  cases r with
  | bytes data pos le =>
    refine wellFormed_awaitSend (s := { s with toFrame := s.fill data }) ⟨?_, ?_, h.posted⟩
      hcontrol _ _ _
    · intro ret hmain
      have hmain : s.control = .main ret := hmain
      simp [hcontrol] at hmain
    · exact fun _ => ⟨hresumed.exited, hresumed.recvSem, hresumed.sendSem⟩
  | eof => exact wellFormed_exit hresumed h.posted
  | again =>
    refine wellFormed_suspend (s := { s with recvSem := .taken }) ?_ h.posted
    simp only [Suspended, hpoint]
    exact ⟨hresumed.exited, trivial, hresumed.sendSem⟩
  | error => exact wellFormed_exit hresumed h.posted

theorem wellFormed_sendAnswer (h : s.WellFormed) (hcontrol : s.control = .coroutine)
    {size haveSent : ℕ} {lt : haveSent < size} {ret : ℤ}
    (hpoint : s.ctxFnew = .send size haveSent lt ret) (r : SendResult (size - haveSent)) :
    (s.sendAnswer size haveSent ret r).WellFormed := by
  have hresumed := h.resumed hcontrol
  cases r with
  | sent len le => exact wellFormed_awaitSend h hcontrol _ _ _
  | again =>
    refine wellFormed_suspend (s := { s with sendSem := .taken }) ?_ h.posted
    simp only [Suspended, hpoint]
    exact ⟨hresumed.exited, hresumed.recvSem, trivial⟩
  | error => exact wellFormed_awaitSend h hcontrol _ _ _

/-! ### What is still waited for -/

@[simp] theorem unsent_handle (s : Semaphores) (ev : BitVec 32) :
    (s.handle ev).unsent = s.unsent := (s.same_handle ev).unsent

@[simp] theorem unsent_suspend (s : Semaphores) : s.suspend.unsent = s.unsent :=
  s.same_suspend.unsent

theorem recv_handleIn {ev : BitVec 32} (h : (s.handleIn ev).recvSem.waiting = true) :
    s.recvSem.waiting = true ∧ ¬ Armed ev EPOLLIN := by
  rw [handleIn] at h
  split at h
  · split at h
    · exact absurd h (by simp [postRecv, CoroutineSemaphore.idle])
    · rename_i hwait
      exact absurd h hwait
  · rename_i hev
    exact ⟨h, hev⟩

theorem send_handleIn {ev : BitVec 32} (h : (s.handleIn ev).sendSem.waiting = true) :
    s.sendSem.waiting = true := by
  rw [handleIn] at h
  split at h
  · split at h
    · exact h
    · exact h
  · exact h

/-- **A call of `handle`** leaves a coroutine waiting only for what the event does not
report. -/
theorem recv_handle {ev : BitVec 32} (hforeign : ev &&& ~~~(EPOLLIN ||| EPOLLOUT) = 0)
    (hs : s.Suspended) (h : (s.handle ev).recvSem.waiting = true) :
    s.recvSem.waiting = true ∧ ¬ Armed ev EPOLLIN := by
  rw [handle, if_neg (not_not.mpr hforeign)] at h
  split at h
  · split at h
    · rename_i hwait
      exact absurd h (by simp [postSend, (hs.of_send hwait).2.1, CoroutineSemaphore.idle])
    · exact recv_handleIn h
  · exact recv_handleIn h

theorem send_handle {ev : BitVec 32} (hforeign : ev &&& ~~~(EPOLLIN ||| EPOLLOUT) = 0)
    (h : (s.handle ev).sendSem.waiting = true) :
    s.sendSem.waiting = true ∧ ¬ Armed ev EPOLLOUT := by
  rw [handle, if_neg (not_not.mpr hforeign)] at h
  split at h
  · split at h
    · exact absurd h (by simp [postSend, CoroutineSemaphore.idle])
    · rename_i hwait
      exact absurd (send_handleIn h) hwait
  · rename_i hev
    exact ⟨send_handleIn h, hev⟩

theorem recv_suspend (h : s.suspend.recvSem.waiting = true) : s.recvSem.waiting = true := by
  rw [suspend] at h
  split at h
  · exact h
  · split at h
    · exact h
    · exact (recv_handleIn h).1
  · exact h

theorem send_suspend (h : s.suspend.sendSem.waiting = true) : s.sendSem.waiting = true := by
  rw [suspend] at h
  split at h
  · exact h
  · split at h
    · exact h
    · exact send_handleIn h
  · exact h

/-- A coroutine that goes on without waiting. -/
def Awake (s : Semaphores) : Prop := s.recvSem.waiting = false ∧ s.sendSem.waiting = false

theorem Resumed.awake (h : s.Resumed) : s.Awake :=
  ⟨by rw [h.recvSem]; rfl, by rw [h.sendSem]; rfl⟩

theorem awake_exit (h : s.Resumed) : s.exit.Awake := by
  refine ⟨Bool.eq_false_iff.mpr fun hwait => ?_, Bool.eq_false_iff.mpr fun hwait => ?_⟩
  · exact absurd (recv_suspend hwait) (Bool.eq_false_iff.mp h.awake.1)
  · exact absurd (send_suspend hwait) (Bool.eq_false_iff.mp h.awake.2)

theorem awake_awaitSend (h : s.Resumed) (size haveSent : ℕ) (ret : ℤ) :
    (s.awaitSend size haveSent ret).Awake := by
  rw [awaitSend]
  split
  · exact h.awake
  · split
    · exact awake_exit h
    · exact h.awake

/-- `handle` does nothing to a coroutine that waits for nothing. -/
theorem Awake.handle (h : s.Awake) (ev : BitVec 32) :
    (s.handle ev).exited = s.exited ∧ (s.handle ev).posted = s.posted := by
  have hin : (s.handleIn ev).exited = s.exited ∧ (s.handleIn ev).posted = s.posted := by
    rw [handleIn, h.1]
    split
    · exact ⟨rfl, rfl⟩
    · exact ⟨rfl, rfl⟩
  rw [Semaphores.handle, h.2]
  split
  · exact ⟨rfl, rfl⟩
  · split
    · exact hin
    · exact hin

theorem Suspended.awake (h : s.Suspended) (hexited : s.exited = true) : s.Awake := by
  rw [Suspended] at h
  split at h
  · exact absurd hexited (by simp [h.1])
  · exact absurd hexited (by simp [h.1])
  · exact ⟨by rw [h.2.1]; rfl, by rw [h.2.2]; rfl⟩

/-- What is left to send in the loop of `await_send`. -/
theorem unsent_awaitSend (s : Semaphores) (size haveSent : ℕ) (ret : ℤ) :
    (s.awaitSend size haveSent ret).unsent = (s.buffer.drop haveSent).take (size - haveSent) := by
  rw [awaitSend]
  split
  · rfl
  · rename_i hlt
    rw [Nat.sub_eq_zero_of_le (Nat.not_lt.mp hlt), List.take_zero]
    split
    · exact unsent_suspend _
    · rfl

theorem unsent_exit (s : Semaphores) : s.exit.unsent = [] := unsent_suspend _

theorem unsent_recvAnswer (hpoint : s.ctxFnew = .recv) (r : RecvResult bufSize) :
    (s.recvAnswer r).unsent = r.data := by
  cases r with
  | bytes data pos le =>
    refine (unsent_awaitSend _ _ _ _).trans ?_
    simp [Frame.fill, RecvResult.data]
  | eof => exact s.unsent_exit
  | again =>
    refine (unsent_suspend _).trans ?_
    rw [Frame.unsent, hpoint]
    rfl
  | error => exact s.unsent_exit

theorem unsent_sendAnswer {size haveSent : ℕ} {lt : haveSent < size} {ret : ℤ}
    (hpoint : s.ctxFnew = .send size haveSent lt ret) (r : SendResult (size - haveSent)) :
    (s.sendAnswer size haveSent ret r).unsent = s.unsent.drop r.count := by
  have hunsent : s.unsent = (s.buffer.drop haveSent).take (size - haveSent) := by
    rw [Frame.unsent, hpoint]
  cases r with
  | sent len le =>
    refine (unsent_awaitSend _ _ _ _).trans ?_
    rw [hunsent, SendResult.count, List.drop_take, List.drop_drop, Nat.sub_sub]
  | again => exact unsent_suspend _
  | error =>
    refine (unsent_awaitSend _ _ _ _).trans ?_
    rw [hunsent]
    rfl

end Semaphores

/-! ### The server -/

structure Server where
  conn : Semaphores
  socket : Endpoint

/-- The steps of a server whose `send` does not fail; of a `recv` they say whether it fails,
and of both how much the kernel moves at most. -/
inductive Event
  | arrive (a : Arrival)
  | deliver
  | recv (most : ℕ) (fails : Bool)
  | send (most : ℕ)

/-- How much `await_send` asks `send` to take. -/
def Frame.left (s : Frame) : ℕ :=
  match s.ctxFnew with
  | .recv => 0
  | .send size haveSent _ _ => size - haveSent
  | .done => 0

namespace Server

/-- The connection is added to the epoll set and its coroutine started; adding it queues an
event if the socket is ready. -/
def start (mem : Vector UInt8 bufSize) (unread : List UInt8) (eof : Bool) (room : ℕ)
    (event : Bool) : Server where
  conn := Semaphores.start mem
  socket := ⟨unread, eof, room, event || decide (unread ≠ []) || eof || decide (0 < room), [], []⟩

/-- The answer of `recv`. -/
def recvResult (most : ℕ) (fails : Bool) (s : Server) : RecvResult bufSize :=
  if fails then .error else s.socket.recv bufSize most

def next (s : Server) : Event → Option Server
  | .arrive a => some ⟨s.conn, s.socket.arrive a⟩
  | .deliver =>
    if s.socket.pending then
      (s.conn.next (.handle s.socket.mask)).map fun conn => ⟨conn, s.socket.deliver⟩
    else none
  | .recv most fails =>
    let r := s.recvResult most fails
    (s.conn.next (.recv r)).map fun conn => ⟨conn, s.socket.take r.data⟩
  | .send most =>
    let sent := s.conn.unsent.take (s.socket.send s.conn.left most).count
    (s.conn.next (.send fun n => s.socket.send n most)).map fun conn => ⟨conn, s.socket.put sent⟩

/-- A coroutine that waits for a direction has an event coming once it is ready. -/
structure Wakes (s : Server) : Prop where
  recv : s.conn.recvSem.waiting = true → s.socket.Readable → s.socket.pending = true
  send : s.conn.sendSem.waiting = true → s.socket.Writable → s.socket.pending = true

structure Inv (s : Server) : Prop where
  conn : s.conn.WellFormed
  order : s.socket.sent ++ s.conn.unsent = s.socket.received
  wakes : s.Wakes

variable {s t : Server}

theorem Wakes.of_awake {conn : Semaphores} {e : Endpoint} (h : conn.Awake) : Wakes ⟨conn, e⟩ :=
  ⟨fun hwait => absurd hwait (Bool.eq_false_iff.mp h.1),
    fun hwait => absurd hwait (Bool.eq_false_iff.mp h.2)⟩

theorem Inv.arrive (h : s.Inv) (a : Arrival) : Inv ⟨s.conn, s.socket.arrive a⟩ where
  conn := h.conn
  order := by
    rw [Endpoint.sent_arrive, Endpoint.received_arrive]
    exact h.order
  wakes := ⟨fun hwait => Endpoint.readable_arrive a (h.wakes.recv hwait),
    fun hwait => Endpoint.writable_arrive a (h.wakes.send hwait)⟩

theorem Inv.deliver (h : s.Inv) {ret : ℤ} (hcontrol : s.conn.control = .main ret) :
    Inv ⟨s.conn.handle s.socket.mask, s.socket.deliver⟩ where
  conn := Semaphores.wellFormed_handle (h.conn.suspended ret hcontrol) h.conn.posted _
  order := by
    rw [Semaphores.unsent_handle]
    exact h.order
  wakes := by
    refine ⟨fun hwait hr => ?_, fun hwait hw => ?_⟩
    · have hev := (Semaphores.recv_handle Endpoint.mask_foreign
        (h.conn.suspended ret hcontrol) hwait).2
      exact absurd (Endpoint.armed_in_mask.mpr hr) hev
    · have hev := (Semaphores.send_handle Endpoint.mask_foreign hwait).2
      exact absurd (Endpoint.armed_out_mask.mpr hw) hev

/-- A read that answers `EAGAIN` found nothing to read. -/
theorem not_readable_of_again {most : ℕ} {fails : Bool} (h : s.recvResult most fails = .again) :
    ¬ s.socket.Readable := by
  rw [recvResult] at h
  split at h
  · exact absurd h (by simp)
  · rcases s.socket.recv_cases (n := bufSize) (by decide) most
      with ⟨data, pos, le, heq, -⟩ | ⟨-, -, heq⟩ | ⟨hnot, -⟩
    · exact absurd (heq.symm.trans h) (by simp)
    · exact absurd (heq.symm.trans h) (by simp)
    · exact hnot

theorem Inv.recv (h : s.Inv) (hcontrol : s.conn.control = .coroutine)
    (hpoint : s.conn.ctxFnew = .recv) (most : ℕ) (fails : Bool) :
    Inv ⟨s.conn.recvAnswer (s.recvResult most fails),
      s.socket.take (s.recvResult most fails).data⟩ := by
  have hresumed := h.conn.resumed hcontrol
  have hunsent : s.conn.unsent = [] := by rw [Frame.unsent, hpoint]
  have horder := h.order
  rw [hunsent, List.append_nil] at horder
  refine ⟨Semaphores.wellFormed_recvAnswer h.conn hcontrol hpoint _, ?_, ?_⟩
  · show s.socket.sent ++ _ = s.socket.received ++ _
    rw [Semaphores.unsent_recvAnswer hpoint, horder]
  · cases hr : s.recvResult most fails with
    | bytes data pos le =>
      exact .of_awake (Semaphores.awake_awaitSend
        (s := { s.conn with toFrame := s.conn.fill data })
        ⟨hresumed.exited, hresumed.recvSem, hresumed.sendSem⟩ _ _ _)
    | eof => exact .of_awake (Semaphores.awake_exit hresumed)
    | error => exact .of_awake (Semaphores.awake_exit hresumed)
    | again =>
      refine ⟨fun _ hread => ?_, fun hwait => ?_⟩
      · rw [show (RecvResult.again : RecvResult bufSize).data = [] from rfl,
          Endpoint.take_nil] at hread
        exact absurd hread (not_readable_of_again hr)
      · have hwait := Semaphores.send_suspend hwait
        exact absurd hwait (Bool.eq_false_iff.mp hresumed.awake.2)

/-- A write that answers `EAGAIN` found no room. -/
theorem not_writable_of_again {n most : ℕ} {e : Endpoint} (h : e.send n most = .again) :
    ¬ e.Writable := by
  rcases e.send_cases n most with ⟨hnot, -⟩ | ⟨len, le, heq, -⟩
  · exact hnot
  · exact absurd (heq.symm.trans h) (by simp)

theorem Inv.send (h : s.Inv) (hcontrol : s.conn.control = .coroutine) {size haveSent : ℕ}
    {lt : haveSent < size} {ret : ℤ} (hpoint : s.conn.ctxFnew = .send size haveSent lt ret)
    (most : ℕ) :
    Inv ⟨s.conn.sendAnswer size haveSent ret (s.socket.send (size - haveSent) most),
      s.socket.put (s.conn.unsent.take (s.socket.send (size - haveSent) most).count)⟩ := by
  have hresumed := h.conn.resumed hcontrol
  refine ⟨Semaphores.wellFormed_sendAnswer h.conn hcontrol hpoint _, ?_, ?_⟩
  · show s.socket.sent ++ _ ++ _ = s.socket.received
    rw [Semaphores.unsent_sendAnswer hpoint, List.append_assoc, List.take_append_drop]
    exact h.order
  · cases hr : s.socket.send (size - haveSent) most with
    | sent len le => exact .of_awake (Semaphores.awake_awaitSend hresumed _ _ _)
    | error => exact .of_awake (Semaphores.awake_awaitSend hresumed _ _ _)
    | again =>
      refine ⟨fun hwait => ?_, fun _ hw => ?_⟩
      · have hwait := Semaphores.recv_suspend hwait
        exact absurd hwait (Bool.eq_false_iff.mp hresumed.awake.1)
      · rw [show (SendResult.again : SendResult (size - haveSent)).count = 0 from rfl,
          List.take_zero, Endpoint.put_nil] at hw
        exact absurd hw (not_writable_of_again hr)

theorem inv_start (mem : Vector UInt8 bufSize) (unread : List UInt8) (eof : Bool) (room : ℕ)
    (event : Bool) : (start mem unread eof room event).Inv where
  conn := Semaphores.wellFormed_start mem
  order := rfl
  wakes := .of_awake ⟨rfl, rfl⟩

theorem Inv.step (h : s.Inv) {ev : Event} (ht : s.next ev = some t) : t.Inv := by
  cases ev with
  | arrive a =>
    obtain rfl := Option.some.inj ht
    exact h.arrive a
  | deliver =>
    rw [next] at ht
    split at ht
    · obtain ⟨conn, hconn, rfl⟩ := Option.map_eq_some_iff.mp ht
      obtain ⟨⟨ret, hcontrol⟩, rfl⟩ := Semaphores.next_handle hconn
      exact h.deliver hcontrol
    · exact absurd ht (by simp)
  | recv most fails =>
    obtain ⟨conn, hconn, rfl⟩ := Option.map_eq_some_iff.mp ht
    obtain ⟨hcontrol, hpoint, rfl⟩ := Semaphores.next_recv hconn
    exact h.recv hcontrol hpoint most fails
  | send most =>
    obtain ⟨conn, hconn, rfl⟩ := Option.map_eq_some_iff.mp ht
    obtain ⟨hcontrol, size, haveSent, lt, ret, hpoint, rfl⟩ := Semaphores.next_send hconn
    have hleft : s.conn.left = size - haveSent := by rw [Frame.left, hpoint]
    rw [hleft]
    exact h.send hcontrol hpoint most

/-- An exited coroutine stays so, and is not resumed. -/
theorem Inv.exited (h : s.Inv) (hexited : s.conn.exited = true) {ev : Event}
    (ht : s.next ev = some t) : t.conn.exited = true ∧ t.conn.posted = s.conn.posted := by
  have hrun : s.conn.control ≠ .coroutine := fun hcontrol =>
    absurd hexited (by simp [(h.conn.resumed hcontrol).exited])
  cases ev with
  | arrive a =>
    obtain rfl := Option.some.inj ht
    exact ⟨hexited, rfl⟩
  | deliver =>
    rw [next] at ht
    split at ht
    · obtain ⟨conn, hconn, rfl⟩ := Option.map_eq_some_iff.mp ht
      obtain ⟨⟨ret, hcontrol⟩, rfl⟩ := Semaphores.next_handle hconn
      obtain ⟨hsame, hposted⟩ :=
        ((h.conn.suspended ret hcontrol).awake hexited).handle s.socket.mask
      exact ⟨hsame.trans hexited, hposted⟩
    · exact absurd ht (by simp)
  | recv most fails =>
    obtain ⟨conn, hconn, -⟩ := Option.map_eq_some_iff.mp ht
    exact absurd (Semaphores.next_recv hconn).1 hrun
  | send most =>
    obtain ⟨conn, hconn, -⟩ := Option.map_eq_some_iff.mp ht
    exact absurd (Semaphores.next_send hconn).1 hrun

end Server

def server : System Server Event :=
  System.ofStep (fun s => ∃ mem unread eof room event, s = Server.start mem unread eof room event)
    Server.next

theorem inv_of_reachable {s : Server} (h : server.Reachable s) : s.Inv := by
  refine h.invariant ?_ fun s ev t _ hs ht => hs.step ht
  rintro _ ⟨mem, unread, eof, room, event, rfl⟩
  exact Server.inv_start mem unread eof room event

/-- A coroutine without control waits on one of its semaphores or has exited. -/
theorem Semaphores.Suspended.waits {s : Semaphores} (h : s.Suspended) :
    s.recvSem.waiting = true ∨ s.sendSem.waiting = true ∨ s.exited = true := by
  rw [Suspended] at h
  split at h
  · exact Or.inl (by rw [h.2.1]; rfl)
  · exact Or.inr (Or.inl (by rw [h.2.2]; rfl))
  · exact Or.inr (Or.inr h.1)

theorem Semaphores.Resumed.not_waits {s : Semaphores} (h : s.Resumed) :
    ¬ (s.recvSem.waiting = true ∨ s.sendSem.waiting = true ∨ s.exited = true) := by
  rw [h.recvSem, h.sendSem, h.exited]
  simp [CoroutineSemaphore.idle]

/-- **The coroutine server loses no wake-up.**  In every run in which no `send` fails: at most
one semaphore is waiting; `post` finds it waiting and its context there; the coroutine is
suspended exactly when it waits or has exited, and not resumed from then on; what was sent
and what is left of the buffer is what was received; and whenever no event is queued, the
coroutine does not wait for what the socket is ready for. -/
theorem no_lost_wakeup {s : Server} (h : server.Reachable s) :
    ¬ (s.conn.recvSem.waiting = true ∧ s.conn.sendSem.waiting = true) ∧
      (∀ sem ∈ s.conn.posted, sem.waiting = true ∧ sem.waitingContext ≠ .null) ∧
      (s.conn.control ≠ .coroutine ↔
        s.conn.recvSem.waiting = true ∨ s.conn.sendSem.waiting = true ∨ s.conn.exited = true) ∧
      (s.conn.exited = true → ∀ evs t, server.Run s evs t →
        t.conn.control ≠ .coroutine ∧ t.conn.posted = s.conn.posted) ∧
      s.socket.sent ++ s.conn.unsent = s.socket.received ∧
      (s.socket.pending = false →
        ¬ (s.conn.recvSem.waiting = true ∧ s.socket.Readable) ∧
        ¬ (s.conn.sendSem.waiting = true ∧ s.socket.Writable)) := by
  have hinv := inv_of_reachable h
  have hiff {t : Server} (ht : t.Inv) : t.conn.control ≠ .coroutine ↔
      t.conn.recvSem.waiting = true ∨ t.conn.sendSem.waiting = true ∨ t.conn.exited = true := by
    cases hcontrol : t.conn.control with
    | main ret => exact iff_of_true (by simp) (ht.conn.suspended ret hcontrol).waits
    | coroutine => exact iff_of_false (by simp) (ht.conn.resumed hcontrol).not_waits
  refine ⟨?_, fun sem hsem => ?_, hiff hinv, fun hexited evs t hrun => ?_, hinv.order,
    fun hpending => ⟨?_, ?_⟩⟩
  · rintro ⟨hrecv, hsend⟩
    have hcontrol := (hiff hinv).mpr (Or.inl hrecv)
    cases hc : s.conn.control with
    | coroutine => exact hcontrol hc
    | main ret =>
      have hidle := ((hinv.conn.suspended ret hc).of_recv hrecv).2.2
      exact absurd hsend (by simp [hidle, CoroutineSemaphore.idle])
  · rw [hinv.conn.posted sem hsem]
    exact ⟨rfl, by simp [CoroutineSemaphore.taken]⟩
  · have hend : t.Inv ∧ t.conn.exited = true ∧ t.conn.posted = s.conn.posted := by
      refine hrun.invariant (P := fun t => t.Inv ∧ t.conn.exited = true ∧
        t.conn.posted = s.conn.posted) ?_ ⟨hinv, hexited, rfl⟩
      rintro u ev v ⟨hu, huexited, hposted⟩ hstep
      obtain ⟨hvexited, hsame⟩ := hu.exited huexited hstep
      exact ⟨hu.step hstep, hvexited, hsame.trans hposted⟩
    exact ⟨(hiff hend.1).mpr (Or.inr (Or.inr hend.2.1)), hend.2.2⟩
  · rintro ⟨hwait, hr⟩
    exact absurd (hinv.wakes.recv hwait hr) (by simp [hpending])
  · rintro ⟨hwait, hw⟩
    exact absurd (hinv.wakes.send hwait hw) (by simp [hpending])

/-- A connection on which a byte arrives while its coroutine waits for one. -/
def oneByteStart : Server := Server.start (Vector.replicate bufSize 0) [] false 1 false

def oneByteEvents : List Event :=
  [.recv 0 false, .arrive (.bytes [7]), .deliver, .recv 0 false, .send 0, .recv 0 false]

/-- The byte is echoed, and the coroutine waits for the next one. -/
def oneByte : Server := (oneByteEvents.foldlM Server.next oneByteStart).getD oneByteStart

theorem no_lost_wakeup_oneByte : oneByte.socket.sent ++ oneByte.conn.unsent = [7] := by
  have hrun : server.Run oneByteStart oneByteEvents oneByte := System.run_ofStep rfl
  have hreach : server.Reachable oneByte := ⟨_, _, ⟨_, _, _, _, _, rfl⟩, hrun⟩
  exact (no_lost_wakeup hreach).2.2.2.2.1

end CppProgramming.Socket.Coroutine
