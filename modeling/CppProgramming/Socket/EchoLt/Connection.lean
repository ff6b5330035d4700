import CppProgramming.Lib.Transition
import CppProgramming.Socket.RingBuffer
import CppProgramming.Socket.Kernel

/-!
# The level-triggered echo connection

`Connection` of `tcp_echo1/main/server_epoll_lt_recvmsg.cpp`, function by
function.  A `State` is the object's own fields (the ring and the mask
`epoll_event`) with what the kernel holds for its descriptor: the bytes
`recvmsg` delivered and `sendmsg` took so far, and the mask of the last
successful `epoll_ctl`.

`Answers` are the kernel's answers during one call of `handle`, which makes at
most one `recvmsg` and at most one `sendmsg` in each of its two halves.

`recvBuf_cases` and `sendBuf_cases` say everything the two transfers can do to a
state with a well-formed ring.  `Kept.handle` is the rule for a predicate that
every call keeps, whatever it returns, and `run_kept` the rule for the runs of
the `server`.
-/

namespace CppProgramming.Socket.EchoLt

open RingBuffer

/-- `RingBuffer::max_pkt_size` of `tcp_echo1`. -/
def maxPktSize : ℕ := 4096

theorem pktSize : PktSize maxPktSize := ⟨by decide, by decide, ⟨2 ^ 52, by decide⟩⟩

structure State where
  buf : RingBuffer
  epollEvent : BitVec 32
  received : List UInt8
  sent : List UInt8
  interest : BitVec 32
  ctlCalls : ℕ

structure Answers where
  recvmsg : (n : ℕ) → RecvResult n
  sendmsgOut : (n : ℕ) → SendResult n
  sendmsgIn : (n : ℕ) → SendResult n
  epollCtl : ℕ → Bool

namespace State

/-- The constructor.  `added` tells whether its `epoll_ctl` succeeded; `mem` is
what the new array happens to hold. -/
def fresh (mem : ℕ → UInt8) (added : Bool) : State where
  buf := RingBuffer.new mem
  epollEvent := EPOLLIN
  received := []
  sent := []
  interest := if added then EPOLLIN else 0
  ctlCalls := 0

/-- `epoll_ctl(epfd, EPOLL_CTL_MOD, fd, &event)`; a failure is only printed. -/
def epollCtlMod (k : Answers) (s : State) : State :=
  { s with
    interest := if k.epollCtl s.ctlCalls then s.epollEvent else s.interest
    ctlCalls := s.ctlCalls + 1 }

def setEpollout (k : Answers) (flag : Bool) (s : State) : State :=
  if Armed s.epollEvent EPOLLOUT then
    if flag then s
    else epollCtlMod k { s with epollEvent := s.epollEvent &&& ~~~EPOLLOUT }
  else if flag then epollCtlMod k { s with epollEvent := s.epollEvent ||| EPOLLOUT }
  else s

def setEpollin (k : Answers) (flag : Bool) (s : State) : State :=
  if Armed s.epollEvent EPOLLIN then
    if flag then s
    else epollCtlMod k { s with epollEvent := s.epollEvent &&& ~~~EPOLLIN }
  else if flag then epollCtlMod k { s with epollEvent := s.epollEvent ||| EPOLLIN }
  else s

/-- `recv_buf` behind its `recvmsg`, which stored `recvLen` bytes. -/
def recvTail (k : Answers) (recvLen : ℕ) (s : State) : ℤ × State :=
  let s := { s with buf := s.buf.addExist recvLen }
  let toRead1 := s.buf.getBlankSize maxPktSize
  if toRead1 < 0 then (-1, s)
  else if toRead1 = 0 then (recvLen, s.setEpollin k false)
  else (recvLen, s.setEpollin k true)

/-- `recv_buf` from its `recvmsg` on, which read into `iov` and answered `r`. -/
def recvWith (k : Answers) (iov : List IoVec) {n : ℕ} (r : RecvResult n) (s : State) : ℤ × State :=
  match r with
  | .eof => (-1, s)
  | .error => (-1, s)
  | .again => recvTail k 0 s
  | .bytes data _ _ =>
    recvTail k data.length
      { s with buf := s.buf.scatter iov data, received := s.received ++ data }

def recvBuf (k : Answers) (s : State) : ℤ × State :=
  let toRead := s.buf.getBlankSize maxPktSize
  if toRead < 0 then (-1, s)
  else if toRead = 0 then (0, s.setEpollin k false)
  else
    let iov := s.buf.getBlankIovec maxPktSize
    recvWith k iov (k.recvmsg (totalLen iov)) s

/-- `send_buf` behind its `sendmsg`, which took `sendLen` bytes. -/
def sendTail (k : Answers) (sendLen : ℕ) (s : State) : ℤ × State :=
  let s := { s with buf := s.buf.addBlank sendLen }
  let toSend1 := s.buf.getExistSize
  if toSend1 < 0 then (-1, s)
  else if toSend1 = 0 then (sendLen, s.setEpollout k false)
  else (sendLen, s.setEpollout k true)

/-- `send_buf` from its `sendmsg` on, which offered `iov` and answered `r`. -/
def sendWith (k : Answers) (iov : List IoVec) {n : ℕ} (r : SendResult n) (s : State) : ℤ × State :=
  match r with
  | .error => (-1, s)
  | .again => sendTail k 0 s
  | .sent len _ => sendTail k len { s with sent := s.sent ++ s.buf.gather iov len }

def sendBuf (k : Answers) (sendmsg : (n : ℕ) → SendResult n) (s : State) : ℤ × State :=
  let toSend := s.buf.getExistSize
  if toSend < 0 then (-1, s)
  else if toSend = 0 then (0, s.setEpollout k false)
  else
    let iov := s.buf.getExistIovec maxPktSize
    sendWith k iov (sendmsg (totalLen iov)) s

def handleRead (k : Answers) (s : State) : ℤ × State :=
  let (recvLen, s) := s.recvBuf k
  if recvLen < 0 then (-1, s)
  else if recvLen > 0 then
    let (sendLen, s) := s.sendBuf k k.sendmsgIn
    if sendLen < 0 then (-1, s)
    else if sendLen > 0 then (0, s.setEpollin k true)
    else (0, s)
  else (0, s)

def handleWrite (k : Answers) (s : State) : ℤ × State :=
  let (sendLen, s) := s.sendBuf k k.sendmsgOut
  if sendLen < 0 then (-1, s)
  else if sendLen > 0 then (0, s.setEpollin k true)
  else (0, s)

/-- The `EPOLLIN` half of `handle`. -/
def handleIn (ev : BitVec 32) (k : Answers) (s : State) : ℤ × State :=
  if Armed ev EPOLLIN then
    let (ret, s) := s.handleRead k
    if ret < 0 then (ret, s) else (0, s)
  else (0, s)

def handle (ev : BitVec 32) (k : Answers) (s : State) : ℤ × State :=
  if ev &&& ~~~(EPOLLIN ||| EPOLLOUT) ≠ 0 then (-1, s)
  else if Armed ev EPOLLOUT then
    let (ret, s) := s.handleWrite k
    if ret < 0 then (ret, s) else s.handleIn ev k
  else s.handleIn ev k

/-! ### The interest mask -/

variable (k : Answers) (flag : Bool) (s : State)

@[simp] theorem setEpollout_buf : (s.setEpollout k flag).buf = s.buf := by
  unfold setEpollout; split <;> split <;> rfl

@[simp] theorem setEpollout_received : (s.setEpollout k flag).received = s.received := by
  unfold setEpollout; split <;> split <;> rfl

@[simp] theorem setEpollout_sent : (s.setEpollout k flag).sent = s.sent := by
  unfold setEpollout; split <;> split <;> rfl

@[simp] theorem setEpollin_buf : (s.setEpollin k flag).buf = s.buf := by
  unfold setEpollin; split <;> split <;> rfl

@[simp] theorem setEpollin_received : (s.setEpollin k flag).received = s.received := by
  unfold setEpollin; split <;> split <;> rfl

@[simp] theorem setEpollin_sent : (s.setEpollin k flag).sent = s.sent := by
  unfold setEpollin; split <;> split <;> rfl

@[simp] theorem setEpollout_armed_out :
    Armed (s.setEpollout k flag).epollEvent EPOLLOUT ↔ flag = true := by
  unfold setEpollout
  cases flag <;> split <;> simp_all [epollCtlMod]

@[simp] theorem setEpollout_armed_in :
    Armed (s.setEpollout k flag).epollEvent EPOLLIN ↔ Armed s.epollEvent EPOLLIN := by
  unfold setEpollout
  cases flag <;> split <;> simp [epollCtlMod]

@[simp] theorem setEpollin_armed_in :
    Armed (s.setEpollin k flag).epollEvent EPOLLIN ↔ flag = true := by
  unfold setEpollin
  cases flag <;> split <;> simp_all [epollCtlMod]

@[simp] theorem setEpollin_armed_out :
    Armed (s.setEpollin k flag).epollEvent EPOLLOUT ↔ Armed s.epollEvent EPOLLOUT := by
  unfold setEpollin
  cases flag <;> split <;> simp [epollCtlMod]

variable {k flag s}

/-- While `epoll_ctl` succeeds the kernel holds the mask the object holds. -/
theorem setEpollout_interest (hctl : ∀ i, k.epollCtl i = true) (h : s.interest = s.epollEvent) :
    (s.setEpollout k flag).interest = (s.setEpollout k flag).epollEvent := by
  unfold setEpollout
  cases flag <;> split <;> simp [epollCtlMod, hctl, h]

theorem setEpollin_interest (hctl : ∀ i, k.epollCtl i = true) (h : s.interest = s.epollEvent) :
    (s.setEpollin k flag).interest = (s.setEpollin k flag).epollEvent := by
  unfold setEpollin
  cases flag <;> split <;> simp [epollCtlMod, hctl, h]

/-! ### What a call can do -/

/-- The state with `data` received, `EPOLLIN` armed unless the ring is full. -/
def deliver (k : Answers) (data : List UInt8) (s : State) : State :=
  setEpollin k (decide (s.buf.used + data.length < maxPktSize - 1))
    { s with
      buf := (s.buf.scatter (s.buf.getBlankIovec maxPktSize) data).addExist data.length
      received := s.received ++ data }

/-- The state with the first `n` bytes sent, `EPOLLOUT` armed unless none is left. -/
def release (k : Answers) (n : ℕ) (s : State) : State :=
  setEpollout k (decide (n < s.buf.used))
    { s with buf := s.buf.addBlank n, sent := s.sent ++ (s.buf.contents maxPktSize).take n }

theorem recvTail_eq (hok : s.buf.Ok maxPktSize) (data : List UInt8)
    (hn : data.length ≤ maxPktSize - 1 - s.buf.used) :
    recvTail k data.length
        { s with
          buf := s.buf.scatter (s.buf.getBlankIovec maxPktSize) data
          received := s.received ++ data } = ((data.length : ℤ), s.deliver k data) := by
  have hle : s.buf.used ≤ maxPktSize - 1 := hok
  have hused : (s.buf.scatter (s.buf.getBlankIovec maxPktSize) data).used + data.length ≤
      maxPktSize - 1 := by rw [used_scatter]; omega
  have hok' := ok_addExist pktSize hused
  have hblank := getBlankSize_eq pktSize hok'
  rw [used_addExist (hused.trans_lt (by decide)), used_scatter] at hblank
  simp only [recvTail, hblank]
  rw [if_neg (by omega)]
  split
  · rw [deliver, decide_eq_false (by omega)]
  · rw [deliver, decide_eq_true (by omega)]

theorem used_deliver {data : List UInt8} (hok : s.buf.Ok maxPktSize)
    (hn : data.length ≤ maxPktSize - 1 - s.buf.used) :
    (s.deliver k data).buf.used = s.buf.used + data.length := by
  have hle : s.buf.used ≤ maxPktSize - 1 := hok
  have hsum : s.buf.used + data.length ≤ maxPktSize - 1 := by omega
  rw [deliver, setEpollin_buf]
  exact used_addExist (hsum.trans_lt (by decide))

theorem used_release {n : ℕ} (hn : n ≤ s.buf.used) :
    (s.release k n).buf.used = s.buf.used - n := by
  rw [release, setEpollout_buf]
  exact used_addBlank hn

/-- **What `recv_buf` can do.**  On a full ring it makes no call; otherwise it
fails on the end of the stream or a hard error, and else delivers the bytes the
kernel has, none on `EAGAIN`. -/
theorem recvBuf_cases (k : Answers) (hok : s.buf.Ok maxPktSize) :
    (s.buf.used = maxPktSize - 1 ∧ s.recvBuf k = (0, s.setEpollin k false)) ∨
      (s.buf.used < maxPktSize - 1 ∧
        ((k.recvmsg (maxPktSize - 1 - s.buf.used) = .eof ∧ s.recvBuf k = (-1, s)) ∨
        (k.recvmsg (maxPktSize - 1 - s.buf.used) = .error ∧ s.recvBuf k = (-1, s)) ∨
        (k.recvmsg (maxPktSize - 1 - s.buf.used) ≠ .eof ∧
          s.recvBuf k = (((k.recvmsg (maxPktSize - 1 - s.buf.used)).data.length : ℤ),
            s.deliver k (k.recvmsg (maxPktSize - 1 - s.buf.used)).data)))) := by
  have hle : s.buf.used ≤ maxPktSize - 1 := hok
  have hblank := getBlankSize_eq pktSize hok
  have htotal := totalLen_getBlankIovec pktSize hok
  simp only [recvBuf, hblank]
  rw [if_neg (by omega)]
  split
  · exact Or.inl ⟨by omega, rfl⟩
  · refine Or.inr ⟨by omega, ?_⟩
    rw [htotal]
    cases hr : k.recvmsg (maxPktSize - 1 - s.buf.used) with
    | eof => exact Or.inl ⟨rfl, rfl⟩
    | error => exact Or.inr (Or.inl ⟨rfl, rfl⟩)
    | again =>
      have htail := recvTail_eq (k := k) hok [] (Nat.zero_le _)
      rw [scatter_nil, List.append_nil] at htail
      refine Or.inr (Or.inr ⟨by simp, ?_⟩)
      rw [recvWith]
      exact htail
    | bytes data _ le =>
      refine Or.inr (Or.inr ⟨by simp, ?_⟩)
      rw [recvWith]
      exact recvTail_eq hok data le

theorem sendTail_eq (hok : s.buf.Ok maxPktSize) {n : ℕ} (hn : n ≤ s.buf.used) :
    sendTail k n { s with sent := s.sent ++ s.buf.gather (s.buf.getExistIovec maxPktSize) n } =
      ((n : ℤ), s.release k n) := by
  have hle : s.buf.used ≤ maxPktSize - 1 := hok
  have hexist := getExistSize_eq pktSize (ok_addBlank hok hn)
  rw [used_addBlank hn] at hexist
  simp only [sendTail, hexist, gather_exist pktSize hok]
  rw [if_neg (by omega)]
  split
  · rw [release, decide_eq_false (by omega)]
  · rw [release, decide_eq_true (by omega)]

/-- **What `send_buf` can do.**  On an empty ring it makes no call; otherwise it
fails on a hard error, and else releases the bytes the kernel took, none on
`EAGAIN`. -/
theorem sendBuf_cases (k : Answers) (sendmsg : (n : ℕ) → SendResult n)
    (hok : s.buf.Ok maxPktSize) :
    (s.buf.used = 0 ∧ s.sendBuf k sendmsg = (0, s.setEpollout k false)) ∨
      (0 < s.buf.used ∧
        ((sendmsg s.buf.used = .error ∧ s.sendBuf k sendmsg = (-1, s)) ∨
        s.sendBuf k sendmsg =
          (((sendmsg s.buf.used).count : ℤ), s.release k (sendmsg s.buf.used).count))) := by
  have hexist := getExistSize_eq pktSize hok
  have htotal := totalLen_getExistIovec pktSize hok
  simp only [sendBuf, hexist]
  rw [if_neg (by omega)]
  split
  · exact Or.inl ⟨by omega, rfl⟩
  · refine Or.inr ⟨by omega, ?_⟩
    rw [htotal]
    cases hr : sendmsg s.buf.used with
    | error => exact Or.inl ⟨rfl, rfl⟩
    | again =>
      refine Or.inr ?_
      have htail := sendTail_eq (k := k) hok (Nat.zero_le s.buf.used)
      rw [gather_zero, List.append_nil] at htail
      rw [sendWith]
      exact htail
    | sent len le =>
      refine Or.inr ?_
      rw [sendWith]
      exact sendTail_eq hok le

theorem handleWrite_ret : (s.handleWrite k).1 = 0 ∨ (s.handleWrite k).1 = -1 := by
  unfold State.handleWrite
  generalize s.sendBuf k k.sendmsgOut = r
  obtain ⟨sendLen, t⟩ := r
  dsimp only
  split_ifs <;> simp

theorem handleRead_ret : (s.handleRead k).1 = 0 ∨ (s.handleRead k).1 = -1 := by
  unfold State.handleRead
  generalize s.recvBuf k = r
  obtain ⟨recvLen, t⟩ := r
  generalize hsend : t.sendBuf k k.sendmsgIn = r
  obtain ⟨sendLen, u⟩ := r
  dsimp only
  rw [hsend]
  dsimp only
  split_ifs <;> simp

/-! ### What every call keeps -/

/-- `P` implies a well-formed ring and survives the four things a call of
`handle` is made of. -/
structure Kept (k : Answers) (P : State → Prop) : Prop where
  ok : ∀ s, P s → s.buf.Ok maxPktSize
  setEpollin : ∀ s flag, P s → P (s.setEpollin k flag)
  setEpollout : ∀ s flag, P s → P (s.setEpollout k flag)
  deliver : ∀ s data, data.length ≤ maxPktSize - 1 - s.buf.used → P s → P (s.deliver k data)
  release : ∀ s n, n ≤ s.buf.used → P s → P (s.release k n)

namespace Kept

variable {P : State → Prop}

theorem recvBuf (hP : Kept k P) (h : P s) : P (s.recvBuf k).2 := by
  rcases recvBuf_cases k (hP.ok s h) with ⟨_, he⟩ | ⟨_, ⟨_, he⟩ | ⟨_, he⟩ | ⟨_, he⟩⟩
  · rw [he]; exact hP.setEpollin s _ h
  · rw [he]; exact h
  · rw [he]; exact h
  · rw [he]; exact hP.deliver s _ (RecvResult.length_data_le _) h

theorem sendBuf (hP : Kept k P) (h : P s) (sendmsg : (n : ℕ) → SendResult n) :
    P (s.sendBuf k sendmsg).2 := by
  rcases sendBuf_cases k sendmsg (hP.ok s h) with ⟨_, he⟩ | ⟨_, ⟨_, he⟩ | he⟩
  · rw [he]; exact hP.setEpollout s _ h
  · rw [he]; exact h
  · rw [he]; exact hP.release s _ (SendResult.count_le _) h

theorem handleWrite (hP : Kept k P) (h : P s) : P (s.handleWrite k).2 := by
  have hsend := hP.sendBuf h k.sendmsgOut
  unfold State.handleWrite
  generalize s.sendBuf k k.sendmsgOut = r at hsend ⊢
  obtain ⟨sendLen, t⟩ := r
  dsimp only at hsend ⊢
  split
  · exact hsend
  · split
    · exact hP.setEpollin t _ hsend
    · exact hsend

theorem handleRead (hP : Kept k P) (h : P s) : P (s.handleRead k).2 := by
  have hrecv := hP.recvBuf h
  unfold State.handleRead
  generalize s.recvBuf k = r at hrecv ⊢
  obtain ⟨recvLen, t⟩ := r
  dsimp only at hrecv ⊢
  split
  · exact hrecv
  split
  · have hsend := hP.sendBuf hrecv k.sendmsgIn
    generalize t.sendBuf k k.sendmsgIn = r at hsend ⊢
    obtain ⟨sendLen, u⟩ := r
    dsimp only at hsend ⊢
    split
    · exact hsend
    · split
      · exact hP.setEpollin u _ hsend
      · exact hsend
  · exact hrecv

theorem handleIn (hP : Kept k P) (h : P s) (ev : BitVec 32) : P (s.handleIn ev k).2 := by
  have hread := hP.handleRead h
  unfold State.handleIn
  generalize s.handleRead k = r at hread ⊢
  obtain ⟨ret, t⟩ := r
  dsimp only at hread ⊢
  split
  · split <;> exact hread
  · exact h

/-- **The rule for `handle`.**  What its parts keep, every call keeps, also one
that fails. -/
theorem handle (hP : Kept k P) (h : P s) (ev : BitVec 32) : P (s.handle ev k).2 := by
  have hwrite := hP.handleWrite h
  unfold State.handle
  generalize s.handleWrite k = r at hwrite ⊢
  obtain ⟨ret, t⟩ := r
  dsimp only at hwrite ⊢
  split
  · exact h
  · split
    · split
      · exact hwrite
      · exact hP.handleIn hwrite ev
    · exact hP.handleIn h ev

end Kept

end State

/-- One call of `handle`: the reported events and the kernel's answers. -/
structure Call where
  ev : BitVec 32
  answers : Answers

/-- One connection, from its constructor on: a step is a call of `handle` that
returns `0`. -/
def server : Lib.System State Call where
  init s := ∃ mem added, s = State.fresh mem added
  step s c t := s.handle c.ev c.answers = (0, t)

/-- **The rule for runs.** -/
theorem run_kept {P : State → Prop} {calls : List Call} {s t : State}
    (hP : ∀ c ∈ calls, State.Kept c.answers P) (h : server.Run s calls t) (hs : P s) : P t := by
  induction h with
  | nil => exact hs
  | @snoc t u ls c _ hstep ih =>
    have ht := ih fun c hc => hP c (List.mem_append_left _ hc)
    have hkeep := (hP c (by simp)).handle ht c.ev
    rwa [show t.handle c.ev c.answers = (0, u) from hstep] at hkeep

/-- Three bytes arrive and the socket takes the first. -/
def firstCall : Call where
  ev := EPOLLIN
  answers :=
    { recvmsg := fun n => if h : 3 ≤ n then .bytes [7, 8, 9] (by decide) h else .again
      sendmsgOut := fun _ => .again
      sendmsgIn := fun n => if h : 1 ≤ n then .sent 1 h else .again
      epollCtl := fun _ => true }

/-- The state behind `firstCall` on a fresh connection. -/
def afterFirstCall : State := ((State.fresh (fun _ => 0) true).handle firstCall.ev firstCall.answers).2

theorem run_firstCall : server.Run (State.fresh (fun _ => 0) true) [firstCall] afterFirstCall :=
  .single (l := firstCall) (Prod.ext (by decide) rfl)

end CppProgramming.Socket.EchoLt
