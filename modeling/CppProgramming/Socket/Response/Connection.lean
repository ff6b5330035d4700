import CppProgramming.Lib.Transition
import CppProgramming.Socket.RingBuffer
import CppProgramming.Socket.Kernel

/-!
# The request/response connection

`Connection` of `tcp_echo/server_epollout_response.cpp`, function by function.
Eight received bytes are one request, whatever they are, and each request is
answered by a copy of `response_buf`.  `response_cnt` counts the requests whose
answer has not been begun and `response_pos` says how far the current answer is.

`Answers` are the kernel's answers during one call of `handle`.  The loops of
`recv_buf_native` and `send_response` make any number of calls, so the answers
are numbered.

The two loops that are not over a list recurse on what they test:
`countRequests` on the bytes in the ring, `sendLoop` on the bytes still to send.
`response_cnt++` overflows after `2 ^ 63` unanswered requests; that is undefined
in C++ and `none` here.
-/

namespace CppProgramming.Socket.Response

open RingBuffer

def maxPktSize : ℕ := 64

theorem pktSize : PktSize maxPktSize := ⟨by decide, by decide, ⟨2 ^ 58, by decide⟩⟩

def responseSize : ℕ := 256 * 1024 * 1024

theorem responseSize_eq : responseSize = 268435456 := rfl

/-- `response_buf[i] = i`, as `main` fills it. -/
def responseBuf (i : ℕ) : UInt8 := UInt8.ofNat i

structure State where
  buf : RingBuffer
  responseCnt : ℤ
  responsePos : ℤ
  enableEpollout : Bool
  received : List UInt8
  sent : List UInt8
  interest : BitVec 32
  ctlCalls : ℕ

structure Answers where
  recv : ℕ → (n : ℕ) → RecvResult n
  sendOut : ℕ → (n : ℕ) → SendResult n
  sendIn : ℕ → (n : ℕ) → SendResult n
  epollCtl : ℕ → Bool

namespace State

/-- The constructor.  `added` tells whether its `epoll_ctl` succeeded; `mem` is
what the new array happens to hold. -/
def fresh (mem : ℕ → UInt8) (added : Bool) : State where
  buf := RingBuffer.new mem
  responseCnt := 0
  responsePos := responseSize
  enableEpollout := false
  received := []
  sent := []
  interest := if added then EPOLLIN else 0
  ctlCalls := 0

/-- A failure of `epoll_ctl` is only printed. -/
def setEpollout (k : Answers) (flag : Bool) (s : State) : State :=
  { s with
    interest :=
      if k.epollCtl s.ctlCalls then EPOLLIN ||| (if flag then EPOLLOUT else 0) else s.interest
    ctlCalls := s.ctlCalls + 1
    enableEpollout := flag }

/-! ### Receiving -/

/-- `recv` put `data` into the segment `v`. -/
def recvInto (v : IoVec) (data : List UInt8) (s : State) : State :=
  { s with
    buf := (s.buf.scatter [v] data).addExist data.length
    received := s.received ++ data }

/-- The loop of `recv_buf_native`, which is about to fill the `i`-th segment. -/
def recvSegments (k : Answers) : List IoVec → ℕ → ℤ → State → ℤ × State
  | [], _, ret, s => (ret, s)
  | v :: iov, i, ret, s =>
    let r := k.recv i v.len
    if r.failed then (-1, s)
    else
      let recvLen := r.data.length
      let s := s.recvInto v r.data
      if recvLen < v.len then (ret + recvLen, s)
      else recvSegments k iov (i + 1) (ret + recvLen) s

def recvBufNative (k : Answers) (s : State) : ℤ × State :=
  if s.buf.getBlankSize maxPktSize ≤ 0 then (0, s)
  else recvSegments k (s.buf.getBlankIovec maxPktSize) 0 0 s

/-- `response_cnt++; buf.add_blank(8);` -/
def takeRequest (s : State) : State :=
  { s with responseCnt := s.responseCnt + 1, buf := s.buf.addBlank 8 }

/-- The loop of `recv_request`. -/
def countRequests (s : State) : Option State :=
  if h : 8 ≤ s.buf.getExistSize then
    if s.responseCnt = 2 ^ 63 - 1 then none
    else countRequests s.takeRequest
  else some s
termination_by s.buf.getExistSize.toNat
decreasing_by exact getExistSize_addBlank_eight h

/-! ### Sending -/

/-- There is something left to send. -/
def Pending (s : State) : Prop := 0 < s.responseCnt ∨ s.responsePos < responseSize

instance (s : State) : Decidable s.Pending := inferInstanceAs (Decidable (_ ∨ _))

/-- Begin the next answer where the last one is complete. -/
def nextResponse (s : State) : State :=
  if s.responsePos = responseSize then
    if 0 < s.responseCnt then { s with responseCnt := s.responseCnt - 1, responsePos := 0 } else s
  else s

/-- `send` took `n` bytes of `response_buf` from `response_pos` on. -/
def sendSome (n : ℕ) (s : State) : State :=
  { s with
    responsePos := s.responsePos + n
    sent := s.sent ++ (List.range' s.responsePos.toNat n).map responseBuf }

/-- The bytes of the current answer still to send. -/
def unsent (s : State) : ℕ := ((responseSize : ℤ) - s.responsePos).toNat

theorem nextResponse_pos_ne {s : State} (h : s.Pending) :
    s.nextResponse.responsePos ≠ responseSize := by
  unfold Pending at h
  unfold nextResponse
  rw [responseSize_eq] at *
  split
  · rw [if_pos (by omega)]
    simp
  · assumption

/-- Each round that sends something either begins an answer or goes on with one. -/
theorem round_decreases {n : ℕ} {s : State} (hpos : 0 < n) (hn : n ≤ s.nextResponse.unsent) :
    (s.nextResponse.sendSome n).responseCnt.toNat < s.responseCnt.toNat ∨
      (s.nextResponse.sendSome n).responseCnt.toNat = s.responseCnt.toNat ∧
        (s.nextResponse.sendSome n).unsent < s.unsent := by
  unfold nextResponse unsent at hn ⊢
  simp only [sendSome]
  split
  · split
    · refine Or.inl ?_
      simp only
      omega
    · rename_i hfull hcnt
      rw [if_pos hfull, if_neg hcnt] at hn
      omega
  · rename_i hfull
    rw [if_neg hfull] at hn
    refine Or.inr ⟨rfl, ?_⟩
    omega

/-- The loop of `send_response`, which is about to make its `i`-th `send`. -/
def sendLoop (k : Answers) (send : ℕ → (n : ℕ) → SendResult n) (i : ℕ) (s : State) : ℤ × State :=
  if h : s.Pending then
    let r := send i s.nextResponse.unsent
    if r.failed then (-1, s.nextResponse)
    else
      let sendLen := r.count
      let t := s.nextResponse.sendSome sendLen
      if hdone : t.responseCnt = 0 ∧ t.responsePos = responseSize then
        sendLoop k send (i + 1) (if t.enableEpollout then t.setEpollout k false else t)
      else if hlen : sendLen = 0 then
        (0, if t.enableEpollout then t else t.setEpollout k true)
      else sendLoop k send (i + 1) t
  else (0, s)
termination_by (s.responseCnt.toNat, s.unsent)
decreasing_by
  · have hcount : 0 < r.count := by
      have hne := nextResponse_pos_ne h
      have hpos : s.nextResponse.responsePos + (r.count : ℤ) = responseSize := hdone.2
      omega
    rw [Prod.lex_iff]
    split <;> exact round_decreases hcount r.count_le
  · have hcount : 0 < r.count := Nat.pos_of_ne_zero hlen
    rw [Prod.lex_iff]
    exact round_decreases hcount r.count_le

def sendResponse (k : Answers) (send : ℕ → (n : ℕ) → SendResult n) (s : State) : ℤ × State :=
  sendLoop k send 0 s

/-! ### The two events -/

def recvRequest (k : Answers) (s : State) : Option (ℤ × State) :=
  let (ret, s) := s.recvBufNative k
  if ret < 0 then some (-1, s)
  else
    s.countRequests.map fun s =>
      let (ret, s) := s.sendResponse k k.sendIn
      if ret < 0 then (-1, s) else (0, s)

def handleRead (k : Answers) (s : State) : Option (ℤ × State) :=
  (s.recvRequest k).map fun (ret, s) => if ret < 0 then (-1, s) else (0, s)

def handleWrite (k : Answers) (s : State) : ℤ × State :=
  let (ret, s) := s.sendResponse k k.sendOut
  if ret < 0 then (-1, s) else (0, s)

/-- The `EPOLLIN` half of `handle`. -/
def handleIn (ev : BitVec 32) (k : Answers) (s : State) : Option (ℤ × State) :=
  if Armed ev EPOLLIN then
    (s.handleRead k).map fun (ret, s) => if ret < 0 then (ret, s) else (0, s)
  else some (0, s)

def handle (ev : BitVec 32) (k : Answers) (s : State) : Option (ℤ × State) :=
  if ev &&& ~~~(EPOLLIN ||| EPOLLOUT) ≠ 0 then some (-1, s)
  else if Armed ev EPOLLOUT then
    let (ret, s) := s.handleWrite k
    if ret < 0 then some (ret, s) else s.handleIn ev k
  else s.handleIn ev k

end State

/-- One call of `handle`: the reported events and the kernel's answers. -/
structure Call where
  ev : BitVec 32
  answers : Answers

/-- One connection, from its constructor on: a step is a call of `handle` that
returns `0`. -/
def server : Lib.System State Call where
  init s := ∃ mem added, s = State.fresh mem added
  step s c t := s.handle c.ev c.answers = some (0, t)

/-- Nine bytes arrive, a request and the first byte of the next, and the socket
takes none. -/
def firstCall : Call where
  ev := EPOLLIN
  answers :=
    { recv := fun _ n => if h : 9 ≤ n then .bytes [1, 2, 3, 4, 5, 6, 7, 8, 9] (by decide) h else .again
      sendOut := fun _ _ => .again
      sendIn := fun _ _ => .again
      epollCtl := fun _ => true }

/-- What `firstCall` finds received on a fresh connection. -/
def firstRead : State := ((State.fresh (fun _ => 0) true).recvBufNative firstCall.answers).2

/-- The state behind `firstCall` on a fresh connection. -/
def afterFirstCall : State :=
  (firstRead.takeRequest.nextResponse.sendSome 0).setEpollout firstCall.answers true

theorem countRequests_firstRead : firstRead.countRequests = some firstRead.takeRequest := by
  rw [State.countRequests, dif_pos (by decide), if_neg (by decide), State.countRequests,
    dif_neg (by decide)]

theorem sendResponse_firstRead :
    firstRead.takeRequest.sendResponse firstCall.answers firstCall.answers.sendIn =
      (0, afterFirstCall) := by
  rw [State.sendResponse, State.sendLoop, dif_pos (by decide)]
  rfl

theorem run_firstCall : server.Run (State.fresh (fun _ => 0) true) [firstCall] afterFirstCall := by
  refine .single (l := firstCall) ?_
  have hrecv : (State.fresh (fun _ => 0) true).recvBufNative firstCall.answers = (9, firstRead) :=
    Prod.ext (by decide) rfl
  have hread : (State.fresh (fun _ => 0) true).recvRequest firstCall.answers =
      some (0, afterFirstCall) := by
    rw [State.recvRequest, hrecv]
    dsimp only
    rw [if_neg (by decide), countRequests_firstRead, Option.map_some, sendResponse_firstRead]
    rfl
  change State.handle firstCall.ev firstCall.answers (State.fresh _ _) = _
  rw [State.handle, if_neg (by decide), if_neg (by decide), State.handleIn, if_pos (by decide),
    State.handleRead, hread]
  rfl

end CppProgramming.Socket.Response
