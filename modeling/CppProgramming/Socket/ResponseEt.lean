import CppProgramming.Lib.Transition
import CppProgramming.Socket.RingBuffer
import CppProgramming.Socket.Kernel

/-!
# The edge-triggered request/response connection

`Connection` of `tcp_echo/server_epollet_epollout_response.cpp`, function by function.  It
is registered once, for both events and edge-triggered, and has no flag for `EPOLLOUT`:
what brings it back to an answer that is not complete is the edge that follows a `send`
which found the socket full.

So the loop of `send_response` must not leave before it has met `EAGAIN` or has nothing left
to send (`sendLoop_settled`).  `last_again` is not a field of the class; it notes whether
the most recent `send` answered `EAGAIN`.
-/

namespace CppProgramming.Socket.ResponseEt

open RingBuffer

def maxPktSize : ℕ := 4096

def responseSize : ℕ := 256 * 1024 * 1024

theorem responseSize_eq : responseSize = 268435456 := rfl

/-- `response_buf` is a global array that nobody writes. -/
def responseBuf (_ : ℕ) : UInt8 := 0

structure State where
  buf : RingBuffer
  responseCnt : ℤ
  responsePos : ℤ
  received : List UInt8
  sent : List UInt8
  lastAgain : Bool

/-- The kernel's answers during one call of `handle`. -/
structure Answers where
  recvmsg : (n : ℕ) → RecvResult n
  sendOut : ℕ → (n : ℕ) → SendResult n
  sendIn : ℕ → (n : ℕ) → SendResult n

namespace State

/-- The constructor; `mem` is what the new array happens to hold. -/
def fresh (mem : ℕ → UInt8) : State where
  buf := RingBuffer.new mem
  responseCnt := 0
  responsePos := responseSize
  received := []
  sent := []
  lastAgain := false

/-! ### Receiving -/

/-- The bytes are in the segments; `buf.add_exist(recv_len);`. -/
def receive (data : List UInt8) (s : State) : State :=
  { s with
    buf := (s.buf.scatter (s.buf.getBlankIovec maxPktSize) data).addExist data.length
    received := s.received ++ data }

/-- Also `EAGAIN` makes it fail. -/
def recvBuf (k : Answers) (s : State) : ℤ × State :=
  if s.buf.getBlankSize maxPktSize ≤ 0 then (-1, s)
  else
    match k.recvmsg (totalLen (s.buf.getBlankIovec maxPktSize)) with
    | .bytes data _ _ => (data.length, s.receive data)
    | .eof => (-1, s)
    | .again => (-1, s)
    | .error => (-1, s)

/-- `response_cnt++; buf.add_blank(8);` -/
def takeRequest (s : State) : State :=
  { s with responseCnt := s.responseCnt + 1, buf := s.buf.addBlank 8 }

/-- The loop of `recv_request`.  The overflow of `response_cnt` is undefined. -/
def countRequests (s : State) : Option State :=
  if h : 8 ≤ s.buf.getExistSize then
    if s.responseCnt = 2 ^ 63 - 1 then none
    else countRequests s.takeRequest
  else some s
termination_by s.buf.getExistSize.toNat
decreasing_by exact getExistSize_addBlank_eight h

/-! ### Sending -/

/-- There is something left to send. -/
def Pending (s : State) : Prop := 0 < s.responseCnt ∨ s.responsePos < responseSize

instance (s : State) : Decidable s.Pending := inferInstanceAs (Decidable (_ ∨ _))

/-- Begin the next answer where the last one is complete. -/
def nextResponse (s : State) : State :=
  if s.responsePos = responseSize then
    if 0 < s.responseCnt then { s with responseCnt := s.responseCnt - 1, responsePos := 0 } else s
  else s

/-- The bytes of the current answer still to send. -/
def unsent (s : State) : ℕ := ((responseSize : ℤ) - s.responsePos).toNat

/-- `send` has answered `r`. -/
def answered {n : ℕ} (r : SendResult n) (s : State) : State :=
  { s with
    responsePos := s.responsePos + r.count
    sent := s.sent ++ (List.range' s.responsePos.toNat r.count).map responseBuf
    lastAgain := r.isAgain }

/-- Either the next answer is begun, or the current one is not complete. -/
theorem nextResponse_cases {s : State} (hp : s.Pending) :
    (0 < s.responseCnt ∧ s.nextResponse.responseCnt = s.responseCnt - 1 ∧
        s.nextResponse.responsePos = 0) ∨
      (s.responsePos ≠ responseSize ∧ s.nextResponse.responseCnt = s.responseCnt ∧
        s.nextResponse.responsePos = s.responsePos) := by
  unfold Pending at hp
  rw [nextResponse]
  by_cases hfull : s.responsePos = responseSize
  · have hcnt : 0 < s.responseCnt := by omega
    rw [if_pos hfull, if_pos hcnt]
    exact Or.inl ⟨hcnt, rfl, rfl⟩
  · rw [if_neg hfull]
    exact Or.inr ⟨hfull, rfl, rfl⟩

/-- A round that sends something begins an answer or goes on with one. -/
theorem round_decreases {s : State} (hp : s.Pending) {r : SendResult s.nextResponse.unsent}
    (hpos : 0 < r.count) :
    (s.nextResponse.answered r).responseCnt.toNat < s.responseCnt.toNat ∨
      (s.nextResponse.answered r).responseCnt.toNat = s.responseCnt.toNat ∧
        (s.nextResponse.answered r).unsent < s.unsent := by
  have hn : r.count ≤ ((responseSize : ℤ) - s.nextResponse.responsePos).toNat := r.count_le
  show s.nextResponse.responseCnt.toNat < s.responseCnt.toNat ∨
    s.nextResponse.responseCnt.toNat = s.responseCnt.toNat ∧
      ((responseSize : ℤ) - (s.nextResponse.responsePos + r.count)).toNat <
        ((responseSize : ℤ) - s.responsePos).toNat
  rcases nextResponse_cases hp with ⟨hcnt, hnext, -⟩ | ⟨-, hnext, hpos'⟩
  · left
    omega
  · right
    exact ⟨congrArg Int.toNat hnext, by omega⟩

/-- The loop of `send_response`, which is about to make its `i`-th `send`. -/
def sendLoop (send : ℕ → (n : ℕ) → SendResult n) (i : ℕ) (s : State) : ℤ × State :=
  if h : s.Pending then
    let r := send i s.nextResponse.unsent
    let t := s.nextResponse.answered r
    if r.failed then (-1, t)
    else if hdone : t.responseCnt = 0 ∧ t.responsePos = responseSize then sendLoop send (i + 1) t
    else if hlen : r.count = 0 then (0, t)
    else sendLoop send (i + 1) t
  else (0, s)
termination_by (s.responseCnt.toNat, s.unsent)
decreasing_by
  · have hcount : 0 < r.count := by
      have hpos : s.nextResponse.responsePos + (r.count : ℤ) = responseSize := hdone.2
      have hsize := responseSize_eq
      rcases nextResponse_cases h with ⟨-, -, hzero⟩ | ⟨hne, -, hsame⟩ <;> omega
    rw [Prod.lex_iff]
    exact round_decreases h hcount
  · rw [Prod.lex_iff]
    exact round_decreases h (Nat.pos_of_ne_zero hlen)

def sendResponse (send : ℕ → (n : ℕ) → SendResult n) (s : State) : ℤ × State := sendLoop send 0 s

/-! ### The two events -/

def recvRequest (k : Answers) (s : State) : Option (ℤ × State) :=
  let (ret, s) := s.recvBuf k
  if ret < 0 then some (-1, s)
  else
    s.countRequests.map fun s =>
      let (ret, s) := s.sendResponse k.sendIn
      if ret < 0 then (-1, s) else (0, s)

def handleRead (k : Answers) (s : State) : Option (ℤ × State) :=
  (s.recvRequest k).map fun (ret, s) => if ret < 0 then (-1, s) else (0, s)

def handleWrite (k : Answers) (s : State) : ℤ × State :=
  let (ret, s) := s.sendResponse k.sendOut
  if ret < 0 then (-1, s) else (0, s)

/-- The `EPOLLIN` half of `handle`. -/
def handleIn (ev : BitVec 32) (k : Answers) (s : State) : Option (ℤ × State) :=
  if Armed ev EPOLLIN then
    (s.handleRead k).map fun (ret, s) => if ret < 0 then (ret, s) else (0, s)
  else some (0, s)

def handle (ev : BitVec 32) (k : Answers) (s : State) : Option (ℤ × State) :=
  if ev &&& ~~~(EPOLLIN ||| EPOLLOUT) ≠ 0 then some (-1, s)
  else if Armed ev EPOLLOUT then
    let (ret, s) := s.handleWrite k
    if ret < 0 then some (ret, s) else s.handleIn ev k
  else s.handleIn ev k

end State

/-- One call of `handle`: the reported events and the kernel's answers. -/
structure Call where
  ev : BitVec 32
  answers : Answers

/-- One connection, from its constructor on: a step is a call of `handle` that returns `0`. -/
def server : Lib.System State Call where
  init s := ∃ mem, s = State.fresh mem
  step s c t := s.handle c.ev c.answers = some (0, t)

/-- `send` does not return `0` for a non-zero length. -/
def Nonzero (send : ℕ → (n : ℕ) → SendResult n) : Prop :=
  ∀ i n le, 0 < n → send i n ≠ .sent 0 le

namespace State

/-! ### No answer is stranded -/

/-- The response state between two sends. -/
structure Bounded (s : State) : Prop where
  cnt_nonneg : 0 ≤ s.responseCnt
  pos_nonneg : 0 ≤ s.responsePos
  pos_le : s.responsePos ≤ responseSize

/-- Nothing is left to send. -/
def Done (s : State) : Prop := s.responseCnt = 0 ∧ s.responsePos = responseSize

/-- **What holds between two calls**: nothing is left to send, or an edge is to come. -/
structure Settled (s : State) : Prop extends Bounded s where
  edge : s.Done ∨ s.lastAgain = true

variable {s : State} {k : Answers}

theorem Bounded.done (h : s.Bounded) (hp : ¬ s.Pending) : s.Done := by
  have hcnt := h.cnt_nonneg
  have hle := h.pos_le
  unfold Pending at hp
  exact ⟨by omega, by omega⟩

theorem Bounded.nextResponse (h : s.Bounded) (hp : s.Pending) :
    s.nextResponse.Bounded ∧ 0 < s.nextResponse.unsent := by
  have hsize := responseSize_eq
  have hle := h.pos_le
  have hcnt := h.cnt_nonneg
  have hpos := h.pos_nonneg
  simp only [unsent]
  rcases nextResponse_cases hp with ⟨hlt, hnext, hzero⟩ | ⟨hne, hnext, hsame⟩
  · exact ⟨⟨by omega, by omega, by omega⟩, by omega⟩
  · exact ⟨⟨by omega, by omega, by omega⟩, by omega⟩

theorem Bounded.answered (h : s.Bounded) (r : SendResult s.unsent) : (s.answered r).Bounded := by
  have hn : r.count ≤ ((responseSize : ℤ) - s.responsePos).toNat := r.count_le
  have hpos := h.pos_nonneg
  have hle := h.pos_le
  refine ⟨h.cnt_nonneg, ?_, ?_⟩
  · simp only [State.answered]
    omega
  · simp only [State.answered]
    omega

/-- A send that took nothing, and did not fail, met `EAGAIN`. -/
theorem isAgain_of_zero {send : ℕ → (n : ℕ) → SendResult n} (hsend : Nonzero send) {i n : ℕ}
    (hn : 0 < n) (hfail : ¬ (send i n).failed = true) (hzero : (send i n).count = 0) :
    (send i n).isAgain = true := by
  cases hr : send i n with
  | again => rfl
  | error =>
    rw [hr] at hfail
    exact absurd rfl hfail
  | sent len le =>
    rw [hr] at hzero
    obtain rfl : len = 0 := hzero
    exact absurd hr (hsend i n le hn)

/-- **The loop of `send_response`** leaves when nothing is left to send or on `EAGAIN`. -/
theorem sendLoop_settled {send : ℕ → (n : ℕ) → SendResult n} (hsend : Nonzero send) (i : ℕ)
    (s : State) (h : s.Bounded) (hret : 0 ≤ (sendLoop send i s).1) :
    (sendLoop send i s).2.Settled := by
  induction i, s using sendLoop.induct send with
  | case1 i s hp r hfail =>
    rw [sendLoop, dif_pos hp] at hret
    dsimp only at hret
    rw [if_pos hfail] at hret
    exact absurd hret (by simp)
  | case2 i s hp r t hfail hdone ih =>
    have ht : t.Bounded := (h.nextResponse hp).1.answered r
    rw [sendLoop, dif_pos hp] at hret ⊢
    dsimp only at hret ⊢
    rw [if_neg hfail, dif_pos hdone] at hret ⊢
    exact ih ht hret
  | case3 i s hp r t hfail hdone hlen =>
    obtain ⟨hnext, hunsent⟩ := h.nextResponse hp
    have ht : t.Bounded := hnext.answered r
    rw [sendLoop, dif_pos hp]
    dsimp only
    rw [if_neg hfail, dif_neg hdone, dif_pos hlen]
    exact ⟨ht, Or.inr (isAgain_of_zero hsend hunsent hfail hlen)⟩
  | case4 i s hp r t hfail hdone hlen ih =>
    have ht : t.Bounded := (h.nextResponse hp).1.answered r
    rw [sendLoop, dif_pos hp] at hret ⊢
    dsimp only at hret ⊢
    rw [if_neg hfail, dif_neg hdone, dif_neg hlen] at hret ⊢
    exact ih ht hret
  | case5 i s hp =>
    rw [sendLoop, dif_neg hp]
    exact ⟨h, Or.inl (h.done hp)⟩

theorem Bounded.recvBuf (h : s.Bounded) (k : Answers) : (s.recvBuf k).2.Bounded := by
  rw [State.recvBuf]
  split
  · exact h
  · split
    · exact ⟨h.cnt_nonneg, h.pos_nonneg, h.pos_le⟩
    · exact h
    · exact h
    · exact h

theorem Bounded.countRequests : ∀ {s t : State}, s.Bounded → s.countRequests = some t →
    t.Bounded := by
  intro s
  induction s using countRequests.induct with
  | case1 s hge hmax =>
    intro t _ heq
    rw [State.countRequests, dif_pos hge, if_pos hmax] at heq
    exact absurd heq (by simp)
  | case2 s hge hmax ih =>
    intro t h heq
    rw [State.countRequests, dif_pos hge, if_neg hmax] at heq
    exact ih ⟨Int.add_nonneg h.cnt_nonneg Int.one_nonneg, h.pos_nonneg, h.pos_le⟩ heq
  | case3 s hlt =>
    intro t h heq
    rw [State.countRequests, dif_neg hlt] at heq
    exact Option.some.inj heq ▸ h

/-! ### Calls and runs -/

theorem sendResponse_settled {send : ℕ → (n : ℕ) → SendResult n} (hsend : Nonzero send)
    (h : s.Bounded) {ret : ℤ} {t : State} (heq : s.sendResponse send = (ret, t)) (hret : 0 ≤ ret) :
    t.Settled := by
  have hloop := sendLoop_settled hsend 0 s h
  rw [show sendLoop send 0 s = (ret, t) from heq] at hloop
  exact hloop hret

theorem handleWrite_settled (hsend : Nonzero k.sendOut) (h : s.Bounded)
    (hret : 0 ≤ (s.handleWrite k).1) : (s.handleWrite k).2.Settled := by
  rw [handleWrite] at hret ⊢
  generalize heq : s.sendResponse k.sendOut = r at hret ⊢
  obtain ⟨ret, t⟩ := r
  dsimp only at hret ⊢
  split at hret
  · exact absurd hret (by simp)
  · rename_i hnn
    rw [if_neg hnn]
    exact sendResponse_settled hsend h heq (by omega)

theorem recvRequest_settled (hsend : Nonzero k.sendIn) (h : s.Bounded) {ret : ℤ} {t : State}
    (heq : s.recvRequest k = some (ret, t)) (hret : 0 ≤ ret) : t.Settled := by
  have hrecv := h.recvBuf k
  rw [recvRequest] at heq
  generalize s.recvBuf k = r at hrecv heq
  obtain ⟨recvRet, u⟩ := r
  dsimp only at hrecv heq
  split at heq
  · obtain ⟨rfl, -⟩ := Prod.mk.inj (Option.some.inj heq)
    exact absurd hret (by simp)
  obtain ⟨v, hcount, heq⟩ := Option.map_eq_some_iff.mp heq
  generalize hresp : v.sendResponse k.sendIn = r at heq
  obtain ⟨sendRet, w⟩ := r
  dsimp only at heq
  split at heq
  · obtain ⟨rfl, -⟩ := Prod.mk.inj heq
    exact absurd hret (by simp)
  · obtain ⟨-, rfl⟩ := Prod.mk.inj heq
    exact sendResponse_settled hsend (hrecv.countRequests hcount) hresp (by omega)

theorem handleIn_settled (hsend : Nonzero k.sendIn) (h : s.Settled) {ev : BitVec 32} {t : State}
    (heq : s.handleIn ev k = some (0, t)) : t.Settled := by
  rw [handleIn] at heq
  split at heq
  · obtain ⟨⟨readRet, u⟩, hread, hu⟩ := Option.map_eq_some_iff.mp heq
    obtain ⟨⟨recvRet, v⟩, hrecv, hv⟩ := Option.map_eq_some_iff.mp hread
    dsimp only at hu hv
    split at hu
    · obtain ⟨rfl, -⟩ := Prod.mk.inj hu
      exact absurd ‹(0 : ℤ) < 0› (lt_irrefl 0)
    · obtain ⟨-, rfl⟩ := Prod.mk.inj hu
      split at hv
      · obtain ⟨rfl, -⟩ := Prod.mk.inj hv
        exact absurd (show (-1 : ℤ) < 0 by decide) ‹¬ (-1 : ℤ) < 0›
      · obtain ⟨-, rfl⟩ := Prod.mk.inj hv
        exact recvRequest_settled hsend h.toBounded hrecv (by omega)
  · obtain ⟨-, rfl⟩ := Prod.mk.inj (Option.some.inj heq)
    exact h

/-- **A call that returns `0`** leaves nothing to send or an edge to come. -/
theorem handle_settled (hout : Nonzero k.sendOut) (hin : Nonzero k.sendIn) (h : s.Settled)
    {ev : BitVec 32} {t : State} (heq : s.handle ev k = some (0, t)) : t.Settled := by
  have hwrite := handleWrite_settled hout h.toBounded
  rw [handle] at heq
  generalize s.handleWrite k = r at hwrite heq
  obtain ⟨ret, u⟩ := r
  dsimp only at hwrite heq
  split at heq
  · exact absurd (Prod.mk.inj (Option.some.inj heq)).1 (by decide)
  split at heq
  · split at heq
    · obtain ⟨rfl, -⟩ := Prod.mk.inj (Option.some.inj heq)
      exact absurd ‹(0 : ℤ) < 0› (lt_irrefl 0)
    · exact handleIn_settled hin (hwrite (by omega)) heq
  · exact handleIn_settled hin h heq

theorem settled_fresh (mem : ℕ → UInt8) : (fresh mem).Settled :=
  ⟨⟨le_rfl, Int.natCast_nonneg _, le_rfl⟩, Or.inl ⟨rfl, rfl⟩⟩

end State

/-- **No answer is stranded.**  After every run of calls that all returned `0`, either all
work is done or the most recent `send` answered `EAGAIN`; and `response_pos` stays within
the answer. -/
theorem no_stranded_response {mem : ℕ → UInt8} {calls : List Call} {s : State}
    (h : server.Run (State.fresh mem) calls s)
    (hsend : ∀ c ∈ calls, Nonzero c.answers.sendOut ∧ Nonzero c.answers.sendIn) :
    (s.responseCnt = 0 ∧ s.responsePos = responseSize ∨ s.lastAgain = true) ∧
      s.responsePos ≤ responseSize := by
  have hsettled : s.Settled := by
    induction h with
    | nil => exact State.settled_fresh mem
    | @snoc s t calls c _ hstep ih =>
      obtain ⟨hout, hin⟩ := hsend c (by simp)
      exact State.handle_settled hout hin
        (ih fun c hc => hsend c (List.mem_append_left _ hc)) hstep
  exact ⟨hsettled.edge, hsettled.pos_le⟩

/-- A request arrives, and the socket takes none of the answer. -/
def firstCall : Call where
  ev := EPOLLIN
  answers :=
    { recvmsg := fun n => if h : 8 ≤ n then .bytes [1, 2, 3, 4, 5, 6, 7, 8] (by decide) h else .again
      sendOut := fun _ _ => .again
      sendIn := fun _ _ => .again }

/-- What `firstCall` finds received on a fresh connection. -/
def firstRead : State := ((State.fresh fun _ => 0).recvBuf firstCall.answers).2

/-- The state behind `firstCall` on a fresh connection. -/
def afterFirstCall : State := firstRead.takeRequest.nextResponse.answered (.again : SendResult 0)

theorem run_firstCall : server.Run (State.fresh fun _ => 0) [firstCall] afterFirstCall := by
  refine .single (l := firstCall) ?_
  have hrecv : (State.fresh fun _ => 0).recvBuf firstCall.answers = (8, firstRead) :=
    Prod.ext (by decide) rfl
  have hcount : firstRead.countRequests = some firstRead.takeRequest := by
    rw [State.countRequests, dif_pos (by decide), if_neg (by decide), State.countRequests,
      dif_neg (by decide)]
  have hsend : firstRead.takeRequest.sendResponse firstCall.answers.sendIn = (0, afterFirstCall) := by
    rw [State.sendResponse, State.sendLoop, dif_pos (by decide)]
    rfl
  have hread : (State.fresh fun _ => 0).recvRequest firstCall.answers = some (0, afterFirstCall) := by
    rw [State.recvRequest, hrecv]
    dsimp only
    rw [if_neg (by decide), hcount, Option.map_some, hsend]
    rfl
  change State.handle firstCall.ev firstCall.answers (State.fresh _) = _
  rw [State.handle, if_neg (by decide), if_neg (by decide), State.handleIn, if_pos (by decide),
    State.handleRead, hread]
  rfl

theorem no_stranded_response_firstCall :
    (afterFirstCall.responseCnt = 0 ∧ afterFirstCall.responsePos = responseSize ∨
        afterFirstCall.lastAgain = true) ∧
      afterFirstCall.responsePos ≤ responseSize := by
  refine no_stranded_response run_firstCall fun c hc => ?_
  rw [List.mem_singleton.mp hc]
  exact ⟨fun i n le _ => by simp [firstCall], fun i n le _ => by simp [firstCall]⟩

end CppProgramming.Socket.ResponseEt
