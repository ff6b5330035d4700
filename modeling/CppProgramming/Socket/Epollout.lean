import CppProgramming.Socket.RingBuffer
import CppProgramming.Socket.Kernel

/-!
# Two ways to send from the ring

`send_buf` and `send_buf_native` of `tcp_echo/server_epollout_handle.cpp`.  The first hands
all segments to one `sendmsg`; the second calls `send` for one segment after the other, and
tests behind each call whether to change the interest in `EPOLLOUT`.  `handle_read` uses the
one and `handle_write` the other, on the same connection.

The socket is part of the state, with the number of bytes that it still takes (`room`); both
calls take what fits, and answer `EAGAIN` when nothing does.  `sendSegments_eq` says that
sending a list of non-empty segments one by one is sending them all at once.
-/

namespace CppProgramming.Socket.Epollout

open CppProgramming.Lib RingBuffer

def maxPktSize : ℕ := 64

theorem pktSize : PktSize maxPktSize := ⟨by decide, by decide, ⟨2 ^ 58, by decide⟩⟩

structure State where
  buf : RingBuffer
  enableEpollout : Bool
  room : ℕ
  sent : List UInt8
  interest : BitVec 32
  ctlCalls : ℕ

variable (epollCtl : ℕ → Bool)

namespace State

/-- A failure of `epoll_ctl` is only printed. -/
def setEpollout (flag : Bool) (s : State) : State :=
  { s with
    interest :=
      if epollCtl s.ctlCalls then EPOLLIN ||| (if flag then EPOLLOUT else 0) else s.interest
    ctlCalls := s.ctlCalls + 1
    enableEpollout := flag }

/-- `if (enable_epollout) set_epollout(false);` -/
def disable (s : State) : State := if s.enableEpollout then s.setEpollout epollCtl false else s

/-- `if (!enable_epollout) set_epollout(true);` -/
def enable (s : State) : State := if ¬ s.enableEpollout then s.setEpollout epollCtl true else s

/-- What the socket answers to `send` or `sendmsg` of `n` bytes. -/
def answer (n : ℕ) (s : State) : SendResult n :=
  if s.room = 0 then .again else .sent (min n s.room) (Nat.min_le_left _ _)

/-- The socket has taken `n` bytes from the segments; `buf.add_blank(n);`. -/
def transmit (iov : List IoVec) (n : ℕ) (s : State) : State :=
  { s with
    buf := s.buf.addBlank n
    room := s.room - n
    sent := s.sent ++ s.buf.gather iov n }

def sendBuf (s : State) : ℤ × State :=
  let toSend := s.buf.getExistSize
  if toSend ≤ 0 then (0, s)
  else
    let iov := s.buf.getExistIovec maxPktSize
    let r := s.answer (totalLen iov)
    if r.failed then (-1, s)
    else
      let sendLen := r.count
      let s := s.transmit iov sendLen
      (sendLen, if sendLen = toSend then s.disable epollCtl else s.enable epollCtl)

/-- The loop of `send_buf_native`. -/
def sendSegments (toSend : ℤ) : List IoVec → ℤ → State → ℤ × State
  | [], haveSend, s => (haveSend, s)
  | v :: iov, haveSend, s =>
    let r := s.answer v.len
    if r.failed then (-1, s)
    else
      let sendLen := r.count
      let s := s.transmit [v] sendLen
      let haveSend := haveSend + sendLen
      if haveSend = toSend then sendSegments toSend iov haveSend (s.disable epollCtl)
      else if sendLen < v.len then (haveSend, s.enable epollCtl)
      else sendSegments toSend iov haveSend s

def sendBufNative (s : State) : ℤ × State :=
  let toSend := s.buf.getExistSize
  if toSend ≤ 0 then (0, s)
  else sendSegments epollCtl toSend (s.buf.getExistIovec maxPktSize) 0 s

/-! ### Segment by segment -/

variable {s : State}

theorem failed_answer (n : ℕ) : (s.answer n).failed = false := by
  rw [answer]
  split <;> rfl

theorem count_answer (n : ℕ) : (s.answer n).count = min n s.room := by
  rw [answer]
  split
  · rename_i hroom
    rw [hroom, Nat.min_zero]
    rfl
  · rfl

/-- Only the first segment is read. -/
theorem transmit_first {v : IoVec} {n : ℕ} (h : n ≤ v.len) (iov : List IoVec) (s : State) :
    s.transmit (v :: iov) n = s.transmit [v] n := by
  have hlen : n ≤ (List.range' v.base v.len).length := by rwa [List.length_range']
  have hgather : s.buf.gather (v :: iov) n = s.buf.gather [v] n := by
    simp only [gather, positions, List.flatMap_cons, List.flatMap_nil, List.append_nil,
      List.take_append_of_le_length hlen]
  rw [transmit, transmit, hgather]

/-- The first segment is read to its end. -/
theorem transmit_add (v : IoVec) (iov : List IoVec) (n : ℕ) (s : State) :
    s.transmit (v :: iov) (v.len + n) = (s.transmit [v] v.len).transmit iov n := by
  have hlen : (List.range' v.base v.len).length = v.len := List.length_range'
  have hgather : s.buf.gather (v :: iov) (v.len + n) =
      s.buf.gather [v] v.len ++ s.buf.gather iov n := by
    have hlong : (List.range' v.base v.len).take (v.len + n) = List.range' v.base v.len :=
      List.take_of_length_le (by omega)
    have hexact : (List.range' v.base v.len).take v.len = List.range' v.base v.len :=
      List.take_of_length_le (by omega)
    simp only [gather, positions, List.flatMap_cons, List.flatMap_nil, List.append_nil]
    rw [List.take_append, List.map_append, hlong, hexact, hlen, Nat.add_sub_cancel_left]
  have hblank : s.buf.addBlank (v.len + n : ℕ) = (s.buf.addBlank v.len).addBlank n := by
    simp only [addBlank, BitVec.ofInt_natCast, BitVec.ofNat_add, BitVec.add_assoc]
  rw [transmit, transmit, transmit, hgather, hblank, ← List.append_assoc, Nat.sub_sub]
  rfl

/-- **One by one is all at once.** -/
theorem sendSegments_eq {iov : List IoVec} (hne : iov ≠ []) (hpos : ∀ v ∈ iov, 0 < v.len)
    (toSend haveSend : ℤ) (s : State) (hsum : toSend = haveSend + totalLen iov) :
    sendSegments epollCtl toSend iov haveSend s =
      (haveSend + min (totalLen iov) s.room,
        if min (totalLen iov) s.room = totalLen iov then
          (s.transmit iov (min (totalLen iov) s.room)).disable epollCtl
        else (s.transmit iov (min (totalLen iov) s.room)).enable epollCtl) := by
  induction iov generalizing haveSend s with
  | nil => exact absurd rfl hne
  | cons v iov ih =>
    obtain ⟨hv, hiov⟩ := List.forall_mem_cons.mp hpos
    have htotal : totalLen (v :: iov) = v.len + totalLen iov := rfl
    rw [sendSegments]
    simp only [failed_answer, count_answer, Bool.false_eq_true, if_false]
    rcases Nat.lt_or_ge s.room v.len with hroom | hroom
    · -- the socket is full before the end of the segment
      have hmin : min v.len s.room = s.room := by omega
      have hall : min (totalLen (v :: iov)) s.room = s.room := by omega
      have hnot : ¬ haveSend + (s.room : ℤ) = toSend := by omega
      rw [hmin, hall, if_neg hnot, if_pos hroom, if_neg (by omega),
        transmit_first hroom.le iov]
    · have hmin : min v.len s.room = v.len := by omega
      rw [hmin]
      by_cases hlast : iov = []
      · subst hlast
        have hlen : totalLen [v] = v.len := rfl
        have hdone : haveSend + (v.len : ℤ) = toSend := by omega
        rw [if_pos hdone, sendSegments, hlen, hmin, if_pos rfl]
      · have hrest : 0 < totalLen iov := by
          obtain ⟨w, rest, rfl⟩ := List.exists_cons_of_ne_nil hlast
          have hw := hiov w List.mem_cons_self
          exact Nat.add_pos_left hw _
        have hnot : ¬ haveSend + (v.len : ℤ) = toSend := by omega
        have hadd : min (totalLen (v :: iov)) s.room =
            v.len + min (totalLen iov) (s.room - v.len) := by omega
        have hstep := ih hlast hiov (haveSend + v.len) (s.transmit [v] v.len) (by omega)
        rw [if_neg hnot, if_neg (Nat.lt_irrefl _), hstep, hadd, transmit_add, htotal]
        refine Prod.ext ?_ ?_
        · show haveSend + (v.len : ℤ) + (min (totalLen iov) (s.room - v.len) : ℕ) = _
          omega
        · show (if min (totalLen iov) (s.room - v.len) = totalLen iov then _ else _) = _
          simp only [Nat.add_left_cancel_iff]
          rfl

end State

/-- **The two versions agree**: the same bytes in the same order, the same result, and the
same counters, interest and mask. -/
theorem send_buf_native_eq {s : State} (h : s.buf.Ok maxPktSize) :
    s.sendBufNative epollCtl = s.sendBuf epollCtl := by
  have hexist := getExistSize_eq pktSize h
  have htotal := totalLen_getExistIovec pktSize h
  rw [State.sendBufNative, State.sendBuf]
  simp only [State.failed_answer, State.count_answer, Bool.false_eq_true, if_false]
  rw [hexist]
  split
  · rfl
  · rename_i hdata
    have hpos : ∀ v ∈ s.buf.getExistIovec maxPktSize, 0 < v.len :=
      fun v hv => len_pos_of_mem_getExistIovec pktSize h (by omega) hv
    rw [State.sendSegments_eq epollCtl (getExistIovec_ne_nil _ _) hpos _ _ _ (by omega), htotal]
    simp only [Int.zero_add, Int.natCast_inj]

/-- A ring whose three bytes lie around the end of the array, and room for two of them. -/
def wrapped : State where
  buf := ⟨62, 65, UInt8.ofNat⟩
  enableEpollout := false
  room := 2
  sent := []
  interest := EPOLLIN
  ctlCalls := 0

theorem send_buf_native_eq_wrapped :
    (wrapped.sendBufNative fun _ => true) = wrapped.sendBuf fun _ => true :=
  send_buf_native_eq _ (show wrapped.buf.used ≤ maxPktSize - 1 by decide)

end CppProgramming.Socket.Epollout
