import CppProgramming.Socket.EchoLt.Connection

/-!
# Flow control of the level-triggered echo connection

The rule of `tcp_echo/outline.txt` for level triggering: `EPOLLOUT` is enabled
exactly while the buffer is not empty, `EPOLLIN` exactly while it is not full.

`recv_buf` settles the second half (`recvBuf_flow`) and may break the first, by
putting bytes into an empty ring; `handle_read` then calls `send_buf`, which
settles the first half (`sendBuf_flow`) and may break the second, by making room
in a full ring; and its callers arm `EPOLLIN` again whenever a byte was taken.
So a call that returns `0` ends with both (`handle_flow`), and at least one of
the two events is always armed (`flow_control`).
-/

namespace CppProgramming.Socket.EchoLt

open CppProgramming.Lib RingBuffer

/-- What level-triggered epoll reports for a descriptor, errors apart. -/
def levelReport (interest : BitVec 32) (readable writable : Bool) : BitVec 32 :=
  interest &&& ((if readable then EPOLLIN else 0) ||| (if writable then EPOLLOUT else 0))

theorem not_armed_in_of_report {interest : BitVec 32} {writable : Bool}
    (h : levelReport interest true writable = 0) : ¬ Armed interest EPOLLIN := by
  have hbit := congrArg (fun x => BitVec.getLsbD x 0) h
  rw [armed_in]
  cases writable <;> simpa [levelReport] using hbit

theorem not_armed_out_of_report {interest : BitVec 32} {readable : Bool}
    (h : levelReport interest readable true = 0) : ¬ Armed interest EPOLLOUT := by
  have hbit := congrArg (fun x => BitVec.getLsbD x 2) h
  rw [armed_out]
  cases readable <;> simpa [levelReport] using hbit

namespace State

/-- `EPOLLOUT` is enabled exactly while the ring is not empty. -/
def OutRule (s : State) : Prop := Armed s.epollEvent EPOLLOUT ↔ 0 < s.buf.used

/-- `EPOLLIN` is enabled exactly while the ring is not full. -/
def InRule (s : State) : Prop := Armed s.epollEvent EPOLLIN ↔ s.buf.used < maxPktSize - 1

/-- **The flow-control invariant.** -/
structure Flow (s : State) : Prop where
  ok : s.buf.Ok maxPktSize
  out : s.OutRule
  inp : s.InRule

theorem flow_fresh (mem : ℕ → UInt8) (added : Bool) : (fresh mem added).Flow where
  ok := by simp [fresh, Ok]
  out := by
    rw [OutRule, fresh, used_new]
    change Armed EPOLLIN EPOLLOUT ↔ 0 < 0
    decide
  inp := by
    rw [InRule, fresh, used_new]
    change Armed EPOLLIN EPOLLIN ↔ 0 < maxPktSize - 1
    decide

variable {k : Answers} {s : State}

theorem inRule_deliver {data : List UInt8} (hok : s.buf.Ok maxPktSize)
    (hn : data.length ≤ maxPktSize - 1 - s.buf.used) : (s.deliver k data).InRule := by
  rw [InRule, used_deliver hok hn, State.deliver, setEpollin_armed_in, decide_eq_true_iff]

theorem outRule_release {n : ℕ} (hn : n ≤ s.buf.used) : (s.release k n).OutRule := by
  rw [OutRule, used_release hn, State.release, setEpollout_armed_out, decide_eq_true_iff]
  omega

/-- `recv_buf` ends with the `EPOLLIN` rule.  The other rule it only breaks by
receiving. -/
theorem recvBuf_flow (h : s.Flow) (hret : 0 ≤ (s.recvBuf k).1) :
    (s.recvBuf k).2.buf.Ok maxPktSize ∧ (s.recvBuf k).2.InRule ∧
      ((s.recvBuf k).1 = 0 → (s.recvBuf k).2.OutRule) := by
  have hle : s.buf.used ≤ maxPktSize - 1 := h.ok
  rcases recvBuf_cases k h.ok with ⟨hfull, he⟩ | ⟨_, ⟨_, he⟩ | ⟨_, he⟩ | ⟨_, he⟩⟩
  · rw [he]
    refine ⟨by simpa using h.ok, ?_, fun _ => ?_⟩
    · simp [InRule, hfull]
    · simpa [OutRule] using h.out
  · simp [he] at hret
  · simp [he] at hret
  · have hn := RecvResult.length_data_le (k.recvmsg (maxPktSize - 1 - s.buf.used))
    rw [he]
    refine ⟨?_, inRule_deliver h.ok hn, fun hzero => ?_⟩
    · rw [Ok, used_deliver h.ok hn]
      omega
    · have hlen := Int.natCast_eq_zero.mp hzero
      rw [OutRule, used_deliver h.ok hn, hlen, State.deliver, setEpollin_armed_out]
      exact h.out

/-- `send_buf` ends with the `EPOLLOUT` rule.  The other rule it only breaks by
making room. -/
theorem sendBuf_flow (hok : s.buf.Ok maxPktSize) (hin : s.InRule)
    (sendmsg : (n : ℕ) → SendResult n) (hret : 0 ≤ (s.sendBuf k sendmsg).1) :
    (s.sendBuf k sendmsg).2.buf.Ok maxPktSize ∧ (s.sendBuf k sendmsg).2.OutRule ∧
      ((s.sendBuf k sendmsg).1 = 0 → (s.sendBuf k sendmsg).2.InRule) ∧
      (0 < (s.sendBuf k sendmsg).1 → (s.sendBuf k sendmsg).2.buf.used < maxPktSize - 1) := by
  have hle : s.buf.used ≤ maxPktSize - 1 := hok
  rcases sendBuf_cases k sendmsg hok with ⟨hempty, he⟩ | ⟨_, ⟨_, he⟩ | he⟩
  · rw [he]
    refine ⟨by simpa using hok, ?_, fun _ => ?_, fun hpos => absurd hpos (lt_irrefl _)⟩
    · simp [OutRule, hempty]
    · simpa [InRule] using hin
  · simp [he] at hret
  · have hn := SendResult.count_le (sendmsg s.buf.used)
    rw [he]
    refine ⟨?_, outRule_release hn, fun hzero => ?_, fun hpos => ?_⟩
    · rw [Ok, used_release hn]
      omega
    · have hcount : (sendmsg s.buf.used).count = 0 := Int.natCast_eq_zero.mp hzero
      rw [InRule, used_release hn, hcount, State.release, setEpollout_armed_in]
      exact hin
    · have hcount : 0 < (sendmsg s.buf.used).count := Int.natCast_pos.mp hpos
      rw [used_release hn]
      omega

/-- Arming `EPOLLIN` after a send that took bytes settles its rule. -/
theorem Flow.of_sent {t : State} (hok : t.buf.Ok maxPktSize) (hout : t.OutRule)
    (hroom : t.buf.used < maxPktSize - 1) : (t.setEpollin k true).Flow where
  ok := by simpa using hok
  out := by simpa [OutRule] using hout
  inp := by simpa [InRule] using hroom

theorem handleWrite_flow (h : s.Flow) (hret : (s.handleWrite k).1 = 0) :
    (s.handleWrite k).2.Flow := by
  have hsend := sendBuf_flow (k := k) h.ok h.inp k.sendmsgOut
  unfold State.handleWrite at hret ⊢
  generalize s.sendBuf k k.sendmsgOut = r at hsend hret ⊢
  obtain ⟨sendLen, t⟩ := r
  dsimp only at hsend hret ⊢
  split at hret
  · simp at hret
  · rename_i hnn
    obtain ⟨hok, hout, hzero, hpos⟩ := hsend (by omega)
    rw [if_neg hnn]
    split
    · exact .of_sent hok hout (hpos (by omega))
    · exact ⟨hok, hout, hzero (by omega)⟩

theorem handleRead_flow (h : s.Flow) (hret : (s.handleRead k).1 = 0) :
    (s.handleRead k).2.Flow := by
  have hrecv := recvBuf_flow (k := k) h
  unfold State.handleRead at hret ⊢
  generalize s.recvBuf k = r at hrecv hret ⊢
  obtain ⟨recvLen, t⟩ := r
  dsimp only at hrecv hret ⊢
  split at hret
  · simp at hret
  rename_i hnn
  obtain ⟨hok, hin, hzero⟩ := hrecv (by omega)
  rw [if_neg hnn]
  split at hret
  · rename_i hpos
    rw [if_pos hpos]
    have hsend := sendBuf_flow (k := k) hok hin k.sendmsgIn
    generalize t.sendBuf k k.sendmsgIn = r at hsend hret ⊢
    obtain ⟨sendLen, u⟩ := r
    dsimp only at hsend hret ⊢
    split at hret
    · simp at hret
    · rename_i hnn'
      obtain ⟨hok', hout, hzero', hpos'⟩ := hsend (by omega)
      rw [if_neg hnn']
      split
      · exact .of_sent hok' hout (hpos' (by omega))
      · exact ⟨hok', hout, hzero' (by omega)⟩
  · rename_i hnp
    rw [if_neg hnp]
    exact ⟨hok, hzero (by omega), hin⟩

theorem handleIn_flow (h : s.Flow) (ev : BitVec 32) (hret : (s.handleIn ev k).1 = 0) :
    (s.handleIn ev k).2.Flow := by
  have hread := handleRead_flow (k := k) h
  have hsign := handleRead_ret (k := k) (s := s)
  unfold State.handleIn at hret ⊢
  generalize s.handleRead k = r at hread hret hsign ⊢
  obtain ⟨ret, t⟩ := r
  dsimp only at hread hret hsign ⊢
  split
  · rename_i hev
    rw [if_pos hev] at hret
    split
    · rename_i hneg
      rw [if_pos hneg] at hret
      exact hread hret
    · exact hread (by omega)
  · exact h

/-- **A call of `handle` that returns `0` ends with both rules.** -/
theorem handle_flow (h : s.Flow) (ev : BitVec 32) (hret : (s.handle ev k).1 = 0) :
    (s.handle ev k).2.Flow := by
  have hwrite := handleWrite_flow (k := k) h
  have hsign := handleWrite_ret (k := k) (s := s)
  unfold State.handle at hret ⊢
  generalize s.handleWrite k = r at hwrite hret hsign ⊢
  obtain ⟨ret, t⟩ := r
  dsimp only at hwrite hret hsign ⊢
  split at hret
  · simp at hret
  rename_i hev
  rw [if_neg hev]
  split at hret
  · rename_i hout
    rw [if_pos hout]
    split at hret
    · omega
    · rename_i hnn
      rw [if_neg hnn]
      exact handleIn_flow (hwrite (by omega)) ev hret
  · rename_i hout
    rw [if_neg hout]
    exact handleIn_flow h ev hret

/-- While `epoll_ctl` succeeds the kernel's mask is the object's. -/
theorem kept_interest (hctl : ∀ i, k.epollCtl i = true) :
    Kept k fun s => s.buf.Ok maxPktSize ∧ s.interest = s.epollEvent where
  ok _ h := h.1
  setEpollin _ _ h := ⟨by simpa using h.1, setEpollin_interest hctl h.2⟩
  setEpollout _ _ h := ⟨by simpa using h.1, setEpollout_interest hctl h.2⟩
  deliver s data hn h := by
    refine ⟨?_, setEpollin_interest hctl h.2⟩
    have hle : s.buf.used ≤ maxPktSize - 1 := h.1
    rw [Ok, used_deliver h.1 hn]
    omega
  release s n hn h := by
    refine ⟨?_, setEpollout_interest hctl h.2⟩
    have hle : s.buf.used ≤ maxPktSize - 1 := h.1
    rw [Ok, used_release hn]
    omega

end State

theorem run_flow {mem : ℕ → UInt8} {added : Bool} {calls : List Call} {s : State}
    (h : server.Run (State.fresh mem added) calls s) : s.Flow :=
  h.invariant
    (fun t c u ht hstep => by
      have hcall : t.handle c.ev c.answers = (0, u) := hstep
      have hflow := State.handle_flow (k := c.answers) ht c.ev (by rw [hcall])
      rwa [hcall] at hflow)
    (State.flow_fresh mem added)

/-- **Flow control.**  After any run of calls that all returned `0`, with every
`epoll_ctl` successful, the registered mask contains `EPOLLOUT` exactly when the
ring is not empty and `EPOLLIN` exactly when it is not full; so one of the two
is armed, and where level-triggered epoll reports nothing there is nothing to
send that the socket would take and nothing to read that the ring could hold. -/
theorem flow_control {mem : ℕ → UInt8} {calls : List Call} {s : State}
    (h : server.Run (State.fresh mem true) calls s)
    (hctl : ∀ c ∈ calls, ∀ i, c.answers.epollCtl i = true) :
    s.interest = s.epollEvent ∧
      (Armed s.epollEvent EPOLLOUT ↔ 0 < s.buf.getExistSize) ∧
      (Armed s.epollEvent EPOLLIN ↔ 0 < s.buf.getBlankSize maxPktSize) ∧
      (Armed s.epollEvent EPOLLOUT ∨ Armed s.epollEvent EPOLLIN) ∧
      ∀ readable writable, levelReport s.interest readable writable = 0 →
        (s.buf.getExistSize = 0 ∨ writable = false) ∧
          (s.buf.getBlankSize maxPktSize = 0 ∨ readable = false) := by
  have hflow := run_flow h
  have hle : s.buf.used ≤ maxPktSize - 1 := hflow.ok
  have hroom : 0 < maxPktSize - 1 := by decide
  have hinterest : s.interest = s.epollEvent :=
    (run_kept (fun c hc => State.kept_interest (hctl c hc)) h
      ⟨(State.flow_fresh mem true).ok, rfl⟩).2
  have hout : Armed s.epollEvent EPOLLOUT ↔ 0 < s.buf.used := hflow.out
  have hin : Armed s.epollEvent EPOLLIN ↔ s.buf.used < maxPktSize - 1 := hflow.inp
  rw [hinterest, getExistSize_eq pktSize hflow.ok, getBlankSize_eq pktSize hflow.ok]
  refine ⟨rfl, ?_, ?_, ?_, fun readable writable hreport => ⟨?_, ?_⟩⟩
  · rw [hout]
    omega
  · rw [hin]
    omega
  · rw [hout, hin]
    omega
  · cases writable with
    | false => exact Or.inr rfl
    | true =>
      have hempty := hout.not.mp (not_armed_out_of_report hreport)
      exact Or.inl (by omega)
  · cases readable with
    | false => exact Or.inr rfl
    | true =>
      have hfull := hin.not.mp (not_armed_in_of_report hreport)
      exact Or.inl (by omega)

theorem flow_control_firstCall :
    afterFirstCall.interest = afterFirstCall.epollEvent ∧
      (Armed afterFirstCall.epollEvent EPOLLOUT ↔ 0 < afterFirstCall.buf.getExistSize) ∧
      (Armed afterFirstCall.epollEvent EPOLLIN ↔
        0 < afterFirstCall.buf.getBlankSize maxPktSize) ∧
      (Armed afterFirstCall.epollEvent EPOLLOUT ∨ Armed afterFirstCall.epollEvent EPOLLIN) ∧
      ∀ readable writable, levelReport afterFirstCall.interest readable writable = 0 →
        (afterFirstCall.buf.getExistSize = 0 ∨ writable = false) ∧
          (afterFirstCall.buf.getBlankSize maxPktSize = 0 ∨ readable = false) :=
  flow_control run_firstCall (by simp [firstCall])

end CppProgramming.Socket.EchoLt
