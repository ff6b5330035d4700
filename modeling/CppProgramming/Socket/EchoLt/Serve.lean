import CppProgramming.Socket.EchoLt.Echo
import CppProgramming.Socket.EchoLt.FlowControl

/-!
# What a call of the level-triggered echo connection moves

The kernel of `Counts` keeps its word: `epoll_wait` reports what the connection is armed for and
what it has seen of the socket, a read takes some of the bytes that have come, a send that was
announced takes some of the bytes that it is offered, and no call fails.

On such a kernel a call of `handle` does not fail either, and it moves at least one byte
(`handle_serves`).  `Served` says all that a client of the connection can observe of the call.
-/

namespace CppProgramming.Socket.EchoLt

open CppProgramming.Lib RingBuffer

/-- What the kernel does during one call: the readiness that `epoll_wait` saw, and how many bytes
the system calls move at most. -/
structure Counts where
  seenIn : Bool
  seenOut : Bool
  out : ℕ
  inp : ℕ
  back : ℕ

/-- A read of what has come. -/
def readFrom (stream : List UInt8) (most n : ℕ) : RecvResult n :=
  if h : 0 < (stream.take (min most n)).length then
    .bytes (stream.take (min most n)) h ((List.length_take_le ..).trans (Nat.min_le_right ..))
  else .again

/-- A send that takes what there is room for. -/
def sendUpTo (most n : ℕ) : SendResult n :=
  if most = 0 then .again else .sent (min most n) (Nat.min_le_right ..)

def Counts.answers (k : Counts) (stream : List UInt8) : Answers where
  recvmsg := readFrom stream k.inp
  sendmsgOut := sendUpTo k.out
  sendmsgIn := sendUpTo k.back
  epollCtl _ := true

/-- The events of the call. -/
def Counts.events (k : Counts) (s : State) : BitVec 32 :=
  levelReport s.interest k.seenIn k.seenOut

/-- The kernel keeps its word: what was seen is there, a call that was announced moves something,
and `handle` is not called without an event. -/
structure Counts.Honest (k : Counts) (stream : List UInt8) (writable : Bool) (s : State) :
    Prop where
  inp : k.seenIn = true → stream ≠ [] ∧ 0 < k.inp
  out : k.seenOut = true → writable = true ∧ 0 < k.out
  event : k.events s ≠ 0

instance (k : Counts) (stream : List UInt8) (writable : Bool) (s : State) :
    Decidable (k.Honest stream writable s) :=
  decidable_of_iff ((k.seenIn = true → stream ≠ [] ∧ 0 < k.inp) ∧
      (k.seenOut = true → writable = true ∧ 0 < k.out) ∧ k.events s ≠ 0)
    ⟨fun h => ⟨h.1, h.2.1, h.2.2⟩, fun h => ⟨h.inp, h.out, h.event⟩⟩

/-- A connection whose mask is known to the kernel, with both of its invariants. -/
structure State.Sound (s : State) : Prop where
  flow : s.Flow
  inv : s.Inv
  interest : s.interest = s.epollEvent

/-- The call has read `data` and sent `out`. -/
structure Served (k : Counts) (stream : List UInt8) (s t : State) (data out : List UInt8) :
    Prop where
  sound : t.Sound
  stream : data <+: stream
  received : t.received = s.received ++ data
  sent : t.sent = s.sent ++ out
  few : out.length ≤ k.back + if k.seenOut = true then k.out else 0
  moved : data ≠ [] ∨ out ≠ []

variable {k : Counts} {stream : List UInt8} {writable : Bool} {a : Answers} {s t : State}

theorem readFrom_cases (stream : List UInt8) {most n : ℕ} (hstream : stream ≠ [])
    (hmost : 0 < most) (hn : 0 < n) : ∃ data pos le, readFrom stream most n = .bytes data pos le ∧
      data <+: stream := by
  have hpos : 0 < (stream.take (min most n)).length := by
    have hlen := List.length_pos_iff.mpr hstream
    rw [List.length_take]
    omega
  rw [readFrom, dif_pos hpos]
  exact ⟨_, _, _, rfl, List.take_prefix ..⟩

theorem count_sendUpTo (most n : ℕ) : (sendUpTo most n).count = min most n := by
  rw [sendUpTo]
  split
  · simp [SendResult.count, *]
  · rfl

theorem sendUpTo_ne_error (most n : ℕ) : sendUpTo most n ≠ .error := by
  rw [sendUpTo]
  split <;> simp

/-! ### The events of a report -/

theorem armed_in_report {interest : BitVec 32} {readable writable : Bool} :
    Armed (levelReport interest readable writable) EPOLLIN ↔
      readable = true ∧ Armed interest EPOLLIN := by
  rw [armed_in, armed_in, levelReport]
  cases readable <;> cases writable <;> simp

theorem armed_out_report {interest : BitVec 32} {readable writable : Bool} :
    Armed (levelReport interest readable writable) EPOLLOUT ↔
      writable = true ∧ Armed interest EPOLLOUT := by
  rw [armed_out, armed_out, levelReport]
  cases readable <;> cases writable <;> simp

theorem report_foreign (interest : BitVec 32) (readable writable : Bool) :
    levelReport interest readable writable &&& ~~~(EPOLLIN ||| EPOLLOUT) = 0 := by
  have hmask : ∀ m : BitVec 32, m &&& ~~~(EPOLLIN ||| EPOLLOUT) = 0 →
      interest &&& m &&& ~~~(EPOLLIN ||| EPOLLOUT) = 0 := by
    intro m hm
    rw [BitVec.and_assoc, hm]
    exact BitVec.and_zero
  cases readable <;> cases writable <;> exact hmask _ (by decide)

/-- A report is made of the two events. -/
theorem armed_of_report {interest : BitVec 32} {readable writable : Bool}
    (h : levelReport interest readable writable ≠ 0) :
    (readable = true ∧ Armed interest EPOLLIN) ∨ (writable = true ∧ Armed interest EPOLLOUT) := by
  by_contra hnone
  rw [not_or, not_and, not_and] at hnone
  have hin : interest &&& (if readable = true then EPOLLIN else 0) = 0 := by
    split
    · exact not_not.mp (hnone.1 ‹_›)
    · exact BitVec.and_zero
  have hout : interest &&& (if writable = true then EPOLLOUT else 0) = 0 := by
    split
    · exact not_not.mp (hnone.2 ‹_›)
    · exact BitVec.and_zero
  apply h
  rw [levelReport, BitVec.and_or_distrib_left, hin, hout]
  rfl

namespace State

/-! ### The two transfers -/

@[simp] theorem received_deliver (data : List UInt8) :
    (s.deliver a data).received = s.received ++ data := by
  simp [deliver]

@[simp] theorem sent_deliver (data : List UInt8) : (s.deliver a data).sent = s.sent := by
  simp [deliver]

@[simp] theorem received_release (n : ℕ) : (s.release a n).received = s.received := by
  simp [release]

@[simp] theorem sent_release (n : ℕ) :
    (s.release a n).sent = s.sent ++ (s.buf.contents maxPktSize).take n := by
  simp [release]

/-- A call has sent `out`, at most `most` bytes. -/
structure Sends (s t : State) (out : List UInt8) (most : ℕ) : Prop where
  received : t.received = s.received
  sent : t.sent = s.sent ++ out
  few : out.length ≤ most

theorem sends_release (most n : ℕ) : Sends s (s.release a (min most n))
    ((s.buf.contents maxPktSize).take (min most n)) most where
  received := received_release _
  sent := sent_release _
  few := (List.length_take_le ..).trans (Nat.min_le_left ..)

theorem Sends.setEpollin {out : List UInt8} {most : ℕ} (h : Sends s t out most) (flag : Bool) :
    Sends s (t.setEpollin a flag) out most where
  received := by rw [setEpollin_received, h.received]
  sent := by rw [setEpollin_sent, h.sent]
  few := h.few

theorem sendBuf_serves (hok : s.buf.Ok maxPktSize) (hused : 0 < s.buf.used) (most : ℕ) :
    s.sendBuf a (sendUpTo most) =
      (((min most s.buf.used : ℕ) : ℤ), s.release a (min most s.buf.used)) := by
  rcases sendBuf_cases a (sendUpTo most) hok with ⟨hempty, -⟩ | ⟨-, ⟨herr, -⟩ | heq⟩
  · omega
  · exact absurd herr (sendUpTo_ne_error _ _)
  · rw [heq, count_sendUpTo]

/-- The `EPOLLOUT` half sends at least one byte. -/
theorem handleWrite_serves (hok : s.buf.Ok maxPktSize) (hused : 0 < s.buf.used) {most : ℕ}
    (hmost : 0 < most) (ha : a.sendmsgOut = sendUpTo most) :
    ∃ t out, s.handleWrite a = (0, t) ∧ Sends s t out most ∧ out ≠ [] := by
  refine ⟨(s.release a (min most s.buf.used)).setEpollin a true, _, ?_,
    (sends_release most s.buf.used).setEpollin true, ?_⟩
  · rw [handleWrite, ha, sendBuf_serves hok hused]
    dsimp only
    rw [if_neg (by omega), if_pos (by omega)]
  · apply List.ne_nil_of_length_pos
    rw [List.length_take, length_contents]
    omega

/-- The `EPOLLIN` half reads what the kernel gives. -/
theorem handleRead_serves (hinv : s.Inv) (hroom : s.buf.used < maxPktSize - 1)
    {data : List UInt8} {pos : 0 < data.length} {le : data.length ≤ maxPktSize - 1 - s.buf.used}
    (hrecv : a.recvmsg (maxPktSize - 1 - s.buf.used) = .bytes data pos le) (most : ℕ)
    (ha : a.sendmsgIn = sendUpTo most) :
    ∃ t out, s.handleRead a = (0, t) ∧ Sends (s.deliver a data) t out most := by
  have hkeep := (kept_inv a).deliver s data le hinv
  have hused := used_deliver (k := a) hinv.ok le
  have hrecvBuf : s.recvBuf a = ((data.length : ℤ), s.deliver a data) := by
    rcases recvBuf_cases a hinv.ok with ⟨hfull, -⟩ | ⟨-, ⟨heof, -⟩ | ⟨herr, -⟩ | ⟨-, heq⟩⟩
    · omega
    · exact absurd (hrecv.symm.trans heof) (by simp)
    · exact absurd (hrecv.symm.trans herr) (by simp)
    · rw [heq, hrecv]
      rfl
  have hsend := sends_release (a := a) (s := s.deliver a data) most (s.deliver a data).buf.used
  rw [handleRead, hrecvBuf]
  dsimp only
  rw [if_neg (by omega), if_pos (by omega), ha, sendBuf_serves hkeep.ok (by omega)]
  dsimp only
  rw [if_neg (by omega)]
  split
  · exact ⟨_, _, rfl, hsend.setEpollin _⟩
  · exact ⟨_, _, rfl, hsend⟩

end State

/-! ### The whole call -/

/-- What is left to do behind the `EPOLLOUT` half. -/
theorem handleIn_serves (hinv : s.Inv) (hin : k.seenIn = true → stream ≠ [] ∧ 0 < k.inp)
    {interest : BitVec 32} (seenOut : Bool)
    (harmed : Armed interest EPOLLIN → s.buf.used < maxPktSize - 1) :
    ∃ t data out, s.handleIn (levelReport interest k.seenIn seenOut) (k.answers stream) = (0, t) ∧
      data <+: stream ∧ t.received = s.received ++ data ∧ t.sent = s.sent ++ out ∧
      out.length ≤ k.back ∧ (k.seenIn = true → Armed interest EPOLLIN → data ≠ []) := by
  rw [State.handleIn]
  by_cases hev : Armed (levelReport interest k.seenIn seenOut) EPOLLIN
  · obtain ⟨hseen, harm⟩ := armed_in_report.mp hev
    have hroom := harmed harm
    obtain ⟨hstream, hmost⟩ := hin hseen
    obtain ⟨data, pos, le, hread, hprefix⟩ :=
      readFrom_cases stream (n := maxPktSize - 1 - s.buf.used) hstream hmost (by omega)
    obtain ⟨t, out, heq, hsends⟩ :=
      State.handleRead_serves (a := k.answers stream) hinv hroom hread k.back rfl
    refine ⟨t, data, out, ?_, hprefix, ?_, ?_, hsends.few, fun _ _ => List.ne_nil_of_length_pos pos⟩
    · rw [if_pos hev, heq]
      rfl
    · rw [hsends.received, State.received_deliver]
    · rw [hsends.sent, State.sent_deliver]
  · refine ⟨s, [], [], if_neg hev, List.nil_prefix, by simp, by simp, Nat.zero_le _,
      fun hseen harm => absurd (armed_in_report.mpr ⟨hseen, harm⟩) hev⟩

theorem State.Inv.used (h : s.Inv) : s.sent.length + s.buf.used = s.received.length := by
  rw [← h.order, List.length_append, length_contents]

/-- A fresh connection that `epoll_ctl` has added. -/
theorem sound_fresh (mem : ℕ → UInt8) : (State.fresh mem true).Sound where
  flow := State.flow_fresh mem true
  inv := State.inv_fresh mem true
  interest := rfl

theorem State.Sound.handle (h : s.Sound) {ev : BitVec 32}
    (hcall : s.handle ev (k.answers stream) = (0, t)) : t.Sound where
  flow := by
    have hflow := State.handle_flow (k := k.answers stream) h.flow ev (by rw [hcall])
    rwa [hcall] at hflow
  inv := by
    have hinv := (State.kept_inv (k.answers stream)).handle h.inv ev
    rwa [hcall] at hinv
  interest := by
    have hkeep := (State.kept_interest (k := k.answers stream) fun _ => rfl).handle
      ⟨h.flow.ok, h.interest⟩ ev
    rw [hcall] at hkeep
    exact hkeep.2

/-- **Every call serves.**  On a kernel that keeps its word a call of `handle` returns `0`, keeps
both invariants, and moves at least one byte. -/
theorem handle_serves (h : s.Sound) (hk : k.Honest stream writable s) :
    ∃ t data out, s.handle (k.events s) (k.answers stream) = (0, t) ∧
      Served k stream s t data out := by
  have hinput : Armed s.interest EPOLLIN ↔ s.buf.used < maxPktSize - 1 := by
    rw [h.interest]
    exact h.flow.inp
  have houtput : Armed s.interest EPOLLOUT ↔ 0 < s.buf.used := by
    rw [h.interest]
    exact h.flow.out
  have hforeign : ¬ k.events s &&& ~~~(EPOLLIN ||| EPOLLOUT) ≠ 0 :=
    not_not.mpr (report_foreign ..)
  by_cases hev : Armed (k.events s) EPOLLOUT
  · obtain ⟨hseen, harm⟩ := armed_out_report.mp hev
    obtain ⟨t, out, hwrite, hsends, hout⟩ := State.handleWrite_serves (a := k.answers stream)
      h.inv.ok (houtput.mp harm) (hk.out hseen).2 rfl
    have hkeep : t.Inv := by
      have hkeep := (State.kept_inv (k.answers stream)).handleWrite h.inv
      rwa [hwrite] at hkeep
    have hroom : Armed s.interest EPOLLIN → t.buf.used < maxPktSize - 1 := by
      intro harmed
      have hbefore := hinput.mp harmed
      have hused := h.inv.used
      have hused' := hkeep.used
      rw [hsends.received, hsends.sent, List.length_append] at hused'
      omega
    obtain ⟨u, data, more, hread, hdata, hreceived, hsent, hfew, -⟩ :=
      handleIn_serves (k := k) hkeep hk.inp k.seenOut hroom
    have hcall : s.handle (k.events s) (k.answers stream) = (0, u) := by
      rw [State.handle, if_neg hforeign, if_pos hev, hwrite]
      dsimp only
      rw [if_neg (by omega)]
      exact hread
    refine ⟨u, data, out ++ more, hcall, h.handle hcall, hdata, ?_, ?_, ?_, Or.inr ?_⟩
    · rw [hreceived, hsends.received]
    · rw [hsent, hsends.sent, List.append_assoc]
    · rw [List.length_append, if_pos hseen]
      have hfirst := hsends.few
      omega
    · exact fun hnil => hout (List.append_eq_nil_iff.mp hnil).1
  · obtain ⟨u, data, out, hread, hdata, hreceived, hsent, hfew, hsome⟩ :=
      handleIn_serves (k := k) h.inv hk.inp k.seenOut hinput.mp
    have hcall : s.handle (k.events s) (k.answers stream) = (0, u) := by
      rw [State.handle, if_neg hforeign, if_neg hev]
      exact hread
    refine ⟨u, data, out, hcall, h.handle hcall, hdata, hreceived, hsent,
      hfew.trans (Nat.le_add_right ..), Or.inl ?_⟩
    rcases armed_of_report hk.event with ⟨hseen, harm⟩ | ⟨hseen, harm⟩
    · exact hsome hseen harm
    · exact absurd (armed_out_report.mpr ⟨hseen, harm⟩) hev

/-! ### A kernel that moves little -/

/-- One byte is read, and none sent. -/
def Counts.readOne : Counts := ⟨true, false, 0, 1, 0⟩

/-- One byte is sent. -/
def Counts.sendOne : Counts := ⟨false, true, 1, 0, 0⟩

theorem honest_readOne (h : s.Sound) (hstream : stream ≠ [])
    (hroom : s.buf.used < maxPktSize - 1) : Counts.readOne.Honest stream writable s where
  inp _ := ⟨hstream, Nat.one_pos⟩
  out hseen := absurd hseen (by decide)
  event hnone := by
    have harm : Armed s.interest EPOLLIN := by
      rw [h.interest]
      exact h.flow.inp.mpr hroom
    have hreport : levelReport s.interest true false = 0 := hnone
    exact not_armed_in_of_report hreport harm

theorem honest_sendOne (h : s.Sound) (hused : 0 < s.buf.used) :
    Counts.sendOne.Honest stream true s where
  inp hseen := absurd hseen (by decide)
  out _ := ⟨rfl, Nat.one_pos⟩
  event hnone := by
    have harm : Armed s.interest EPOLLOUT := by
      rw [h.interest]
      exact h.flow.out.mpr hused
    have hreport : levelReport s.interest false true = 0 := hnone
    exact not_armed_out_of_report hreport harm

end CppProgramming.Socket.EchoLt
