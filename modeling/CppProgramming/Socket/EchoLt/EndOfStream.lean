import CppProgramming.Socket.EchoLt.Echo

/-!
# The end of the stream

An echo server should hand back every byte it has received before it closes the
connection.  The sibling servers do: `server.cpp` and the coroutine servers send
all of a read before the next one, so they meet the end of the stream with
nothing left to send.  Here `recv_buf` returns `-1` as soon as `recvmsg` answers
`0`, whatever the ring holds, and `IOContext::run` then deletes the connection.

`drains_iff` says which runs lose bytes.  Without hard errors and foreign events
the only call that fails is one whose `recvmsg` finds the end of the stream
(`handle_orderly`), and it loses exactly the bytes then in the ring.
-/

namespace CppProgramming.Socket.EchoLt

open CppProgramming.Lib RingBuffer

/-- No event but `EPOLLIN` and `EPOLLOUT`, and no hard error of the socket. -/
structure Call.Orderly (c : Call) : Prop where
  events : c.ev &&& ~~~(EPOLLIN ||| EPOLLOUT) = 0
  recvmsg : ∀ n, c.answers.recvmsg n ≠ .error
  sendmsgOut : ∀ n, c.answers.sendmsgOut n ≠ .error
  sendmsgIn : ∀ n, c.answers.sendmsgIn n ≠ .error

/-- Whenever a call fails, every byte received has been sent back. -/
def DrainsBeforeClose (mem : ℕ → UInt8) (added : Bool) (calls : List Call) : Prop :=
  ∀ pre c post, calls = pre ++ c :: post → ∀ s t, server.Run (State.fresh mem added) pre s →
    s.handle c.ev c.answers = (-1, t) → t.sent = t.received

namespace State

/-- What is left in the ring when the call reads: the bytes there before it, less
those that its `EPOLLOUT` half sends. -/
def leftAtRead (s : State) (c : Call) : ℕ :=
  s.buf.used - if Armed c.ev EPOLLOUT then (c.answers.sendmsgOut s.buf.used).count else 0

/-- The call reads, with room in the ring, and finds the end of the stream. -/
def FindsEof (s : State) (c : Call) : Prop :=
  Armed c.ev EPOLLIN ∧ s.leftAtRead c < maxPktSize - 1 ∧
    c.answers.recvmsg (maxPktSize - 1 - s.leftAtRead c) = .eof

variable {k : Answers} {s : State}

theorem handleWrite_orderly (h : s.Inv) (hsend : ∀ n, k.sendmsgOut n ≠ .error) :
    (s.handleWrite k).1 = 0 ∧
      (s.handleWrite k).2.buf.used = s.buf.used - (k.sendmsgOut s.buf.used).count := by
  unfold State.handleWrite
  rcases sendBuf_cases k k.sendmsgOut h.ok with ⟨hempty, he⟩ | ⟨_, ⟨herr, _⟩ | he⟩
  · rw [he]
    simp [hempty]
  · exact absurd herr (hsend _)
  · have hused := used_release (k := k) (SendResult.count_le (k.sendmsgOut s.buf.used))
    rw [he]
    dsimp only
    rw [if_neg (by omega)]
    split
    · exact ⟨rfl, by rw [setEpollin_buf, hused]⟩
    · exact ⟨rfl, hused⟩

theorem handleRead_orderly (h : s.Inv) (hrecv : ∀ n, k.recvmsg n ≠ .error)
    (hsend : ∀ n, k.sendmsgIn n ≠ .error) :
    (s.buf.used < maxPktSize - 1 ∧ k.recvmsg (maxPktSize - 1 - s.buf.used) = .eof ∧
        s.handleRead k = (-1, s)) ∨
      (¬ (s.buf.used < maxPktSize - 1 ∧ k.recvmsg (maxPktSize - 1 - s.buf.used) = .eof) ∧
        (s.handleRead k).1 = 0) := by
  unfold State.handleRead
  have hkeep := (kept_inv k).recvBuf h
  rcases recvBuf_cases k h.ok with ⟨hfull, he⟩ | ⟨hroom, ⟨heof, he⟩ | ⟨herr, _⟩ | ⟨hne, he⟩⟩
  · refine Or.inr ⟨fun hc => by omega, ?_⟩
    rw [he]
    simp
  · refine Or.inl ⟨hroom, heof, ?_⟩
    rw [he]
    simp
  · exact absurd herr (hrecv _)
  · refine Or.inr ⟨fun hc => hne hc.2, ?_⟩
    rw [he] at hkeep ⊢
    generalize s.deliver k _ = t at hkeep ⊢
    dsimp only at hkeep ⊢
    rw [if_neg (by omega)]
    split
    · rcases sendBuf_cases k k.sendmsgIn hkeep.ok with ⟨_, hs⟩ | ⟨_, ⟨herr, _⟩ | hs⟩
      · rw [hs]
        simp
      · exact absurd herr (hsend _)
      · rw [hs]
        dsimp only
        rw [if_neg (by omega)]
        split <;> rfl
    · rfl

/-- What is left when the `EPOLLIN` half of the call `c` on `s` begins, in `t`, is
what it leaves in the ring if it fails. -/
theorem handleIn_orderly {c : Call} {t : State} (h : t.Inv) (hc : c.Orderly)
    (hused : t.buf.used = s.leftAtRead c) :
    ((t.handleIn c.ev c.answers).1 = -1 ↔ s.FindsEof c) ∧
      (s.FindsEof c → (t.handleIn c.ev c.answers).2.buf.used = s.leftAtRead c) := by
  unfold State.handleIn
  by_cases hev : Armed c.ev EPOLLIN
  · rw [if_pos hev]
    rcases handleRead_orderly h hc.recvmsg hc.sendmsgIn with ⟨hroom, heof, he⟩ | ⟨hno, he⟩
    · rw [hused] at hroom heof
      rw [he]
      exact ⟨iff_of_true (by simp) ⟨hev, hroom, heof⟩, fun _ => by simpa using hused⟩
    · rw [hused] at hno
      refine ⟨iff_of_false ?_ fun hf => hno hf.2, fun hf => absurd hf.2 hno⟩
      generalize t.handleRead c.answers = r at he
      obtain ⟨ret, u⟩ := r
      dsimp only at he ⊢
      rw [he]
      simp
  · rw [if_neg hev]
    exact ⟨iff_of_false (by simp) fun hf => hev hf.1, fun hf => absurd hf.1 hev⟩

/-- **When an orderly call fails.**  It fails exactly where its read finds the end
of the stream, and leaves in the ring what was left there when it read. -/
theorem handle_orderly {c : Call} (h : s.Inv) (hc : c.Orderly) :
    ((s.handle c.ev c.answers).1 = -1 ↔ s.FindsEof c) ∧
      (s.FindsEof c → (s.handle c.ev c.answers).2.buf.used = s.leftAtRead c) := by
  unfold State.handle
  rw [if_neg (by rw [hc.events]; exact fun hne => hne rfl)]
  have hwrite := handleWrite_orderly h hc.sendmsgOut
  have hkeep := (kept_inv c.answers).handleWrite h
  split
  · rename_i hout
    generalize s.handleWrite c.answers = r at hwrite hkeep ⊢
    obtain ⟨ret, t⟩ := r
    dsimp only at hwrite hkeep ⊢
    rw [if_neg (by omega)]
    exact handleIn_orderly hkeep hc (by rw [hwrite.2, leftAtRead, if_pos hout])
  · rename_i hout
    exact handleIn_orderly h hc (by rw [leftAtRead, if_neg hout, Nat.sub_zero])

theorem Inv.sent_eq_iff (h : s.Inv) : s.sent = s.received ↔ s.buf.used = 0 := by
  rw [← h.order, List.self_eq_append_right, ← List.length_eq_zero_iff, length_contents]

end State

/-- **Which runs drain before they close**: those in which no call finds the end
of the stream while bytes are left in the ring. -/
theorem drains_iff {mem : ℕ → UInt8} {added : Bool} {calls : List Call}
    (hcalls : ∀ c ∈ calls, c.Orderly) :
    DrainsBeforeClose mem added calls ↔
      ∀ pre c post, calls = pre ++ c :: post → ∀ s, server.Run (State.fresh mem added) pre s →
        s.FindsEof c → s.leftAtRead c = 0 := by
  have hlast : ∀ pre c post, calls = pre ++ c :: post → c.Orderly := by
    rintro pre c post rfl
    exact hcalls c (by simp)
  constructor
  · intro hdrain pre c post hsplit s hrun hfinds
    have hinv := run_inv hrun
    obtain ⟨hfail, hleft⟩ := State.handle_orderly hinv (hlast pre c post hsplit)
    have hsent := hdrain pre c post hsplit s _ hrun (Prod.ext (hfail.mpr hfinds) rfl)
    rw [← hleft hfinds]
    exact ((State.kept_inv c.answers).handle hinv c.ev).sent_eq_iff.mp hsent
  · intro hclean pre c post hsplit s t hrun hclose
    have hinv := run_inv hrun
    obtain ⟨hfail, hleft⟩ := State.handle_orderly hinv (hlast pre c post hsplit)
    have hkeep := (State.kept_inv c.answers).handle hinv c.ev
    rw [hclose] at hfail hleft hkeep
    have hfinds := hfail.mp rfl
    rw [hkeep.sent_eq_iff, hleft hfinds]
    exact hclean pre c post hsplit s hrun hfinds

/-- One byte arrives while the socket takes none. -/
def blockedCall : Call where
  ev := EPOLLIN
  answers :=
    { recvmsg := fun n => if h : 1 ≤ n then .bytes [7] (by decide) h else .again
      sendmsgOut := fun _ => .again
      sendmsgIn := fun _ => .again
      epollCtl := fun _ => true }

/-- The peer has half-closed, and the socket still takes nothing. -/
def closingCall : Call where
  ev := EPOLLIN
  answers :=
    { recvmsg := fun _ => .eof
      sendmsgOut := fun _ => .again
      sendmsgIn := fun _ => .again
      epollCtl := fun _ => true }

theorem blockedCall_orderly : blockedCall.Orderly where
  events := by decide
  recvmsg n := by
    unfold blockedCall
    dsimp only
    split <;> simp
  sendmsgOut _ := by simp [blockedCall]
  sendmsgIn _ := by simp [blockedCall]

theorem closingCall_orderly : closingCall.Orderly where
  events := by decide
  recvmsg _ := by simp [closingCall]
  sendmsgOut _ := by simp [closingCall]
  sendmsgIn _ := by simp [closingCall]

theorem not_drainsBeforeClose :
    blockedCall.Orderly ∧ closingCall.Orderly ∧
      ¬ DrainsBeforeClose (fun _ => 0) true [blockedCall, closingCall] := by
  refine ⟨blockedCall_orderly, closingCall_orderly, fun hdrain => ?_⟩
  have hrun : server.Run (State.fresh (fun _ => 0) true) [blockedCall]
      ((State.fresh (fun _ => 0) true).handle blockedCall.ev blockedCall.answers).2 :=
    .single (l := blockedCall) (Prod.ext (by decide) rfl)
  have hsent := hdrain [blockedCall] closingCall [] rfl _ _ hrun (Prod.ext (by decide) rfl)
  exact absurd hsent (by decide)

theorem drains_iff_blockedCall :
    DrainsBeforeClose (fun _ => 0) true [blockedCall, closingCall] ↔
      ∀ pre c post, [blockedCall, closingCall] = pre ++ c :: post →
        ∀ s, server.Run (State.fresh (fun _ => 0) true) pre s →
          s.FindsEof c → s.leftAtRead c = 0 :=
  drains_iff (by simp [blockedCall_orderly, closingCall_orderly])

end CppProgramming.Socket.EchoLt
