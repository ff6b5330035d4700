import CppProgramming.Socket.Kernel

/-!
# A socket under edge-triggered epoll

What the edge-triggered servers see of the kernel: a socket with the bytes that nobody has
read yet, the end of the stream behind them, the number of bytes it still takes for
sending, and whether an event is queued for it.

An event is queued when bytes or the end of the stream arrive, and when the socket becomes
writable; it may be queued at any other time too.  A delivered event is no longer queued
and reports the readiness at the delivery (`mask`), whatever it was queued for.  What makes
the servers wait forever is readiness with no event queued, so the two rules about
arrivals are that they never add readiness alone (`readable_arrive`, `writable_arrive`),
and that arrivals which queue no event bring nothing to read (`Quiet.arrivals`).
-/

namespace CppProgramming.Socket

structure Endpoint where
  unread : List UInt8
  eof : Bool
  room : ℕ
  pending : Bool
  received : List UInt8
  sent : List UInt8

/-- What the peer and the network do to a socket. -/
inductive Arrival
  | bytes (data : List UInt8)
  | eof
  | room (n : ℕ)
  | event

namespace Endpoint

variable {e e' : Endpoint}

/-- A read would not answer `EAGAIN`. -/
def Readable (e : Endpoint) : Prop := e.unread ≠ [] ∨ e.eof = true

/-- A write would not answer `EAGAIN`. -/
def Writable (e : Endpoint) : Prop := 0 < e.room

instance : Decidable e.Readable := inferInstanceAs (Decidable (_ ∨ _))

instance : Decidable e.Writable := inferInstanceAs (Decidable (_ < _))

/-- The readiness that an event reports. -/
def mask (e : Endpoint) : BitVec 32 :=
  (if e.Readable then EPOLLIN else 0) ||| (if e.Writable then EPOLLOUT else 0)

/-- Nothing follows the end of the stream. -/
def arrive (e : Endpoint) : Arrival → Endpoint
  | .bytes data =>
    if e.eof = true ∨ data = [] then e
    else { e with unread := e.unread ++ data, pending := true }
  | .eof => if e.eof then e else { e with eof := true, pending := true }
  | .room n => { e with room := e.room + n, pending := e.pending || (e.room == 0 && n != 0) }
  | .event => { e with pending := true }

def arrivals (e : Endpoint) (as : List Arrival) : Endpoint := as.foldl arrive e

/-- `epoll_wait` reports the event that is queued. -/
def deliver (e : Endpoint) : Endpoint := { e with pending := false }

/-- The socket behind a read of `data`. -/
def take (data : List UInt8) (e : Endpoint) : Endpoint :=
  { e with unread := e.unread.drop data.length, received := e.received ++ data }

/-- The socket behind a write of `data`. -/
def put (data : List UInt8) (e : Endpoint) : Endpoint :=
  { e with room := e.room - data.length, sent := e.sent ++ data }

/-- The answer to `recv` or `recvmsg` for at most `n` bytes; the kernel hands over no more than
`most + 1` of those it has. -/
def recv (n most : ℕ) (e : Endpoint) : RecvResult n :=
  let data := e.unread.take (min n (most + 1))
  if h : 0 < data.length then
    .bytes data h (Nat.le_trans (List.length_take_le _ _) (Nat.min_le_left _ _))
  else if e.eof then .eof
  else .again

/-- The answer to `send` or `sendmsg` of `n` bytes; the kernel takes no more than `most + 1` of
those it has room for. -/
def send (n most : ℕ) (e : Endpoint) : SendResult n :=
  if e.room = 0 then .again else .sent (min n (min e.room (most + 1))) (Nat.min_le_left _ _)

/-! ### Events -/

theorem armed_in_mask : Armed e.mask EPOLLIN ↔ e.Readable := by
  by_cases hr : e.Readable <;> by_cases hw : e.Writable <;> simp [mask, hr, hw, armed_in]

theorem armed_out_mask : Armed e.mask EPOLLOUT ↔ e.Writable := by
  by_cases hr : e.Readable <;> by_cases hw : e.Writable <;> simp [mask, hr, hw, armed_out]

theorem mask_foreign : e.mask &&& ~~~(EPOLLIN ||| EPOLLOUT) = 0 := by
  by_cases hr : e.Readable <;> by_cases hw : e.Writable <;> simp [mask, hr, hw] <;> decide

theorem mask_deliver : e.deliver.mask = e.mask := rfl

/-! ### Arrivals -/

variable (a : Arrival) (as : List Arrival)

@[simp] theorem received_arrive : (e.arrive a).received = e.received := by
  cases a with
  | bytes data => simp only [arrive]; split <;> rfl
  | eof => simp only [arrive]; split <;> rfl
  | room n => rfl
  | event => rfl

@[simp] theorem sent_arrive : (e.arrive a).sent = e.sent := by
  cases a with
  | bytes data => simp only [arrive]; split <;> rfl
  | eof => simp only [arrive]; split <;> rfl
  | room n => rfl
  | event => rfl

@[simp] theorem received_arrivals : (e.arrivals as).received = e.received := by
  induction as generalizing e with
  | nil => rfl
  | cons a as ih => exact (ih (e := e.arrive a)).trans (received_arrive a)

@[simp] theorem sent_arrivals : (e.arrivals as).sent = e.sent := by
  induction as generalizing e with
  | nil => rfl
  | cons a as ih => exact (ih (e := e.arrive a)).trans (sent_arrive a)

/-- **What an arrival can do.**  It queues an event, or at most adds room to a socket that has
some already. -/
theorem arrive_cases :
    (e.arrive a).pending = true ∨
      ∃ n, e.arrive a = { e with room := e.room + n } ∧ (e.room = 0 → n = 0) := by
  cases a with
  | bytes data =>
    by_cases h : e.eof = true ∨ data = []
    · exact Or.inr ⟨0, by simp only [arrive, if_pos h]; rfl, fun _ => rfl⟩
    · exact Or.inl (by simp only [arrive, if_neg h])
  | eof =>
    by_cases h : e.eof = true
    · exact Or.inr ⟨0, by simp only [arrive, if_pos h]; rfl, fun _ => rfl⟩
    · exact Or.inl (by simp only [arrive, if_neg h])
  | room n =>
    by_cases h : (e.room == 0 && n != 0) = true
    · exact Or.inl (by simp [arrive, h])
    · refine Or.inr ⟨n, by simp [arrive, h], fun hzero => ?_⟩
      simpa [hzero] using h
  | event => exact Or.inl rfl

/-- **Arrivals make a socket readable** only with an event. -/
theorem readable_arrive (h : e.Readable → e.pending = true) (hr : (e.arrive a).Readable) :
    (e.arrive a).pending = true := by
  rcases arrive_cases a with hpending | ⟨n, heq, -⟩
  · exact hpending
  · rw [heq] at hr ⊢
    exact h hr

/-- **Arrivals make a socket writable** only with an event. -/
theorem writable_arrive (h : e.Writable → e.pending = true) (hw : (e.arrive a).Writable) :
    (e.arrive a).pending = true := by
  rcases arrive_cases a with hpending | ⟨n, heq, hn⟩
  · exact hpending
  · rw [heq] at hw ⊢
    refine h (Nat.pos_of_ne_zero fun hzero => ?_)
    simp [Writable, hzero, hn hzero] at hw

/-- No event is queued for `e'`, and it has nothing to read that `e` had not. -/
structure Quiet (e e' : Endpoint) : Prop where
  pending : e.pending = false
  unread : e'.unread = e.unread
  eof : e'.eof = e.eof

theorem Quiet.trans {e'' : Endpoint} (h : Quiet e e') (g : Quiet e' e'') : Quiet e e'' :=
  ⟨h.pending, g.unread.trans h.unread, g.eof.trans h.eof⟩

theorem Quiet.refl (h : e.pending = false) : Quiet e e := ⟨h, rfl, rfl⟩

theorem Quiet.arrive (h : (e.arrive a).pending = false) : Quiet e (e.arrive a) := by
  rcases arrive_cases (e := e) a with hpending | ⟨n, heq, -⟩
  · exact absurd hpending (by simp [h])
  · rw [heq] at h ⊢
    exact ⟨h, rfl, rfl⟩

/-- **Arrivals that queue no event** bring nothing to read. -/
theorem Quiet.arrivals (h : (e.arrivals as).pending = false) : Quiet e (e.arrivals as) := by
  induction as generalizing e with
  | nil => exact .refl h
  | cons a as ih =>
    have hrest := ih (e := e.arrive a) h
    exact (Quiet.arrive a hrest.pending).trans hrest

/-! ### Reads and writes -/

@[simp] theorem take_nil : e.take [] = e := by simp [take]

@[simp] theorem put_nil : e.put [] = e := by simp [put]

/-- **What a read can answer.** -/
theorem recv_cases {n : ℕ} (hn : 0 < n) (most : ℕ) (e : Endpoint) :
    (∃ data pos le, e.recv n most = .bytes data pos le ∧
        data = e.unread.take (min n (most + 1))) ∨
      (e.unread = [] ∧ e.eof = true ∧ e.recv n most = .eof) ∨
      (¬ e.Readable ∧ e.recv n most = .again) := by
  by_cases hunread : e.unread = []
  · right
    by_cases heof : e.eof = true
    · exact Or.inl ⟨hunread, heof, by simp [recv, hunread, heof]⟩
    · exact Or.inr ⟨by simp [Readable, hunread, heof], by simp [recv, hunread, heof]⟩
  · left
    have hlen : 0 < e.unread.length := List.length_pos_iff.mpr hunread
    have hpos : 0 < (e.unread.take (min n (most + 1))).length := by
      rw [List.length_take]
      omega
    exact ⟨_, hpos, Nat.le_trans (List.length_take_le _ _) (Nat.min_le_left _ _),
      by rw [recv, dif_pos hpos], rfl⟩

/-- **What a write can answer.** -/
theorem send_cases (n most : ℕ) (e : Endpoint) :
    (¬ e.Writable ∧ e.send n most = .again) ∨
      ∃ len le, e.send n most = .sent len le ∧ len = min n (min e.room (most + 1)) := by
  by_cases hroom : e.room = 0
  · exact Or.inl ⟨by simp [Writable, hroom], by rw [send, if_pos hroom]⟩
  · exact Or.inr ⟨_, Nat.min_le_left _ _, by rw [send, if_neg hroom], rfl⟩

end Endpoint

end CppProgramming.Socket
