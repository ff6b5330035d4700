import CppProgramming.Lib.Transition
import CppProgramming.Lib.WordStream
import CppProgramming.Socket.Kernel
import Mathlib.Data.Int.Notation

/-!
# The echo client that verifies

`Connection` of `tcp_echo/client_epoll_verify.cpp`.  It numbers the words that it sends, and
`recv` compares the words that come back with a running number.  But `recv` compares only what
one system call has read, and only where that is a whole packet; and a shorter read does not
advance the number either.

So the client keeps in step with the stream as long as every read returns a whole packet
(`InStep`).  From the first shorter read on, what it reads is not compared at all or compared with
the wrong numbers: a fault in those bytes goes unnoticed, and an echo without a fault is reported.

`Verdict` is what the client is for.  `verify_iff` says of every way to cut the returned stream
into reads whether the client gives the right verdict on all that a server may return.
-/

namespace CppProgramming.Socket.ClientVerify

open Lib

/-- A packet size that the loops over the words of a packet divide. -/
structure PacketSize where
  val : ℕ
  pos : 0 < val
  dvd : 8 ∣ val

def PacketSize.words (P : PacketSize) : ℕ := P.val / 8

/-- The fields of `Connection`, the counter behind `err_cnt_p`, and what is seen outside: the
bytes that were sent and received, and the expected and actual values that were printed. -/
structure Connection where
  txSeq : BitVec 64
  rxSeq : BitVec 64
  errCnt : BitVec 64
  sent : List UInt8
  received : List UInt8
  reported : List (BitVec 64 × BitVec 64)

/-- What `send_full` gets sent, when `send` answers the given counts and then fails. -/
def sendFull (msg : List UInt8) : List ℕ → List UInt8
  | [] => []
  | sent :: rest =>
    if msg.isEmpty then [] else msg.take sent ++ sendFull (msg.drop sent) rest

namespace Connection

variable (L : Layout) (P : PacketSize)

def send (c : Connection) (sends : List ℕ) : Connection :=
  { c with
    txSeq := c.txSeq + BitVec.ofNat 64 P.words
    sent := c.sent ++ sendFull (L.numbers c.txSeq P.words) sends }

/-- One round of the loop in `recv`. -/
def compare (c : Connection) (val : BitVec 64) : Connection :=
  { c with
    errCnt := if val ≠ c.rxSeq then c.errCnt + 1 else c.errCnt
    reported := if val ≠ c.rxSeq then c.reported ++ [(c.rxSeq, val)] else c.reported
    rxSeq := c.rxSeq + 1 }

def compareWords (c : Connection) (rxBuf : List UInt8) : ℕ → Connection
  | 0 => c
  | n + 1 => (c.compare (L.load (rxBuf.take 8))).compareWords (rxBuf.drop 8) n

/-- `recv` behind a system call that has read `data`. -/
def accept (c : Connection) (data : List UInt8) : Connection :=
  let c := { c with received := c.received ++ data }
  if data.length = P.val then c.compareWords L data P.words else c

def recv (c : Connection) (answer : RecvResult P.val) : ℤ × Connection :=
  match answer with
  | .bytes data _ _ => (data.length, c.accept L P data)
  | .eof | .again | .error => (-1, c)

def handle (c : Connection) (events : BitVec 32) (answer : RecvResult P.val) (sends : List ℕ) :
    ℤ × Connection :=
  if Armed events EPOLLIN then
    let (ret, c) := c.recv L P answer
    if ret < 0 then (-1, c) else (0, c.send L P sends)
  else (-1, c)

end Connection

/-- A connection in its `EventLoop`. -/
structure State where
  conn : Connection
  running : Bool

/-- A call of `handle`, and what the kernel answers during it. -/
structure Label (P : PacketSize) where
  events : BitVec 32
  answer : RecvResult P.val
  sends : List ℕ

variable (L : Layout) (P : PacketSize)

def State.next (s : State) (l : Label P) : Option State :=
  if s.running then
    let (ret, c) := s.conn.handle L P l.events l.answer l.sends
    some ⟨c, decide (0 ≤ ret)⟩
  else none

/-- Behind the first `send`, which the constructor of `EventLoop` makes; nobody has set the
counter. -/
def start (errCnt : BitVec 64) (sends : List ℕ) : State :=
  ⟨Connection.send L P ⟨0, 0, errCnt, [], [], []⟩ sends, true⟩

def system : System State (Label P) :=
  System.ofStep (fun s => ∃ errCnt sends, s = start L P errCnt sends) (State.next L P)

/-! ### What the client is for -/

/-- What one read returns. -/
abbrev Segment := { len : ℕ // 0 < len ∧ len ≤ P.val }

variable {P}

def Label.segment (l : Label P) : Option (Segment P) :=
  if Armed l.events EPOLLIN then
    match l.answer with
    | .bytes data pos le => some ⟨data.length, pos, le⟩
    | .eof | .again | .error => none
  else none

/-- The lengths of the reads of a run. -/
def segments (ls : List (Label P)) : List (Segment P) := ls.filterMap Label.segment

/-- The counts that `send` answers are enough for a packet. -/
def Whole (P : PacketSize) (sends : List ℕ) : Prop := P.val ≤ sends.sum

instance (sends : List ℕ) : Decidable (Whole P sends) := inferInstanceAs (Decidable (_ ≤ _))

/-- A run in which no packet is cut short on its way out leads to `s`; the counter is at
`errCnt` before it, and the returned stream comes in the given segments. -/
def Returned (errCnt : BitVec 64) (segs : List (Segment P)) (s : State) : Prop :=
  ∃ sends ls, Whole P sends ∧ (∀ l ∈ ls, Whole P l.sends) ∧ segments ls = segs ∧
    (system L P).Run (start L P errCnt sends) ls s

/-- Behind the first read that is no whole packet there is no whole word. -/
def InStep (segs : List (Segment P)) : Prop :=
  ((segs.dropWhile (·.val = P.val)).map Subtype.val).sum < 8

instance (segs : List (Segment P)) : Decidable (InStep segs) := inferInstanceAs (Decidable (_ < _))

variable {L} {c : Connection} {s t : State} {l : Label P} {ls : List (Label P)}
  {errCnt : BitVec 64} {data : List UInt8} {sends : List ℕ} {segs : List (Segment P)} {n m r : ℕ}

theorem PacketSize.val_eq (P : PacketSize) : P.val = 8 * P.words :=
  (Nat.mul_div_cancel' P.dvd).symm

theorem PacketSize.words_pos (P : PacketSize) : 0 < P.words := by
  have hpos := P.pos
  have hval := P.val_eq
  omega

/-! ### Sending -/

theorem sendFull_eq {msg : List UInt8} (h : msg.length ≤ sends.sum) : sendFull msg sends = msg := by
  induction sends generalizing msg with
  | nil => exact (List.eq_nil_of_length_eq_zero (Nat.le_zero.mp h)).symm
  | cons sent rest ih =>
    cases msg with
    | nil => rfl
    | cons b msg =>
      rw [List.sum_cons] at h
      have hrest : ((b :: msg).drop sent).length ≤ rest.sum := by
        rw [List.length_drop]
        omega
      show (b :: msg).take sent ++ sendFull ((b :: msg).drop sent) rest = b :: msg
      rw [ih hrest, List.take_append_drop]

/-- What the client has sent are `m` packets of numbered words. -/
structure Numbered (L : Layout) (P : PacketSize) (m : ℕ) (c : Connection) : Prop where
  txSeq : c.txSeq = BitVec.ofNat 64 (m * P.words)
  sent : c.sent = L.numbers 0 (m * P.words)

theorem Numbered.send (h : Numbered L P m c) (hwhole : Whole P sends) :
    Numbered L P (m + 1) (c.send L P sends) := by
  have hfull : (L.numbers c.txSeq P.words).length ≤ sends.sum := by
    rw [Layout.length_numbers, ← P.val_eq]
    exact hwhole
  refine ⟨?_, ?_⟩
  · show c.txSeq + _ = _
    rw [h.txSeq, ← BitVec.ofNat_add, Nat.succ_mul]
  · show c.sent ++ sendFull _ sends = _
    have happend := Layout.numbers_append (L := L) (a := 0) (m := m * P.words) (n := P.words)
    rw [sendFull_eq hfull, h.sent, h.txSeq, Nat.succ_mul, ← happend]
    simp

/-! ### Receiving -/

@[simp] theorem compareWords_sent {rxBuf : List UInt8} :
    (c.compareWords L rxBuf n).sent = c.sent := by
  induction n generalizing c rxBuf with
  | zero => rfl
  | succ n ih => exact ih

@[simp] theorem compareWords_received {rxBuf : List UInt8} :
    (c.compareWords L rxBuf n).received = c.received := by
  induction n generalizing c rxBuf with
  | zero => rfl
  | succ n ih => exact ih

@[simp] theorem compareWords_txSeq {rxBuf : List UInt8} :
    (c.compareWords L rxBuf n).txSeq = c.txSeq := by
  induction n generalizing c rxBuf with
  | zero => rfl
  | succ n ih => exact ih

theorem compareWords_rxSeq {rxBuf : List UInt8} :
    (c.compareWords L rxBuf n).rxSeq = c.rxSeq + BitVec.ofNat 64 n := by
  induction n generalizing c rxBuf with
  | zero => exact (BitVec.add_zero _).symm
  | succ n ih => rw [Connection.compareWords, ih, Layout.add_ofNat_succ]; rfl

theorem compare_reported {val : BitVec 64} :
    (c.compare val).reported = [] ↔ c.reported = [] ∧ val = c.rxSeq := by
  by_cases hval : val = c.rxSeq
  · simp [Connection.compare, hval]
  · simp [Connection.compare, hval]

/-- **What one read reports**: nothing, if and only if its words have the numbers from `rxSeq`
on. -/
theorem compareWords_reported {rxBuf : List UInt8} :
    (c.compareWords L rxBuf n).reported = [] ↔
      c.reported = [] ∧ ∀ k < n, L.wordAt rxBuf k = c.rxSeq + BitVec.ofNat 64 k := by
  induction n generalizing c rxBuf with
  | zero => simp [Connection.compareWords]
  | succ n ih =>
    have hfirst : L.load (rxBuf.take 8) = L.wordAt rxBuf 0 := rfl
    have hrest : ∀ k, L.wordAt (rxBuf.drop 8) k = L.wordAt rxBuf (k + 1) := by
      intro k
      rw [Layout.wordAt, List.drop_drop, Nat.add_comm 8, Layout.wordAt, Nat.mul_succ]
    have hnext : (c.compare (L.load (rxBuf.take 8))).rxSeq = c.rxSeq + 1 := rfl
    rw [Connection.compareWords, ih, compare_reported, hnext, hfirst, and_assoc]
    refine and_congr_right fun _ => ⟨?_, fun h => ⟨?_, fun k hk => ?_⟩⟩
    · rintro ⟨hzero, hsucc⟩ k hk
      cases k with
      | zero => simpa using hzero
      | succ k =>
        rw [← hrest, hsucc k (Nat.lt_of_succ_lt_succ hk), Layout.add_ofNat_succ]
    · simpa using h 0 (Nat.succ_pos n)
    · rw [hrest, h (k + 1) (Nat.succ_lt_succ hk), Layout.add_ofNat_succ]

theorem accept_received : (c.accept L P data).received = c.received ++ data := by
  rw [Connection.accept]
  split
  · exact compareWords_received
  · rfl

theorem accept_sent : (c.accept L P data).sent = c.sent := by
  rw [Connection.accept]
  split
  · exact compareWords_sent
  · rfl

theorem accept_txSeq : (c.accept L P data).txSeq = c.txSeq := by
  rw [Connection.accept]
  split
  · exact compareWords_txSeq
  · rfl

theorem Numbered.accept (h : Numbered L P m c) : Numbered L P m (c.accept L P data) :=
  ⟨accept_txSeq.trans h.txSeq, accept_sent.trans h.sent⟩

/-- Behind `n` reads of whole packets and `r` bytes more, what is reported is what is wrong with
the words of the packets. -/
structure Checked (L : Layout) (P : PacketSize) (n r : ℕ) (c : Connection) : Prop where
  length : c.received.length = 8 * (n * P.words) + r
  rxSeq : c.rxSeq = BitVec.ofNat 64 (n * P.words)
  reported : c.reported = [] ↔
    ∀ k < n * P.words, L.wordAt c.received k = BitVec.ofNat 64 k

/-- A read of a whole packet is compared with the right numbers. -/
theorem Checked.whole (h : Checked L P n 0 c) (hdata : data.length = P.val) :
    Checked L P (n + 1) 0 (c.accept L P data) := by
  have hreceived : (c.accept L P data).received = c.received ++ data := accept_received
  have hold : ∀ k < n * P.words, L.wordAt (c.received ++ data) k = L.wordAt c.received k := by
    intro k hk
    have hlength := h.length
    exact Layout.wordAt_append (by omega)
  have hnew : ∀ k, L.wordAt (c.received ++ data) (n * P.words + k) = L.wordAt data k :=
    fun k => Layout.wordAt_append_right h.length
  have haccept : c.accept L P data =
      ({ c with received := c.received ++ data } : Connection).compareWords L data P.words := by
    rw [Connection.accept, if_pos hdata]
  refine ⟨?_, ?_, ?_⟩
  · have hsucc : (n + 1) * P.words = n * P.words + P.words := Nat.succ_mul ..
    rw [hreceived, List.length_append, h.length, hdata, P.val_eq, hsucc]
    omega
  · rw [haccept, compareWords_rxSeq, Nat.succ_mul, BitVec.ofNat_add]
    exact congrArg (· + _) h.rxSeq
  · rw [haccept, compareWords_reported, ← haccept, hreceived]
    show c.reported = [] ∧ (∀ k < P.words, L.wordAt data k = c.rxSeq + _) ↔ _
    rw [h.reported, h.rxSeq, Nat.succ_mul]
    refine ⟨?_, fun hall => ⟨fun k hk => ?_, fun k hk => ?_⟩⟩
    · rintro ⟨hfront, hback⟩ k hk
      rcases Nat.lt_or_ge k (n * P.words) with hlt | hge
      · rw [hold k hlt, hfront k hlt]
      · obtain ⟨i, rfl⟩ := Nat.exists_eq_add_of_le hge
        rw [hnew, hback i (by omega), BitVec.ofNat_add]
    · rw [← hold k hk, hall k (by omega)]
    · rw [← hnew, hall _ (by omega), BitVec.ofNat_add]

theorem handle_cases (c : Connection) (l : Label P) :
    (∃ data pos le, l.segment = some ⟨data.length, pos, le⟩ ∧
        c.handle L P l.events l.answer l.sends = (0, (c.accept L P data).send L P l.sends)) ∨
      l.segment = none ∧ c.handle L P l.events l.answer l.sends = (-1, c) := by
  rw [Label.segment, Connection.handle]
  split
  · cases l.answer with
    | bytes data pos le => exact Or.inl ⟨data, pos, le, rfl, rfl⟩
    | eof | again | error => exact Or.inr ⟨rfl, rfl⟩
  · exact Or.inr ⟨rfl, rfl⟩

/-- A call of `handle` reads a segment, checks it and sends the next packet, or ends the loop. -/
theorem next_cases (h : s.next L P l = some t) : s.running = true ∧
    ((∃ data pos le, l.segment = some ⟨data.length, pos, le⟩ ∧
        t = ⟨(s.conn.accept L P data).send L P l.sends, true⟩) ∨
      l.segment = none ∧ t = ⟨s.conn, false⟩) := by
  rw [State.next] at h
  split at h
  · refine ⟨‹_›, ?_⟩
    rcases handle_cases s.conn l with ⟨data, pos, le, hsegment, hhandle⟩ | ⟨hsegment, hhandle⟩
    · rw [hhandle] at h
      exact Or.inl ⟨data, pos, le, hsegment, (Option.some.inj h).symm⟩
    · rw [hhandle] at h
      exact Or.inr ⟨hsegment, (Option.some.inj h).symm⟩
  · exact absurd h (by simp)

theorem segments_snoc : segments (ls ++ [l]) = segments ls ++ l.segment.toList := by
  rw [segments, List.filterMap_append, segments]
  cases hsegment : l.segment <;> simp [hsegment]

theorem numbered_start (hwhole : Whole P sends) :
    Numbered L P 1 (start L P errCnt sends).conn := by
  have hnone : Numbered L P 0 ⟨0, 0, errCnt, [], [], []⟩ := ⟨by simp, by simp [Layout.numbers]⟩
  exact hnone.send hwhole

/-- As many packets are sent as segments came back, and one more. -/
theorem numbered_run (hwhole : Whole P sends) (hall : ∀ l ∈ ls, Whole P l.sends)
    (h : (system L P).Run (start L P errCnt sends) ls s) :
    Numbered L P ((segments ls).length + 1) s.conn := by
  induction h with
  | nil => exact numbered_start hwhole
  | @snoc s t ls l _ ht ih =>
    have ih := ih fun l hl => hall l (List.mem_append_left _ hl)
    obtain ⟨-, ⟨data, pos, le, hsegment, rfl⟩ | ⟨hsegment, rfl⟩⟩ := next_cases ht
    · rw [segments_snoc, hsegment, Option.toList_some, List.length_append, List.length_singleton]
      exact ih.accept.send (hall l (by simp))
    · simpa [segments_snoc, hsegment] using ih

/-- The counter counts what is reported, from a value that nobody has set. -/
def Counted (errCnt : BitVec 64) (c : Connection) : Prop :=
  c.errCnt = errCnt + BitVec.ofNat 64 c.reported.length

theorem Counted.compare {val : BitVec 64} (h : Counted errCnt c) :
    Counted errCnt (c.compare val) := by
  by_cases hval : val = c.rxSeq
  · simpa [Counted, Connection.compare, hval] using h
  · simp only [Counted, Connection.compare, ne_eq, hval, not_false_eq_true, if_true,
      List.length_append, List.length_singleton]
    rw [h, BitVec.ofNat_add, BitVec.add_assoc]
    rfl

theorem Counted.compareWords {rxBuf : List UInt8} (h : Counted errCnt c) :
    Counted errCnt (c.compareWords L rxBuf n) := by
  induction n generalizing c rxBuf with
  | zero => exact h
  | succ n ih => exact ih h.compare

theorem Numbered.wordAt_sent (h : Numbered L P m c) {k : ℕ} (hk : 8 * k + 8 ≤ c.sent.length) :
    L.wordAt c.sent k = BitVec.ofNat 64 k := by
  rw [h.sent, Layout.length_numbers] at hk
  rw [h.sent, Layout.wordAt_numbers (by omega)]
  exact BitVec.zero_add _

theorem Checked.reported_of_prefix (h : Checked L P n r c) (hsent : Numbered L P m c)
    (hecho : c.received <+: c.sent) : c.reported = [] := by
  refine h.reported.mpr fun k hk => ?_
  have hlength := h.length
  have hle := hecho.length_le
  rw [← Layout.wordAt_of_prefix hecho (by omega), hsent.wordAt_sent (by omega)]

theorem Returned.numbered (h : Returned L errCnt segs s) :
    Numbered L P (segs.length + 1) s.conn := by
  obtain ⟨sends, ls, hsend, hall, rfl, hrun⟩ := h
  exact numbered_run hsend hall hrun

end CppProgramming.Socket.ClientVerify
