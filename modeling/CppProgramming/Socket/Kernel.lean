import Mathlib.Data.List.Basic

/-!
# What the kernel answers

The results of the system calls of the socket servers.  A result carries the
bound that the call itself guarantees, so that an answer the kernel cannot give
(more bytes than the segments hold, a read of no bytes that is not the end of
the stream) cannot be written down: a run ranges over all answers and nothing
has to be assumed of them.
-/

namespace CppProgramming.Socket

def EPOLLIN : BitVec 32 := 0x001

def EPOLLOUT : BitVec 32 := 0x004

/-- What `recv` or `recvmsg` answers to a request for at most `n` bytes.
`again` is `EAGAIN` or `EWOULDBLOCK`, `error` any other `errno`. -/
inductive RecvResult (n : ℕ)
  | bytes (data : List UInt8) (pos : 0 < data.length) (le : data.length ≤ n)
  | eof
  | again
  | error

/-- The bytes a read delivered. -/
def RecvResult.data {n : ℕ} : RecvResult n → List UInt8
  | .bytes data _ _ => data
  | .eof => []
  | .again => []
  | .error => []

/-- The two answers to a read on which the servers give up. -/
def RecvResult.failed {n : ℕ} : RecvResult n → Bool
  | .bytes _ _ _ => false
  | .eof => true
  | .again => false
  | .error => true

theorem RecvResult.length_data_le {n : ℕ} (r : RecvResult n) : r.data.length ≤ n := by
  cases r with
  | bytes _ _ le => exact le
  | eof => exact Nat.zero_le _
  | again => exact Nat.zero_le _
  | error => exact Nat.zero_le _

/-- What `send` or `sendmsg` answers to an offer of `n` bytes. -/
inductive SendResult (n : ℕ)
  | sent (len : ℕ) (le : len ≤ n)
  | again
  | error

/-- The number of bytes a send took; a send that fails took none. -/
def SendResult.count {n : ℕ} : SendResult n → ℕ
  | .sent len _ => len
  | .again => 0
  | .error => 0

/-- The answer to a send on which the servers give up. -/
def SendResult.failed {n : ℕ} : SendResult n → Bool
  | .sent _ _ => false
  | .again => false
  | .error => true

/-- `EAGAIN` or `EWOULDBLOCK`. -/
def SendResult.isAgain {n : ℕ} : SendResult n → Bool
  | .sent _ _ => false
  | .again => true
  | .error => false

theorem SendResult.count_le {n : ℕ} (r : SendResult n) : r.count ≤ n := by
  cases r with
  | sent _ le => exact le
  | again => exact Nat.zero_le _
  | error => exact Nat.zero_le _

/-! ### Event masks -/

/-- A mask contains an event. -/
def Armed (mask event : BitVec 32) : Prop := mask &&& event ≠ 0

instance (mask event : BitVec 32) : Decidable (Armed mask event) :=
  inferInstanceAs (Decidable (_ ≠ _))

theorem armed_twoPow (mask : BitVec 32) {i : ℕ} (hi : i < 32) :
    Armed mask (BitVec.twoPow 32 i) ↔ mask.getLsbD i = true := by
  rw [Armed, BitVec.and_twoPow]
  split
  · rename_i hb
    refine iff_of_true ?_ hb
    intro h
    have := congrArg (fun x => BitVec.getLsbD x i) h
    simp [hi] at this
  · rename_i hb
    exact iff_of_false (fun h => h rfl) hb

theorem armed_in (mask : BitVec 32) : Armed mask EPOLLIN ↔ mask.getLsbD 0 = true :=
  armed_twoPow mask (i := 0) (by omega)

theorem armed_out (mask : BitVec 32) : Armed mask EPOLLOUT ↔ mask.getLsbD 2 = true :=
  armed_twoPow mask (i := 2) (by omega)

@[simp] theorem EPOLLIN_bit_zero : EPOLLIN[0] = true := rfl
@[simp] theorem EPOLLIN_bit_two : EPOLLIN[2] = false := rfl
@[simp] theorem EPOLLOUT_bit_zero : EPOLLOUT[0] = false := rfl
@[simp] theorem EPOLLOUT_bit_two : EPOLLOUT[2] = true := rfl

/-- Setting or clearing one of the two events leaves the other alone. -/
@[simp] theorem armed_in_or_in (mask : BitVec 32) : Armed (mask ||| EPOLLIN) EPOLLIN := by
  simp [armed_in]

@[simp] theorem armed_in_or_out (mask : BitVec 32) :
    Armed (mask ||| EPOLLOUT) EPOLLIN ↔ Armed mask EPOLLIN := by
  simp [armed_in]

@[simp] theorem armed_out_or_out (mask : BitVec 32) : Armed (mask ||| EPOLLOUT) EPOLLOUT := by
  simp [armed_out]

@[simp] theorem armed_out_or_in (mask : BitVec 32) :
    Armed (mask ||| EPOLLIN) EPOLLOUT ↔ Armed mask EPOLLOUT := by
  simp [armed_out]

@[simp] theorem armed_in_clear_in (mask : BitVec 32) : ¬ Armed (mask &&& ~~~EPOLLIN) EPOLLIN := by
  simp [armed_in]

@[simp] theorem armed_in_clear_out (mask : BitVec 32) :
    Armed (mask &&& ~~~EPOLLOUT) EPOLLIN ↔ Armed mask EPOLLIN := by
  simp [armed_in]

@[simp] theorem armed_out_clear_out (mask : BitVec 32) :
    ¬ Armed (mask &&& ~~~EPOLLOUT) EPOLLOUT := by
  simp [armed_out]

@[simp] theorem armed_out_clear_in (mask : BitVec 32) :
    Armed (mask &&& ~~~EPOLLIN) EPOLLOUT ↔ Armed mask EPOLLOUT := by
  simp [armed_out]

end CppProgramming.Socket
