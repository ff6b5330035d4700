import Mathlib.Data.List.Basic
import Mathlib.Algebra.Ring.Nat
import Mathlib.Tactic.Common

/-!
# Words in a stream of bytes

How a 64-bit word lies in the memory of a machine is a `Layout`: eight bytes that determine
the word, and that it determines.  A stream of bytes whose boundaries nobody marks is read as
words by position (`wordAt`): the `k`-th word is made of the bytes from the `8 * k`-th on.
-/

namespace CppProgramming.Lib

structure Layout where
  store : BitVec 64 → List UInt8
  load : List UInt8 → BitVec 64
  length_store : ∀ w, (store w).length = 8
  load_store : ∀ w, load (store w) = w
  store_load : ∀ b, b.length = 8 → store (load b) = b

/-! ### Little-endian words -/

/-- The last `n` bytes of a number, the lowest one first. -/
def lowBytes : ℕ → ℕ → List UInt8
  | 0, _ => []
  | n + 1, x => UInt8.ofNat x :: lowBytes n (x / 256)

def ofLowBytes : List UInt8 → ℕ
  | [] => 0
  | b :: bs => b.toNat + 256 * ofLowBytes bs

theorem length_lowBytes (n x : ℕ) : (lowBytes n x).length = n := by
  induction n generalizing x with
  | zero => rfl
  | succ n ih => exact congrArg (· + 1) (ih (x / 256))

theorem ofLowBytes_lowBytes (n x : ℕ) : ofLowBytes (lowBytes n x) = x % 256 ^ n := by
  induction n generalizing x with
  | zero => exact (Nat.mod_one x).symm
  | succ n ih =>
    have hbyte : (UInt8.ofNat x).toNat = x % 256 := UInt8.toNat_ofNat'
    rw [lowBytes, ofLowBytes, ih, hbyte, Nat.pow_succ', Nat.mod_mul]

theorem ofLowBytes_lt (b : List UInt8) : ofLowBytes b < 256 ^ b.length := by
  induction b with
  | nil => exact Nat.zero_lt_one
  | cons c b ih =>
    have hc := c.toNat_lt
    rw [ofLowBytes, List.length_cons, Nat.pow_succ']
    omega

theorem lowBytes_ofLowBytes (b : List UInt8) : lowBytes b.length (ofLowBytes b) = b := by
  induction b with
  | nil => rfl
  | cons c b ih =>
    have hc := c.toNat_lt
    have hdiv : (c.toNat + 256 * ofLowBytes b) / 256 = ofLowBytes b := by omega
    have hbyte : UInt8.ofNat (c.toNat + 256 * ofLowBytes b) = c := by
      apply UInt8.toNat_inj.mp
      rw [UInt8.toNat_ofNat', Nat.add_mul_mod_self_left]
      exact Nat.mod_eq_of_lt hc
    rw [List.length_cons, ofLowBytes, lowBytes, hdiv, ih, hbyte]

/-- A number of `w` bits is read back from its bytes. -/
theorem ofNat_ofLowBytes_lowBytes {w n : ℕ} (h : 256 ^ n = 2 ^ w) (x : BitVec w) :
    BitVec.ofNat w (ofLowBytes (lowBytes n x.toNat)) = x := by
  apply BitVec.eq_of_toNat_eq
  rw [BitVec.toNat_ofNat, ofLowBytes_lowBytes, h, Nat.mod_mod, Nat.mod_eq_of_lt x.isLt]

def Layout.littleEndian : Layout where
  store w := lowBytes 8 w.toNat
  load b := BitVec.ofNat 64 (ofLowBytes b)
  length_store w := length_lowBytes 8 w.toNat
  load_store w := ofNat_ofLowBytes_lowBytes (by decide) w
  store_load b hb := by
    have hlt : ofLowBytes b < 2 ^ 64 := by simpa [hb] using ofLowBytes_lt b
    rw [BitVec.toNat_ofNat, Nat.mod_eq_of_lt hlt, ← hb]
    exact lowBytes_ofLowBytes b

/-! ### The words of a stream -/

namespace Layout

variable (L : Layout)

def wordAt (b : List UInt8) (k : ℕ) : BitVec 64 := L.load ((b.drop (8 * k)).take 8)

variable {L} {b c : List UInt8} {k n : ℕ}

theorem wordAt_append (h : 8 * k + 8 ≤ b.length) : L.wordAt (b ++ c) k = L.wordAt b k := by
  have hlen : 8 ≤ (b.drop (8 * k)).length := by
    rw [List.length_drop]
    omega
  rw [wordAt, List.drop_append_of_le_length (by omega), List.take_append_of_le_length hlen, wordAt]

theorem wordAt_append_right (h : b.length = 8 * n) : L.wordAt (b ++ c) (n + k) = L.wordAt c k := by
  rw [wordAt, Nat.mul_add, ← h, ← List.drop_drop, List.drop_left, wordAt]

/-- What was sent so far and what has come back of it have the same words. -/
theorem wordAt_of_prefix (h : b <+: c) (hk : 8 * k + 8 ≤ b.length) :
    L.wordAt c k = L.wordAt b k := by
  obtain ⟨d, rfl⟩ := h
  exact wordAt_append hk

variable (L)

/-- The words with the `n` numbers from `a` on. -/
def numbers (a : BitVec 64) : ℕ → List UInt8
  | 0 => []
  | n + 1 => L.store a ++ numbers (a + 1) n

variable {L} {a : BitVec 64} {m : ℕ}

@[simp] theorem length_numbers : (L.numbers a n).length = 8 * n := by
  induction n generalizing a with
  | zero => rfl
  | succ n ih =>
    rw [numbers, List.length_append, L.length_store, ih]
    omega

theorem add_ofNat_succ (k : ℕ) :
    a + BitVec.ofNat 64 (k + 1) = a + 1 + BitVec.ofNat 64 k := by
  rw [BitVec.ofNat_add, BitVec.add_assoc, BitVec.add_comm 1]
  rfl

theorem numbers_append :
    L.numbers a m ++ L.numbers (a + BitVec.ofNat 64 m) n = L.numbers a (m + n) := by
  induction m generalizing a with
  | zero => simp [numbers]
  | succ m ih =>
    rw [Nat.succ_add, numbers, numbers, List.append_assoc, add_ofNat_succ, ih]

theorem wordAt_numbers (hk : k < n) : L.wordAt (L.numbers a n) k = a + BitVec.ofNat 64 k := by
  induction n generalizing a k with
  | zero => exact absurd hk (Nat.not_lt_zero k)
  | succ n ih =>
    cases k with
    | zero =>
      rw [numbers, wordAt_append (by simp [L.length_store]), wordAt, Nat.mul_zero, List.drop_zero,
        List.take_of_length_le (by simp [L.length_store]), L.load_store]
      simp
    | succ k =>
      rw [add_ofNat_succ, numbers, Nat.add_comm k 1,
        wordAt_append_right (n := 1) (L.length_store a), ih (Nat.lt_of_succ_lt_succ hk)]

end Layout

end CppProgramming.Lib
