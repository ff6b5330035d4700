import Mathlib.Data.List.Basic
import Mathlib.Tactic.Common

/-!
# Parts of a buffer

A buffer is the list of its bytes.  `loadBytes` reads some of them and `storeBytes` replaces
some; what reaches out of the buffer is `none`.  A buffer that is written as `a ++ (b ++ c)` is
read and written at `b` by `loadBytes_append` and `storeBytes_append`.
-/

namespace CppProgramming.Lib.ByteBuffer

/-- The `n` bytes from `off` on. -/
def loadBytes (buf : List UInt8) (off n : ℕ) : Option (List UInt8) :=
  if off + n ≤ buf.length then some ((buf.drop off).take n) else none

/-- The buffer with `bytes` from `off` on. -/
def storeBytes (buf : List UInt8) (off : ℕ) (bytes : List UInt8) : Option (List UInt8) :=
  if off + bytes.length ≤ buf.length then
    some (buf.take off ++ bytes ++ buf.drop (off + bytes.length))
  else none

variable {buf a b b' c : List UInt8} {off n : ℕ}

theorem loadBytes_of_le (h : off + n ≤ buf.length) :
    loadBytes buf off n = some ((buf.drop off).take n) :=
  if_pos h

theorem loadBytes_of_lt (h : buf.length < off + n) : loadBytes buf off n = none :=
  if_neg (Nat.not_le.mpr h)

/-- What lies behind is not read. -/
theorem loadBytes_append_left (h : off + n ≤ a.length) :
    loadBytes (a ++ b) off n = loadBytes a off n := by
  have hdrop : n ≤ (a.drop off).length := by
    rw [List.length_drop]
    omega
  rw [loadBytes_of_le h, loadBytes_of_le (by rw [List.length_append]; omega),
    List.drop_append_of_le_length (by omega), List.take_append_of_le_length hdrop]

theorem loadBytes_append (ha : a.length = off) (hb : b.length = n) :
    loadBytes (a ++ (b ++ c)) off n = some b := by
  subst ha hb
  rw [loadBytes_of_le (by simp), List.drop_left, List.take_left]

theorem storeBytes_append (ha : a.length = off) (hb : b.length = b'.length) :
    storeBytes (a ++ (b ++ c)) off b' = some (a ++ (b' ++ c)) := by
  subst ha
  rw [storeBytes, if_pos (by simp [hb]), List.take_left, ← hb, ← List.drop_drop, List.drop_left,
    List.drop_left, List.append_assoc]

theorem exists_split (h : n ≤ buf.length) : ∃ a b, buf = a ++ b ∧ a.length = n :=
  ⟨buf.take n, buf.drop n, (List.take_append_drop n buf).symm, List.length_take_of_le h⟩

end CppProgramming.Lib.ByteBuffer
