import CppProgramming.Lib.Framing
import Mathlib.Algebra.Group.Int.Defs

/-!
# `chat_message.hpp`

A message is a header of four characters, the length of the body in decimal, and a body of up
to 512 bytes.  A receiver reads the header with `atoi`, which is generous: blanks, a sign and
what follows the digits do not matter, and without any digits the length is zero.  Only a
length that does not fit is refused, and a negative one is a length that does not fit.
-/

namespace CppProgramming.Chat

open CppProgramming.Lib

def headerLength : ℕ := 4

def maxBodyLength : ℕ := 512

def isSpace (c : UInt8) : Bool := c = 32 || 9 ≤ c && c ≤ 13

def isDigit (c : UInt8) : Bool := 48 ≤ c && c ≤ 57

/-- The number that the digits at the start of `s` are, after the digits of `n`. -/
def number (n : ℕ) : List UInt8 → ℕ
  | c :: s => if isDigit c then number (10 * n + (c.toNat - 48)) s else n
  | [] => n

/-- `std::atoi`, for a string of a few characters. -/
def atoi (s : List UInt8) : ℤ :=
  match s.dropWhile isSpace with
  | 45 :: s => -number 0 s
  | 43 :: s => number 0 s
  | s => number 0 s

/-- `decode_header`: the length of the body, if the header is accepted. -/
def decodeHeader (data : List UInt8) : Option ℕ :=
  -- `strncat` stops at a zero, and `body_length_` is a `size_t`
  let header := (data.take headerLength).takeWhile (· ≠ 0)
  let bodyLength := (atoi header % 2 ^ 64).toNat
  if bodyLength > maxBodyLength then none else some bodyLength

/-- `encode_header`: `%4d` -/
def encodeHeader (bodyLength : ℕ) : List UInt8 :=
  let digits := (Nat.toDigits 10 bodyLength).map fun c => c.toNat.toUInt8
  (List.replicate (4 - digits.length) 32 ++ digits).take headerLength

/-- A message: what of `data_` is within its length. -/
abbrev Message : Type := Frame UInt8 headerLength decodeHeader

theorem length_encodeHeader {n : ℕ} (h : n ≤ maxBodyLength) :
    (encodeHeader n).length = headerLength := by
  have hall : ∀ n ∈ List.range 513, (encodeHeader n).length = 4 := by decide +kernel
  exact hall n (List.mem_range.mpr (Nat.lt_succ_of_le h))

/-- **What is encoded is decoded.** -/
theorem decodeHeader_encodeHeader {n : ℕ} (h : n ≤ maxBodyLength) :
    decodeHeader (encodeHeader n) = some n := by
  have hall : ∀ n ∈ List.range 513, decodeHeader (encodeHeader n) = some n := by decide +kernel
  exact hall n (List.mem_range.mpr (Nat.lt_succ_of_le h))

example : decodeHeader [43, 55, 120, 0] = some 7 := by decide

example : decodeHeader [32, 45, 49, 32] = none := by decide

/-- What a client makes of a line: `strlen` stops at a zero, and `body_length` cuts at its bound. -/
def Message.ofLine (line : List UInt8) : Message where
  header := encodeHeader ((line.takeWhile (· ≠ 0)).take maxBodyLength).length
  body := (line.takeWhile (· ≠ 0)).take maxBodyLength
  length_header := length_encodeHeader (List.length_take_le ..)
  decode_header := decodeHeader_encodeHeader (List.length_take_le ..)

end CppProgramming.Chat
