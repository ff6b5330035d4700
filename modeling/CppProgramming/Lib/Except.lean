import Mathlib.Tactic.Common

/-!
# Computations that can fail

Code that stops at a fault is written in the monad `Except ε`, and its proofs go
through it line by line.  `ok_bind` and `error_bind` take the first line away when
its outcome is known; `finished_of_bind` finds that outcome when the computation has
come to its end.
-/

namespace CppProgramming.Lib

variable {ε α β : Type}

@[simp] theorem ok_bind (a : α) (f : α → Except ε β) : (Except.ok a >>= f) = f a := rfl

@[simp] theorem error_bind (e : ε) (f : α → Except ε β) :
    (Except.error e >>= f) = .error e := rfl

/-- **A computation that came to its end** has gone through its first line. -/
theorem finished_of_bind {x : Except ε α} {f : α → Except ε β} {b : β}
    (h : (x >>= f) = .ok b) : ∃ a, x = .ok a ∧ f a = .ok b := by
  cases x with
  | error e => exact nomatch h
  | ok a => exact ⟨a, rfl, h⟩

end CppProgramming.Lib
