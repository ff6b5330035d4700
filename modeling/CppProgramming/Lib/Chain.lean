import Mathlib.Data.List.Basic
import Mathlib.Tactic.Common

/-!
# Chains of handlers

A table of handlers is gone through in order.  Empty places are passed over, and the first
handler that does not pass on ends the round; this is `scan`.  `through stop` are the handlers
of a list that are called in this way: those up to and including the first that stops.

`scan_eq_foldl` is the rule for such a loop: as long as the handlers leave the table alone, it
calls `through stop` of the handlers in the table, one after the other.
-/

namespace CppProgramming.Lib

variable {ι α σ : Type*}

/-- The elements up to and including the first that stops. -/
def through (stop : α → Bool) : List α → List α
  | [] => []
  | a :: as => if stop a then [a] else a :: through stop as

variable {stop : α → Bool} {as bs : List α}

theorem through_ne_nil (h : as ≠ []) : through stop as ≠ [] := by
  cases as with
  | nil => exact absurd rfl h
  | cons a as =>
    rw [through]
    split <;> simp

theorem through_append_of_any (h : as.any stop = true) :
    through stop (as ++ bs) = through stop as := by
  induction as with
  | nil => exact absurd h (by simp)
  | cons a as ih =>
    rw [List.cons_append, through, through]
    cases ha : stop a with
    | true => rfl
    | false =>
      rw [List.any_cons, ha, Bool.false_or] at h
      rw [ih h]

theorem through_append_of_not_any (h : as.any stop = false) :
    through stop (as ++ bs) = as ++ through stop bs := by
  induction as with
  | nil => rfl
  | cons a as ih =>
    rw [List.any_cons, Bool.or_eq_false_iff] at h
    rw [List.cons_append, through, if_neg (by simp [h.1]), ih h.2]
    rfl

theorem through_of_not_any (h : as.any stop = false) : through stop as = as := by
  have happ : through stop (as ++ []) = as ++ through stop [] := through_append_of_not_any h
  simpa [through] using happ

/-- **A last element that stops** is reached when no other one stops. -/
theorem through_concat {a : α} (ha : stop a = true) :
    through stop (as ++ [a]) = through stop as ++ if as.any stop then [] else [a] := by
  cases h : as.any stop with
  | true => rw [through_append_of_any h, if_pos rfl, List.append_nil]
  | false =>
    rw [through_append_of_not_any h, through_of_not_any h, through, if_pos ha]
    rfl

/-- The loop.  A step tells whether it is the last. -/
def scan (step : ι → σ → σ × Bool) : List ι → σ → σ
  | [], s => s
  | i :: is, s => if (step i s).2 then (step i s).1 else scan step is (step i s).1

/-- **The rule for the loop.**  While `inv` says what the table is, it goes through the handlers
of the table. -/
theorem scan_eq_foldl {step : ι → σ → σ × Bool} {entry : ι → Option α} {call : σ → α → σ}
    {inv : σ → Prop} (hnone : ∀ i s, inv s → entry i = none → step i s = (s, false))
    (hsome : ∀ i a s, inv s → entry i = some a → step i s = (call s a, stop a))
    (hinv : ∀ i a s, inv s → entry i = some a → inv (call s a)) (is : List ι) {s : σ}
    (hs : inv s) : scan step is s = (through stop (is.filterMap entry)).foldl call s ∧
      inv (scan step is s) := by
  induction is generalizing s with
  | nil => exact ⟨rfl, hs⟩
  | cons i is ih =>
    rw [scan]
    cases hi : entry i with
    | none =>
      rw [hnone i s hs hi, List.filterMap_cons_none hi]
      exact ih hs
    | some a =>
      have ha := hinv i a s hs hi
      rw [hsome i a s hs hi, List.filterMap_cons_some hi, through]
      cases hstop : stop a with
      | true => exact ⟨rfl, ha⟩
      | false => exact ih ha

/-- The entries of a table with one place more. -/
theorem filterMap_finRange_succ {n : ℕ} (entry : Fin (n + 1) → Option α) :
    (List.finRange (n + 1)).filterMap entry =
      ((List.finRange n).filterMap fun i => entry i.castSucc) ++ (entry (Fin.last n)).toList := by
  rw [List.finRange_succ_last, List.filterMap_append, List.filterMap_map]
  rfl

end CppProgramming.Lib
