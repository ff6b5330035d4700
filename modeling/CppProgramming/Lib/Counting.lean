import Mathlib.Algebra.BigOperators.Group.Finset.Basic
import Mathlib.Algebra.BigOperators.Group.Finset.Piecewise
import Mathlib.Algebra.Order.BigOperators.Group.Finset

/-!
# Counting the threads at a place

How many threads stand at certain points of a program is a sum of weights over the
threads.  A step moves one thread, so that one summand changes.
-/

namespace CppProgramming.Lib

variable {Pid M : Type*} [Fintype Pid] [AddCommMonoid M]

/-- Only one summand has changed. -/
theorem sum_add_eq (g g' : Pid → M) (q : Pid) (h : ∀ r, r ≠ q → g' r = g r) :
    ∑ r, g' r + g q = ∑ r, g r + g' q := by
  classical
  have hrest : ∑ r ∈ Finset.univ.erase q, g' r = ∑ r ∈ Finset.univ.erase q, g r :=
    Finset.sum_congr rfl fun r hr => h r (Finset.ne_of_mem_erase hr)
  rw [← Finset.add_sum_erase _ g' (Finset.mem_univ q),
    ← Finset.add_sum_erase _ g (Finset.mem_univ q), hrest, add_comm (g' q), add_right_comm, add_comm (g q)]

/-- A sum over the threads, when one goes on to `c`. -/
theorem sum_update [DecidableEq Pid] {P : Type*} (w : P → M) (pc : Pid → P) (q : Pid) (c : P) :
    ∑ r, w (Function.update pc q c r) + w (pc q) = ∑ r, w (pc r) + w c := by
  have h := sum_add_eq (fun r => w (pc r)) (fun r => w (Function.update pc q c r)) q
    fun r hr => by rw [Function.update_of_ne hr]
  rwa [Function.update_self] at h

theorem weight_le_sum {P : Type*} (w : P → ℕ) (pc : Pid → P) (q : Pid) :
    w (pc q) ≤ ∑ r, w (pc r) :=
  Finset.single_le_sum (f := fun r => w (pc r)) (fun _ _ => Nat.zero_le _) (Finset.mem_univ q)

theorem add_weight_le_sum {P : Type*} (w : P → ℕ) (pc : Pid → P) {q r : Pid} (hqr : q ≠ r) :
    w (pc q) + w (pc r) ≤ ∑ p, w (pc p) :=
  Finset.add_le_sum (f := fun p => w (pc p)) (fun _ _ => Nat.zero_le _) (Finset.mem_univ q)
    (Finset.mem_univ r) hqr

/-- What one thread loses another gains, and the rest lose nothing. -/
theorem sum_le_of_transfer {P : Type*} (w : P → ℕ) (pc pc' : Pid → P) {q r : Pid} (hrq : r ≠ q)
    {d : ℕ} (hloss : w (pc q) ≤ w (pc' q) + d) (hgain : w (pc r) + d ≤ w (pc' r))
    (hrest : ∀ p, p ≠ q → w (pc p) ≤ w (pc' p)) : ∑ p, w (pc p) ≤ ∑ p, w (pc' p) := by
  classical
  have hle : ∑ p, (w (pc p) + if p = r then d else 0) ≤
      ∑ p, (w (pc' p) + if p = q then d else 0) := by
    refine Finset.sum_le_sum fun p _ => ?_
    by_cases hpq : p = q
    · subst hpq
      rw [if_neg hrq.symm, if_pos rfl]
      exact hloss
    · rw [if_neg hpq]
      by_cases hpr : p = r
      · subst hpr
        rw [if_pos rfl]
        exact hgain
      · rw [if_neg hpr]
        exact hrest p hpq
  simp only [Finset.sum_add_distrib, Finset.sum_ite_eq', Finset.mem_univ, if_true] at hle
  omega

end CppProgramming.Lib
