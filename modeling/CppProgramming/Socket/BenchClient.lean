import CppProgramming.Lib.Histogram
import CppProgramming.Lib.Transition
import Mathlib.Algebra.Order.Ring.Int
import Mathlib.Data.List.Sort
import Mathlib.Data.Prod.Lex
import Mathlib.Order.Bounds.Basic

/-!
# The latencies of the benchmark client

`get_p99`, `Total` and `LatencyTracer` of `tcp_echo/client_epoll_bench.cpp`.  The thread of
an event loop pushes its samples into a ring that is indexed through a mask; the main thread
takes whole blocks of 256 out of it, counts them in the histogram of a `Total`, and reads a
percentile off the histogram.
-/

namespace CppProgramming.Socket.BenchClient

open CppProgramming.Lib

/-! ### The percentile -/

/-- What an `ll` holds of `x`. -/
def wrapLl (x : ℤ) : ℤ := Int.bmod x (2 ^ 64)

theorem wrapLl_eq {x : ℤ} (h₀ : 0 ≤ x) (h : x < 2 ^ 63) : wrapLl x = x := by
  unfold wrapLl
  exact Int.bmod_eq_of_le (by omega) (by omega)

/-- The loop of `get_p99` over the pairs from the last one down, with what `n` is. -/
def p99Loop (tailNum n : ℤ) : List (ℤ × ℕ) → ℤ
  | [] => 0
  | e :: sorted =>
    let n := wrapLl (n + e.2)
    if n ≥ tailNum then e.1 else p99Loop tailNum n sorted

/-- The pairs of `tails` as `std::sort` leaves them. -/
def sorted (tails : List (ℤ × ℕ)) : List (ℤ × ℕ) :=
  tails.insertionSort fun a b => toLex a ≤ toLex b

/-- `get_p99` of a map that is gone through in the order `tails`. -/
def getP99 (tails : List (ℤ × ℕ)) (tailNum : ℤ) : ℤ := p99Loop tailNum 0 (sorted tails).reverse

theorem sorted_perm (tails : List (ℤ × ℕ)) : (sorted tails).Perm tails :=
  List.perm_insertionSort _ _

instance isTrans_pairs : IsTrans (ℤ × ℕ) fun a b => toLex a ≤ toLex b := ⟨fun _ _ _ => le_trans⟩

instance total_pairs : Std.Total fun a b : ℤ × ℕ => toLex a ≤ toLex b := ⟨fun _ _ => le_total _ _⟩

theorem sorted_pairwise (tails : List (ℤ × ℕ)) :
    (sorted tails).Pairwise fun a b => toLex a ≤ toLex b :=
  List.pairwise_insertionSort _ _

/-- Sorting forgets the order of the iteration. -/
theorem sorted_congr {l m : List (ℤ × ℕ)} (h : l.Perm m) : sorted l = sorted m := by
  have hperm : (sorted l).Perm (sorted m) := ((sorted_perm l).trans h).trans (sorted_perm m).symm
  refine hperm.eq_of_pairwise ?_ (sorted_pairwise l) (sorted_pairwise m)
  intro a b _ _ hab hba
  exact toLex.injective (le_antisymm hab hba)

theorem descending_reverse_sorted (h : Histogram ℤ) : Descending (sorted h.entries).reverse := by
  rw [Descending, List.pairwise_reverse]
  have hnodup : ((sorted h.entries).map Prod.fst).Nodup :=
    ((sorted_perm h.entries).map Prod.fst).nodup_iff.mpr h.nodup
  have hne : (sorted h.entries).Pairwise fun a b => a.1 ≠ b.1 := List.pairwise_map.mp hnodup
  refine ((sorted_pairwise h.entries).and hne).imp fun {a b} hab => ?_
  obtain ⟨hle, hne⟩ := hab
  rcases Prod.Lex.le_iff.mp hle with hlt | ⟨heq, _⟩
  · exact hlt
  · exact absurd heq hne

/-- A turn of the loop, where an `ll` can count the samples. -/
theorem p99Loop_cons {tailNum n : ℤ} {e : ℤ × ℕ} {l : List (ℤ × ℕ)} (hn : 0 ≤ n)
    (hfits : n + ((e :: l).map Prod.snd).sum < 2 ^ 63) :
    p99Loop tailNum n (e :: l) = (if n + e.2 ≥ tailNum then e.1 else p99Loop tailNum (n + e.2) l) ∧
      0 ≤ n + e.2 ∧ n + e.2 + (l.map Prod.snd).sum < 2 ^ 63 := by
  rw [List.map_cons, List.sum_cons, Nat.cast_add] at hfits
  rw [p99Loop, wrapLl_eq (by omega) (by omega)]
  exact ⟨rfl, by omega, by omega⟩

theorem p99Loop_of_lt {tailNum : ℤ} : ∀ {l : List (ℤ × ℕ)} {n : ℤ}, 0 ≤ n →
    n + (l.map Prod.snd).sum < 2 ^ 63 → n + (l.map Prod.snd).sum < tailNum →
    p99Loop tailNum n l = 0 := by
  intro l
  induction l with
  | nil => intro n _ _ _; rfl
  | cons e l ih =>
    intro n hn hfits h
    obtain ⟨hloop, hn', hfits'⟩ := p99Loop_cons (l := l) hn hfits
    rw [List.map_cons, List.sum_cons, Nat.cast_add] at h
    rw [hloop, if_neg (by omega)]
    exact ih hn' hfits' (by omega)

/-- **The loop stops at the first pair with which the counts reach the threshold.** -/
theorem p99Loop_split {tailNum : ℤ} : ∀ {l : List (ℤ × ℕ)} {n : ℤ}, 0 ≤ n →
    n + (l.map Prod.snd).sum < 2 ^ 63 → l ≠ [] → tailNum ≤ n + (l.map Prod.snd).sum →
    ∃ (front : List (ℤ × ℕ)) (e : ℤ × ℕ) (rest : List (ℤ × ℕ)),
      l = front ++ e :: rest ∧ p99Loop tailNum n l = e.1 ∧
      tailNum ≤ n + (front.map Prod.snd).sum + e.2 ∧
      (front = [] ∨ n + (front.map Prod.snd).sum < tailNum) := by
  intro l
  induction l with
  | nil => intro n _ _ hne; exact absurd rfl hne
  | cons e l ih =>
    intro n hn hfits _ h
    obtain ⟨hturn, hn', hfits'⟩ := p99Loop_cons (l := l) hn hfits
    by_cases he : n + e.2 ≥ tailNum
    · exact ⟨[], e, l, rfl, by rw [hturn, if_pos he], by simpa using he, Or.inl rfl⟩
    · rw [List.map_cons, List.sum_cons, Nat.cast_add] at h
      have hne : l ≠ [] := by
        rintro rfl
        exact he (by simpa using h)
      obtain ⟨front, a, rest, rfl, hloop, hreach, hbefore⟩ :=
        ih (n := n + e.2) hn' hfits' hne (by omega)
      refine ⟨e :: front, a, rest, rfl, ?_, ?_, Or.inr ?_⟩
      · rw [hturn, if_neg he, hloop]
      · rw [List.map_cons, List.sum_cons, Nat.cast_add]
        omega
      · rcases hbefore with rfl | hbefore
        · simpa using he
        · rw [List.map_cons, List.sum_cons, Nat.cast_add]
          omega

theorem entries_perm_reverse_sorted (h : Histogram ℤ) :
    h.entries.Perm (sorted h.entries).reverse :=
  (sorted_perm h.entries).symm.trans (List.reverse_perm _).symm

theorem total_eq_sum_sorted (h : Histogram ℤ) :
    h.total = ((sorted h.entries).reverse.map Prod.snd).sum :=
  ((entries_perm_reverse_sorted h).map Prod.snd).sum_nat

/-- A threshold that the samples reach is met last at the greatest key with so many samples
above it. -/
theorem isGreatest_getP99 {h : Histogram ℤ} {tailNum : ℤ} (hfits : h.total < 2 ^ 63)
    (hne : h.keys ≠ []) (htail : tailNum ≤ h.total) :
    IsGreatest {v | v ∈ h.keys ∧ tailNum ≤ h.atLeast v} (getP99 h.entries tailNum) := by
  have hperm := entries_perm_reverse_sorted h
  have hdesc := descending_reverse_sorted h
  have hne' : (sorted h.entries).reverse ≠ [] := by
    intro hnil
    rw [hnil] at hperm
    exact hne (by rw [Histogram.keys, hperm.eq_nil, List.map_nil])
  rw [total_eq_sum_sorted] at htail hfits
  obtain ⟨front, e, rest, hsplit, hloop, hreach, hbefore⟩ :=
    p99Loop_split (n := 0) le_rfl (by rw [zero_add]; exact_mod_cast hfits) hne'
      (by simpa using htail)
  have hatLeast : ∀ v, h.atLeast v = upper (front ++ e :: rest) v := by
    intro v
    rw [h.atLeast_eq_upper, upper_perm hperm, hsplit]
  have hkeys : ∀ v, v ∈ h.keys ↔ v ∈ (front ++ e :: rest).map Prod.fst := by
    intro v
    rw [Histogram.keys, (hperm.map Prod.fst).mem_iff, hsplit]
  rw [hsplit] at hdesc
  rw [show getP99 h.entries tailNum = e.1 from hloop]
  constructor
  · refine ⟨(hkeys e.1).mpr (by simp), ?_⟩
    rw [hatLeast, upper_of_descending hdesc, Nat.cast_add]
    omega
  · rintro w ⟨hw, hwtail⟩
    by_contra hlt
    rw [not_le] at hlt
    -- a greater key lies in front, and what is in front did not reach the threshold
    have hfront := mem_front_of_lt hdesc ((hkeys w).mp hw) hlt
    rcases hbefore with rfl | hbefore
    · exact absurd hfront (by simp)
    · have hle := upper_le_of_lt hdesc hlt
      rw [hatLeast] at hwtail
      omega

/-- Without a threshold the first pair is taken. -/
theorem isGreatest_getP99_of_nonpos {h : Histogram ℤ} {tailNum : ℤ}
    (hcounts : ∀ e ∈ h.entries, e.2 < 2 ^ 63) (hzero : tailNum ≤ 0) (hne : h.keys ≠ []) :
    IsGreatest {v | v ∈ h.keys} (getP99 h.entries tailNum) := by
  have hperm := entries_perm_reverse_sorted h
  have hdesc := descending_reverse_sorted h
  have hkeys : ∀ v, v ∈ h.keys ↔ v ∈ (sorted h.entries).reverse.map Prod.fst :=
    fun v => (hperm.map Prod.fst).mem_iff
  rw [getP99]
  generalize hl : (sorted h.entries).reverse = l at hperm hdesc hkeys ⊢
  cases l with
  | nil => exact absurd (by rw [Histogram.keys, hperm.eq_nil, List.map_nil]) hne
  | cons e l =>
    have hcount : (e.2 : ℤ) < 2 ^ 63 := by
      exact_mod_cast hcounts e (hperm.mem_iff.mpr List.mem_cons_self)
    rw [p99Loop, zero_add, wrapLl_eq (Int.natCast_nonneg _) hcount, if_pos (by omega)]
    refine ⟨(hkeys e.1).mpr List.mem_cons_self, fun w hw => ?_⟩
    rcases List.mem_cons.mp ((hkeys w).mp hw) with rfl | hw
    · exact le_rfl
    · obtain ⟨a, ha, rfl⟩ := List.mem_map.mp hw
      exact (List.rel_of_pairwise_cons hdesc ha).le

/-- **The percentile is an order statistic**, for counts and a threshold that an `ll` holds.
Where an `ll` can count the samples it is the greatest sample that at least `tailNum` samples
reach; without a threshold it is the greatest sample, and where no sample is reached by so many
it is `0`.  The order in which the map is gone through does not matter. -/
theorem getP99_order_statistic (h : Histogram ℤ) (hcounts : ∀ e ∈ h.entries, e.2 < 2 ^ 63)
    (tailNum : ℤ) (htailNum : tailNum < 2 ^ 63) :
    (h.total < 2 ^ 63 → 1 ≤ tailNum → tailNum ≤ h.total →
      IsGreatest {v | v ∈ h.keys ∧ tailNum ≤ h.atLeast v} (getP99 h.entries tailNum)) ∧
    (tailNum ≤ 0 → h.keys ≠ [] → IsGreatest {v | v ∈ h.keys} (getP99 h.entries tailNum)) ∧
    (h.keys = [] ∨ h.total < tailNum → getP99 h.entries tailNum = 0) ∧
    ∀ g : Histogram ℤ, g.entries.Perm h.entries →
      getP99 g.entries tailNum = getP99 h.entries tailNum := by
  refine ⟨?_, isGreatest_getP99_of_nonpos hcounts, ?_, ?_⟩
  · intro hfits hone htail
    refine isGreatest_getP99 hfits (fun hnil => ?_) htail
    rw [Histogram.total, List.map_eq_nil_iff.mp hnil] at htail
    simp only [List.map_nil, List.sum_nil, Nat.cast_zero] at htail
    omega
  · rintro (hnil | hlt)
    · rw [List.map_eq_nil_iff.mp hnil]
      rfl
    · rw [total_eq_sum_sorted] at hlt
      exact p99Loop_of_lt le_rfl (by rw [zero_add]; exact hlt.trans htailNum) (by simpa using hlt)
  · intro g hperm
    rw [getP99, getP99, sorted_congr hperm]

def eightSamples : Histogram ℤ := ⟨[(7, 1), (40, 2), (12, 5)], by decide, by decide⟩

theorem getP99_order_statistic_eight :
    IsGreatest {v | v ∈ eightSamples.keys ∧ 3 ≤ (eightSamples.atLeast v : ℤ)} 12 :=
  (getP99_order_statistic eightSamples (by decide) 3 (by decide)).1 (by decide) (by decide)
    (by decide)

/-- Two keys that are counted `2 ^ 62` times each. -/
def manySamples : Histogram ℤ := ⟨[(1, 2 ^ 62), (2, 2 ^ 62)], by decide, by decide⟩

/-- Beyond an `ll` the sum of the counts falls back below the threshold. -/
theorem getP99_overflows :
    ¬ ∀ h : Histogram ℤ, (∀ e ∈ h.entries, e.2 < 2 ^ 63) → ∀ tailNum : ℤ, tailNum < 2 ^ 63 →
      1 ≤ tailNum → tailNum ≤ h.total →
        IsGreatest {v | v ∈ h.keys ∧ tailNum ≤ h.atLeast v} (getP99 h.entries tailNum) := by
  intro hall
  have hgreatest := hall manySamples (by decide) (2 ^ 63 - 1) (by decide) (by decide) (by decide)
  have hzero : getP99 manySamples.entries (2 ^ 63 - 1) = 0 := by decide
  rw [hzero] at hgreatest
  exact absurd hgreatest.1.1 (by decide)

end CppProgramming.Socket.BenchClient
