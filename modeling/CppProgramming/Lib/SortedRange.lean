import Mathlib.Order.Lattice
import Mathlib.Data.List.Basic

/-!
# A range of a vector

`onRange f lo hi v` applies `f` to the elements of `v` from `lo` up to `hi`, and leaves the
others alone.  `SortedOn v lo hi` says that these elements are in order; it speaks of
positions, so that a change elsewhere does not touch it (`SortedOn.congr`).
-/

namespace CppProgramming.Lib

variable {α : Type*} {f : List α → List α} {v v' : List α} {lo mid hi i j : ℕ}

def onRange (f : List α → List α) (lo hi : ℕ) (v : List α) : List α :=
  v.take lo ++ (f ((v.take hi).drop lo) ++ v.drop hi)

theorem take_append_range (hle : lo ≤ hi) (v : List α) :
    v.take lo ++ ((v.take hi).drop lo ++ v.drop hi) = v := by
  have htake : v.take lo = (v.take hi).take lo := by rw [List.take_take, Nat.min_eq_left hle]
  rw [htake, ← List.append_assoc, List.take_append_drop, List.take_append_drop]

theorem onRange_perm (hf : ∀ l, (f l).Perm l) (hle : lo ≤ hi) (v : List α) :
    (onRange f lo hi v).Perm v := by
  have hrange := ((hf ((v.take hi).drop lo)).append_right (v.drop hi)).append_left (v.take lo)
  rwa [take_append_range hle] at hrange

theorem getElem?_onRange (hle : lo ≤ hi) (hlen : hi ≤ v.length) (hf : ∀ l, (f l).Perm l)
    (hj : j < hi - lo) : (onRange f lo hi v)[lo + j]? = (f ((v.take hi).drop lo))[j]? := by
  have htake : (v.take lo).length = lo := by rw [List.length_take]; omega
  have hrange : (f ((v.take hi).drop lo)).length = hi - lo := by
    rw [(hf _).length_eq, List.length_drop, List.length_take]
    omega
  rw [onRange, List.getElem?_append_right (by omega), htake, Nat.add_sub_cancel_left,
    List.getElem?_append_left (by omega)]

/-- `v'` is `v` with the elements from `lo` up to `hi` permuted. -/
structure PermOn (v v' : List α) (lo hi : ℕ) : Prop where
  perm : v'.Perm v
  outside : ∀ i, i < lo ∨ hi ≤ i → v'[i]? = v[i]?

theorem PermOn.refl (v : List α) (lo hi : ℕ) : PermOn v v lo hi := ⟨.refl v, fun _ _ => rfl⟩

theorem PermOn.mono {lo' hi' : ℕ} (h : PermOn v v' lo hi) (hlo : lo' ≤ lo) (hhi : hi ≤ hi') :
    PermOn v v' lo' hi' :=
  ⟨h.perm, fun i hi => h.outside i (hi.imp (Nat.lt_of_lt_of_le · hlo) (Nat.le_trans hhi))⟩

theorem permOn_onRange (hle : lo ≤ hi) (hlen : hi ≤ v.length) (hf : ∀ l, (f l).Perm l) :
    PermOn v (onRange f lo hi v) lo hi where
  perm := onRange_perm hf hle v
  outside i hi' := by
    have htake : (v.take lo).length = lo := by rw [List.length_take]; omega
    have hrange : (f ((v.take hi).drop lo)).length = hi - lo := by
      rw [(hf _).length_eq, List.length_drop, List.length_take]
      omega
    rcases hi' with hlt | hge
    · rw [onRange, List.getElem?_append_left (by omega), List.getElem?_take_of_lt hlt]
    · rw [onRange, List.getElem?_append_right (by omega),
        List.getElem?_append_right (by omega), htake, hrange, List.getElem?_drop]
      congr 1
      omega

variable [LinearOrder α]

/-- The elements from `lo` up to `hi` are in order. -/
def SortedOn (v : List α) (lo hi : ℕ) : Prop :=
  ∀ i j, lo ≤ i → i < j → j < hi → ∀ x ∈ v[i]?, ∀ y ∈ v[j]?, x ≤ y

theorem SortedOn.congr (h : SortedOn v lo hi) (heq : ∀ i, lo ≤ i → i < hi → v'[i]? = v[i]?) :
    SortedOn v' lo hi := by
  intro i j hi' hij hj x hx y hy
  rw [heq i hi' (by omega)] at hx
  rw [heq j (by omega) hj] at hy
  exact h i j hi' hij hj x hx y hy

theorem SortedOn.pairwise (h : SortedOn v lo hi) : ((v.take hi).drop lo).Pairwise (· ≤ ·) := by
  rw [List.pairwise_iff_getElem]
  intro i j hi' hj hij
  rw [List.getElem_drop, List.getElem_take, List.getElem_drop, List.getElem_take]
  rw [List.length_drop, List.length_take] at hi' hj
  exact h (lo + i) (lo + j) (by omega) (by omega) (by omega) _
    (List.getElem?_eq_getElem (by omega)) _ (List.getElem?_eq_getElem (by omega))

theorem sortedOn_onRange (hle : lo ≤ hi) (hlen : hi ≤ v.length) (hf : ∀ l, (f l).Perm l)
    (h : (f ((v.take hi).drop lo)).Pairwise (· ≤ ·)) : SortedOn (onRange f lo hi v) lo hi := by
  intro i j hi' hij hj x hx y hy
  obtain ⟨i, rfl⟩ := Nat.exists_eq_add_of_le hi'
  obtain ⟨j, rfl⟩ := Nat.exists_eq_add_of_le (Nat.le_trans hi' (Nat.le_of_lt hij))
  rw [getElem?_onRange hle hlen hf (by omega)] at hx hy
  obtain ⟨hi, rfl⟩ := List.getElem?_eq_some_iff.mp hx
  obtain ⟨hj, rfl⟩ := List.getElem?_eq_some_iff.mp hy
  exact List.pairwise_iff_getElem.mp h i j hi hj (by omega)

/-- The whole vector is in order. -/
theorem SortedOn.all (h : SortedOn v 0 v.length) : v.Pairwise (· ≤ ·) := by
  have hpair := h.pairwise
  rwa [List.take_length, List.drop_zero] at hpair

/-! ### Sorting -/

/-- `std::sort` -/
def sortRange (lo hi : ℕ) (v : List α) : List α := onRange (List.mergeSort · (· ≤ ·)) lo hi v

/-- `std::inplace_merge` -/
def mergeRange (lo mid hi : ℕ) (v : List α) : List α :=
  onRange (fun l => List.merge (l.take (mid - lo)) (l.drop (mid - lo)) (· ≤ ·)) lo hi v

theorem merge_halves_perm (n : ℕ) (l : List α) :
    (List.merge (l.take n) (l.drop n) (· ≤ ·)).Perm l := by
  have hperm : (List.merge (l.take n) (l.drop n) (· ≤ ·)).Perm (l.take n ++ l.drop n) :=
    List.merge_perm_append _
  rwa [List.take_append_drop] at hperm

theorem permOn_sortRange (hle : lo ≤ hi) (hlen : hi ≤ v.length) :
    PermOn v (sortRange lo hi v) lo hi :=
  permOn_onRange hle hlen fun l => List.mergeSort_perm l _

theorem permOn_mergeRange (hle : lo ≤ hi) (hlen : hi ≤ v.length) :
    PermOn v (mergeRange lo mid hi v) lo hi :=
  permOn_onRange hle hlen (merge_halves_perm _)

theorem sortedOn_sortRange (hle : lo ≤ hi) (hlen : hi ≤ v.length) :
    SortedOn (sortRange lo hi v) lo hi := by
  refine sortedOn_onRange hle hlen (fun l => List.mergeSort_perm l _) ?_
  have hpair : (((v.take hi).drop lo).mergeSort (· ≤ ·)).Pairwise fun a b => decide (a ≤ b) :=
    List.pairwise_mergeSort (by simpa using fun a b c => le_trans) (by simpa using le_total) _
  simpa using hpair

theorem sortedOn_mergeRange (hlo : lo ≤ mid) (hmid : mid ≤ hi) (hlen : hi ≤ v.length)
    (hl : SortedOn v lo mid) (hr : SortedOn v mid hi) :
    SortedOn (mergeRange lo mid hi v) lo hi := by
  refine sortedOn_onRange (Nat.le_trans hlo hmid) hlen (merge_halves_perm _) ?_
  have hleft : ((v.take hi).drop lo).take (mid - lo) = (v.take mid).drop lo := by
    rw [List.take_drop, List.take_take]
    congr 2
    omega
  have hright : ((v.take hi).drop lo).drop (mid - lo) = (v.take hi).drop mid := by
    rw [List.drop_drop]
    congr 1
    omega
  rw [hleft, hright]
  have hpair : (List.merge ((v.take mid).drop lo) ((v.take hi).drop mid) (· ≤ ·)).Pairwise
      fun a b => decide (a ≤ b) :=
    List.pairwise_merge (by simpa using fun a b c => le_trans) (by simpa using le_total) _ _
      (by simpa using hl.pairwise) (by simpa using hr.pairwise)
  simpa using hpair

end CppProgramming.Lib
