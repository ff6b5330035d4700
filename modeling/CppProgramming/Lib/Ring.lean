import Mathlib.Data.List.Basic
import Mathlib.Data.List.Nodup
import Mathlib.Data.List.Range
import Mathlib.Data.Nat.ModEq
import Mathlib.Tactic.Common

/-!
# Circular positions

The memory of a circular buffer is a function `mem : ℕ → α` on positions.
`ringIdx cap start len` lists the `len` positions that follow `start` modulo
`cap`, in order, and `store mem idx data` writes `data` to the positions `idx`
one after the other.

Two facts carry every use.  A ring position list is made of at most two plain
runs (`ringIdx_eq_range'`, `ringIdx_wrap`), which is what a scatter/gather call
sees; and a window of at most `cap` positions has no position twice
(`nodup_ringIdx`), so that a write to one part of it leaves the rest alone
(`map_store_append`).
-/

namespace CppProgramming.Lib

variable {α : Type*}

/-- The `len` positions that follow `start`, modulo `cap`. -/
def ringIdx (cap start len : ℕ) : List ℕ := (List.range len).map fun i => (start + i) % cap

@[simp] theorem length_ringIdx (cap start len : ℕ) : (ringIdx cap start len).length = len := by
  simp [ringIdx]

@[simp] theorem ringIdx_zero (cap start : ℕ) : ringIdx cap start 0 = [] := rfl

theorem ringIdx_add (cap start m n : ℕ) :
    ringIdx cap start (m + n) = ringIdx cap start m ++ ringIdx cap (start + m) n := by
  simp [ringIdx, List.range_add, List.map_map, Function.comp_def, Nat.add_assoc]

theorem ringIdx_take (cap start len n : ℕ) :
    (ringIdx cap start len).take n = ringIdx cap start (min n len) := by
  simp [ringIdx, ← List.map_take, List.take_range]

theorem ringIdx_drop (cap start : ℕ) {len n : ℕ} (h : n ≤ len) :
    (ringIdx cap start len).drop n = ringIdx cap (start + n) (len - n) := by
  obtain ⟨m, rfl⟩ := Nat.exists_eq_add_of_le h
  rw [ringIdx_add, List.drop_left' (length_ringIdx _ _ _), Nat.add_sub_cancel_left]

/-- Only the start modulo `cap` matters. -/
theorem ringIdx_congr {cap s t : ℕ} (h : s % cap = t % cap) (len : ℕ) :
    ringIdx cap s len = ringIdx cap t len := by
  simp only [ringIdx]
  refine List.map_congr_left fun i _ => ?_
  rw [Nat.add_mod, h, ← Nat.add_mod]

/-- Before the end of the array the positions are one plain run. -/
theorem ringIdx_eq_range' {cap start len : ℕ} (h : start + len ≤ cap) :
    ringIdx cap start len = List.range' start len := by
  rw [List.range'_eq_map_range, ringIdx]
  refine List.map_congr_left fun i hi => ?_
  have := List.mem_range.mp hi
  exact Nat.mod_eq_of_lt (by omega)

/-- Across the end of the array they are two. -/
theorem ringIdx_wrap {cap start len : ℕ} (hs : start ≤ cap) (h : cap - start ≤ len)
    (hlen : len ≤ cap) :
    ringIdx cap start len = List.range' start (cap - start) ++
      List.range' 0 (len - (cap - start)) := by
  obtain ⟨m, rfl⟩ := Nat.exists_eq_add_of_le h
  rw [ringIdx_add, ringIdx_eq_range' (by omega), Nat.add_sub_cancel_left,
    ringIdx_congr (t := 0) (by rw [Nat.add_sub_cancel' hs]; simp),
    ringIdx_eq_range' (by omega)]

theorem add_mod_injOn {cap start i j : ℕ} (hi : i < cap) (hj : j < cap)
    (h : (start + i) % cap = (start + j) % cap) : i = j := by
  have hmod : i ≡ j [MOD cap] := Nat.ModEq.add_left_cancel' start h
  rwa [Nat.ModEq, Nat.mod_eq_of_lt hi, Nat.mod_eq_of_lt hj] at hmod

/-- **A window no longer than the array has no position twice.** -/
theorem nodup_ringIdx {cap start len : ℕ} (h : len ≤ cap) : (ringIdx cap start len).Nodup := by
  refine List.Nodup.map_on ?_ List.nodup_range
  intro i hi j hj hij
  have hi' := List.mem_range.mp hi
  have hj' := List.mem_range.mp hj
  exact add_mod_injOn (by omega) (by omega) hij

/-- **Once around is every position.** -/
theorem mem_ringIdx_self {cap x : ℕ} (start : ℕ) (hx : x < cap) : x ∈ ringIdx cap start cap := by
  have hcap : 0 < cap := by omega
  have hm : start % cap < cap := Nat.mod_lt _ hcap
  rw [← ringIdx_congr (Nat.mod_mod start cap)]
  generalize start % cap = m at hm
  by_cases hle : m ≤ x
  · refine List.mem_map.mpr ⟨x - m, List.mem_range.mpr (by omega), ?_⟩
    rw [Nat.add_sub_cancel' hle, Nat.mod_eq_of_lt hx]
  · refine List.mem_map.mpr ⟨x + cap - m, List.mem_range.mpr (by omega), ?_⟩
    rw [show m + (x + cap - m) = x + cap by omega, Nat.add_mod_right, Nat.mod_eq_of_lt hx]

/-- A window one short of the array leaves out one position. -/
theorem existsUnique_not_mem_ringIdx (start n : ℕ) :
    ∃! x, x < n + 1 ∧ x ∉ ringIdx (n + 1) start n := by
  have hround : ringIdx (n + 1) start (n + 1) =
      ringIdx (n + 1) start n ++ [(start + n) % (n + 1)] := ringIdx_add _ _ _ _
  refine ⟨(start + n) % (n + 1), ⟨Nat.mod_lt _ (Nat.succ_pos n), fun hmem => ?_⟩, ?_⟩
  · have hnd : (ringIdx (n + 1) start (n + 1)).Nodup := nodup_ringIdx le_rfl
    rw [hround] at hnd
    exact List.disjoint_of_nodup_append hnd hmem (List.mem_singleton_self _)
  · rintro x ⟨hx, hnot⟩
    have hmem := mem_ringIdx_self start hx
    rw [hround, List.mem_append] at hmem
    exact List.mem_singleton.mp (hmem.resolve_left hnot)

/-- Reading round and round an array reads copies of it. -/
theorem flatten_replicate_map (f : ℕ → α) (cap n : ℕ) :
    (List.replicate n ((List.range cap).map f)).flatten = (ringIdx cap 0 (n * cap)).map f := by
  induction n with
  | zero => simp
  | succ n ih =>
    have hone : (ringIdx cap (0 + n * cap) cap).map f = (List.range cap).map f := by
      rw [ringIdx_congr (t := 0) (by simp), ringIdx_eq_range' (by omega), List.range_eq_range']
    rw [List.replicate_succ', List.flatten_append, ih, Nat.succ_mul, ringIdx_add, List.map_append,
      hone, List.flatten_singleton]

/-! ### Writing a list of bytes to a list of positions -/

/-- Write `data` to the positions `idx`, stopping at the end of either. -/
def store (mem : ℕ → α) : List ℕ → List α → ℕ → α
  | i :: idx, a :: data => store (fun j => if j = i then a else mem j) idx data
  | [], _ => mem
  | _ :: _, [] => mem

@[simp] theorem store_nil_left (mem : ℕ → α) (data : List α) : store mem [] data = mem := by
  cases data <;> rfl

@[simp] theorem store_nil_right (mem : ℕ → α) (idx : List ℕ) : store mem idx [] = mem := by
  cases idx <;> rfl

theorem store_of_not_mem : ∀ (idx : List ℕ) (data : List α) (mem : ℕ → α) (j : ℕ),
    j ∉ idx → store mem idx data j = mem j := by
  intro idx
  induction idx with
  | nil => intro data mem j _; rw [store_nil_left]
  | cons i idx ih =>
    intro data mem j hj
    obtain ⟨hji, hj⟩ := not_or.mp (List.mem_cons.not.mp hj)
    cases data with
    | nil => rfl
    | cons a data => rw [store, ih data _ j hj, if_neg hji]

theorem map_store_of_disjoint (mem : ℕ → α) (idx ps : List ℕ) (data : List α)
    (h : ∀ x ∈ ps, x ∉ idx) : ps.map (store mem idx data) = ps.map mem :=
  List.map_congr_left fun x hx => store_of_not_mem idx data mem x (h x hx)

theorem map_store : ∀ (idx : List ℕ) (data : List α) (mem : ℕ → α), idx.Nodup →
    data.length = idx.length → idx.map (store mem idx data) = data := by
  intro idx
  induction idx with
  | nil =>
    intro data mem _ hlen
    simp only [List.length_nil, List.length_eq_zero_iff] at hlen
    simp [hlen]
  | cons i idx ih =>
    intro data mem hnd hlen
    obtain ⟨hi, hnd⟩ := List.nodup_cons.mp hnd
    cases data with
    | nil => simp at hlen
    | cons a data =>
      have hhead : store (fun j => if j = i then a else mem j) idx data i = a := by
        rw [store_of_not_mem _ _ _ _ hi, if_pos rfl]
      rw [List.map_cons, store, hhead, ih data _ hnd (by simpa using hlen)]

theorem store_append {idx : List ℕ} : ∀ {data : List α}, idx.length = data.length →
    ∀ (rest : List ℕ) (more : List α) (mem : ℕ → α),
      store mem (idx ++ rest) (data ++ more) = store (store mem idx data) rest more := by
  induction idx with
  | nil =>
    intro data hlen rest more mem
    obtain rfl : data = [] := List.eq_nil_of_length_eq_zero hlen.symm
    rfl
  | cons i idx ih =>
    intro data hlen rest more mem
    cases data with
    | nil => exact absurd hlen (by simp)
    | cons a data => exact ih (Nat.succ.inj hlen) rest more _

theorem store_take (idx : List ℕ) : ∀ (data : List α) (mem : ℕ → α),
    store mem idx data = store mem (idx.take data.length) data := by
  induction idx with
  | nil => intro data mem; simp
  | cons i idx ih =>
    intro data mem
    cases data with
    | nil => rfl
    | cons a data =>
      rw [List.length_cons, List.take_succ_cons, store, store, ih]

/-- **Appending to a window.**  Writing `data` behind a window of `len`
positions keeps the window and adds `data` to it, as long as both fit. -/
theorem map_store_append {cap start len n : ℕ} (mem : ℕ → α) (data : List α)
    (hn : data.length ≤ n) (h : len + data.length ≤ cap) :
    (ringIdx cap start (len + data.length)).map
        (store mem (ringIdx cap (start + len) n) data) =
      (ringIdx cap start len).map mem ++ data := by
  have hwin : (ringIdx cap (start + len) n).take data.length =
      ringIdx cap (start + len) data.length := by rw [ringIdx_take, Nat.min_eq_left hn]
  rw [store_take, hwin, ringIdx_add, List.map_append,
    map_store _ _ _ (nodup_ringIdx (by omega)) (by simp)]
  congr 1
  refine map_store_of_disjoint _ _ _ _ fun x hx hx' => ?_
  have hnd : (ringIdx cap start (len + data.length)).Nodup := nodup_ringIdx h
  rw [ringIdx_add] at hnd
  exact List.disjoint_of_nodup_append hnd hx hx'

end CppProgramming.Lib
