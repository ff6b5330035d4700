import Mathlib.Algebra.Ring.Nat
import Mathlib.Data.List.Basic
import Mathlib.Data.Multiset.AddSub
import Mathlib.Order.Lattice
import Mathlib.Tactic.Common

/-!
# Histograms and their upper tails

A histogram is kept as the list of its keys with their counts, in some order.
`expand` writes every key out as often as it is counted, so that the samples
behind a histogram are the multiset `Histogram.samples`, whatever the order.

* `expand_bump`: counting one more sample adds it to the samples.
* `upper l v`: the samples that are at least `v`.
* `upper_of_descending`, `upper_le_of_lt`: in a strictly descending list of
  entries an upper tail is the sum of the counts met so far.  A scan from the
  top that adds up counts computes upper tails without looking at the samples.
-/

namespace CppProgramming.Lib

variable {α : Type*}

/-- Every key as often as it is counted. -/
def expand (l : List (α × ℕ)) : List α := l.flatMap fun e => List.replicate e.2 e.1

@[simp] theorem expand_nil : expand ([] : List (α × ℕ)) = [] := rfl

@[simp] theorem expand_cons (e : α × ℕ) (l : List (α × ℕ)) :
    expand (e :: l) = List.replicate e.2 e.1 ++ expand l := List.flatMap_cons

theorem expand_append (l m : List (α × ℕ)) : expand (l ++ m) = expand l ++ expand m :=
  List.flatMap_append

theorem expand_perm {l m : List (α × ℕ)} (h : l.Perm m) : (expand l).Perm (expand m) :=
  h.flatMap_right _

theorem length_expand (l : List (α × ℕ)) : (expand l).length = (l.map Prod.snd).sum := by
  induction l with
  | nil => rfl
  | cons e l ih => simp [ih]

theorem fst_mem_of_mem_expand {l : List (α × ℕ)} {x : α} (h : x ∈ expand l) :
    x ∈ l.map Prod.fst := by
  obtain ⟨e, he, hx⟩ := List.mem_flatMap.mp h
  obtain rfl := List.eq_of_mem_replicate hx
  exact List.mem_map_of_mem he

/-! ### Counting one more sample -/

section Bump

variable [DecidableEq α]

/-- One more of the key `x`, which gets an entry when it has none. -/
def bump (x : α) : List (α × ℕ) → List (α × ℕ)
  | [] => [(x, 1)]
  | e :: l => if e.1 = x then (e.1, e.2 + 1) :: l else e :: bump x l

theorem expand_bump (x : α) (l : List (α × ℕ)) : (expand (bump x l)).Perm (x :: expand l) := by
  induction l with
  | nil => exact .refl _
  | cons e l ih =>
    rw [bump]
    split
    · rename_i hx
      rw [expand_cons, expand_cons, List.replicate_succ, hx, List.cons_append]
    · rw [expand_cons, expand_cons]
      exact (ih.append_left _).trans List.perm_middle

theorem fst_mem_bump {x y : α} {l : List (α × ℕ)} :
    y ∈ (bump x l).map Prod.fst ↔ y = x ∨ y ∈ l.map Prod.fst := by
  induction l with
  | nil => simp [bump]
  | cons e l ih =>
    rw [bump]
    split
    · rename_i hx
      simp only [List.map_cons, List.mem_cons, hx]
      tauto
    · simp only [List.map_cons, List.mem_cons, ih]
      tauto

theorem nodup_bump {x : α} {l : List (α × ℕ)} (h : (l.map Prod.fst).Nodup) :
    ((bump x l).map Prod.fst).Nodup := by
  induction l with
  | nil => simp [bump]
  | cons e l ih =>
    obtain ⟨hnot, hnd⟩ := List.nodup_cons.mp h
    rw [bump]
    split
    · exact h
    · rename_i hx
      refine List.nodup_cons.mpr ⟨fun hmem => ?_, ih hnd⟩
      rcases fst_mem_bump.mp hmem with heq | hmem
      · exact hx heq
      · exact hnot hmem

theorem pos_bump {x : α} {l : List (α × ℕ)} (h : ∀ e ∈ l, 0 < e.2) : ∀ e ∈ bump x l, 0 < e.2 := by
  induction l with
  | nil => simp [bump]
  | cons a l ih =>
    obtain ⟨ha, hl⟩ := List.forall_mem_cons.mp h
    rw [bump]
    split
    · exact List.forall_mem_cons.mpr ⟨Nat.succ_pos _, hl⟩
    · exact List.forall_mem_cons.mpr ⟨ha, ih hl⟩

end Bump

/-! ### Upper tails -/

section Upper

variable [LinearOrder α]

/-- How many samples are at least `v`. -/
def upper (l : List (α × ℕ)) (v : α) : ℕ := (expand l).countP (v ≤ ·)

theorem upper_perm {l m : List (α × ℕ)} (h : l.Perm m) (v : α) : upper l v = upper m v :=
  (expand_perm h).countP_eq _

theorem upper_append (l m : List (α × ℕ)) (v : α) : upper (l ++ m) v = upper l v + upper m v := by
  rw [upper, expand_append, List.countP_append, upper, upper]

theorem upper_le (l : List (α × ℕ)) (v : α) : upper l v ≤ (l.map Prod.snd).sum := by
  rw [← length_expand]
  exact List.countP_le_length

/-- All keys are at least `v`. -/
theorem upper_of_forall_le {l : List (α × ℕ)} {v : α} (h : ∀ x ∈ l.map Prod.fst, v ≤ x) :
    upper l v = (l.map Prod.snd).sum := by
  rw [← length_expand, upper, List.countP_eq_length]
  intro x hx
  exact decide_eq_true (h x (fst_mem_of_mem_expand hx))

/-- All keys are below `v`. -/
theorem upper_of_forall_lt {l : List (α × ℕ)} {v : α} (h : ∀ x ∈ l.map Prod.fst, x < v) :
    upper l v = 0 := by
  rw [upper, List.countP_eq_zero]
  intro x hx
  simpa using h x (fst_mem_of_mem_expand hx)

/-- The entries come with strictly descending keys. -/
def Descending (l : List (α × ℕ)) : Prop := l.Pairwise fun a b => b.1 < a.1

/-- **The tail of a key in a descending list** is what is counted up to it. -/
theorem upper_of_descending {l m : List (α × ℕ)} {e : α × ℕ} (h : Descending (l ++ e :: m)) :
    upper (l ++ e :: m) e.1 = (l.map Prod.snd).sum + e.2 := by
  obtain ⟨_, hem, hcross⟩ := List.pairwise_append.mp h
  obtain ⟨hm, _⟩ := List.pairwise_cons.mp hem
  have hsplit : l ++ e :: m = (l ++ [e]) ++ m := by simp
  have htop : upper (l ++ [e]) e.1 = ((l ++ [e]).map Prod.snd).sum := by
    refine upper_of_forall_le fun x hx => ?_
    obtain ⟨a, ha, rfl⟩ := List.mem_map.mp hx
    rcases List.mem_append.mp ha with ha | ha
    · exact (hcross a ha e (List.mem_cons_self ..)).le
    · rw [List.mem_singleton.mp ha]
  have hrest : upper m e.1 = 0 := by
    refine upper_of_forall_lt fun x hx => ?_
    obtain ⟨a, ha, rfl⟩ := List.mem_map.mp hx
    exact hm a ha
  rw [hsplit, upper_append, htop, hrest]
  simp

/-- Above a key of a descending list there are only the entries in front of it. -/
theorem upper_le_of_lt {l m : List (α × ℕ)} {e : α × ℕ} (h : Descending (l ++ e :: m)) {w : α}
    (hw : e.1 < w) : upper (l ++ e :: m) w ≤ (l.map Prod.snd).sum := by
  obtain ⟨_, hem, _⟩ := List.pairwise_append.mp h
  obtain ⟨hm, _⟩ := List.pairwise_cons.mp hem
  have hrest : upper (e :: m) w = 0 := by
    refine upper_of_forall_lt fun x hx => ?_
    obtain ⟨a, ha, rfl⟩ := List.mem_map.mp hx
    rcases List.mem_cons.mp ha with rfl | ha
    · exact hw
    · exact (hm a ha).trans hw
  rw [upper_append, hrest, Nat.add_zero]
  exact upper_le l w

/-- A key above another one stands in front of it. -/
theorem mem_front_of_lt {l m : List (α × ℕ)} {e : α × ℕ} (h : Descending (l ++ e :: m)) {w : α}
    (hmem : w ∈ (l ++ e :: m).map Prod.fst) (hw : e.1 < w) : w ∈ l.map Prod.fst := by
  obtain ⟨_, hem, _⟩ := List.pairwise_append.mp h
  obtain ⟨hm, _⟩ := List.pairwise_cons.mp hem
  obtain ⟨a, ha, rfl⟩ := List.mem_map.mp hmem
  rcases List.mem_append.mp ha with ha | ha
  · exact List.mem_map_of_mem ha
  · rcases List.mem_cons.mp ha with rfl | ha
    · exact absurd hw (lt_irrefl _)
    · exact absurd (hm a ha) hw.asymm

end Upper

/-! ### Histograms -/

/-- A map from keys to positive counts, in the order in which it is gone through. -/
structure Histogram (α : Type*) where
  entries : List (α × ℕ)
  nodup : (entries.map Prod.fst).Nodup
  pos : ∀ e ∈ entries, 0 < e.2

namespace Histogram

def empty : Histogram α where
  entries := []
  nodup := .nil
  pos := by simp

def keys (h : Histogram α) : List α := h.entries.map Prod.fst

/-- The sum of the counts. -/
def total (h : Histogram α) : ℕ := (h.entries.map Prod.snd).sum

def samples (h : Histogram α) : Multiset α := (expand h.entries : Multiset α)

@[simp] theorem samples_empty : (empty : Histogram α).samples = 0 := rfl

theorem card_samples (h : Histogram α) : h.samples.card = h.total := by
  rw [samples, Multiset.coe_card, length_expand, total]

/-- `h[x]++` -/
def bump [DecidableEq α] (x : α) (h : Histogram α) : Histogram α where
  entries := Lib.bump x h.entries
  nodup := nodup_bump h.nodup
  pos := pos_bump h.pos

@[simp] theorem samples_bump [DecidableEq α] (x : α) (h : Histogram α) :
    (h.bump x).samples = x ::ₘ h.samples :=
  Quotient.sound (expand_bump x h.entries)

/-- How many samples are at least `v`. -/
def atLeast [LinearOrder α] (h : Histogram α) (v : α) : ℕ := h.samples.countP (v ≤ ·)

theorem atLeast_eq_upper [LinearOrder α] (h : Histogram α) (v : α) :
    h.atLeast v = upper h.entries v := Multiset.coe_countP _ _

end Histogram

end CppProgramming.Lib
