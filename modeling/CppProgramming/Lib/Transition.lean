import Mathlib.Data.List.Basic
import Mathlib.Data.List.Induction
import Mathlib.Tactic.Common

/-!
# Labelled transition systems and their runs

A `System` is a set of initial states and a labelled step relation.  `Run` is a
finite run with the list of its labels, oldest first, and `Reachable` is the
end of a run from an initial state.

Every safety result of this development goes through the two rules here.
`Run.invariant` carries a predicate from one end of a run to the other when
every step keeps it, and `Reachable.invariant` is the case of a run from an
initial state.  `Simulation` is the rule for two levels of one design: a
relation that every concrete step answers by at most one abstract step makes
every reachable concrete state related to a reachable abstract one.
`Bisimulation` is the rule for two versions of one design, whose runs have the
same labels and related ends.
-/

namespace CppProgramming.Lib

/-- A labelled transition system. -/
structure System (σ ℓ : Type*) where
  init : σ → Prop
  step : σ → ℓ → σ → Prop

namespace System

variable {σ ℓ : Type*} {M : System σ ℓ}

/-- `M.Run s ls t`: from `s`, the steps with the labels `ls` lead to `t`. -/
inductive Run (M : System σ ℓ) : σ → List ℓ → σ → Prop
  | nil (s : σ) : Run M s [] s
  | snoc {s t u : σ} {ls : List ℓ} {l : ℓ} : Run M s ls t → M.step t l u → Run M s (ls ++ [l]) u

theorem Run.single {s t : σ} {l : ℓ} (h : M.step s l t) : M.Run s [l] t := .snoc (.nil s) h

theorem Run.trans {s t u : σ} {ls ms : List ℓ} (h : M.Run s ls t) (g : M.Run t ms u) :
    M.Run s (ls ++ ms) u := by
  induction g with
  | nil => simpa using h
  | snoc _ hstep ih =>
    rw [← List.append_assoc]
    exact .snoc ih hstep

theorem Run.cons {s t u : σ} {l : ℓ} {ls : List ℓ} (h : M.step s l t) (g : M.Run t ls u) :
    M.Run s (l :: ls) u := (Run.single h).trans g

theorem Run.of_concat {s u : σ} {l : ℓ} {ls : List ℓ} (h : M.Run s (ls ++ [l]) u) :
    ∃ t, M.Run s ls t ∧ M.step t l u := by
  generalize hks : ls ++ [l] = ks at h
  cases h with
  | nil => exact absurd hks (by simp)
  | snoc hrun hstep =>
    obtain ⟨rfl, hl⟩ := List.append_inj' hks rfl
    obtain rfl := List.singleton_inj.mp hl
    exact ⟨_, hrun, hstep⟩

/-- A run passes the state behind any part of its labels. -/
theorem Run.of_append {s u : σ} {ls ms : List ℓ} (h : M.Run s (ls ++ ms) u) :
    ∃ t, M.Run s ls t ∧ M.Run t ms u := by
  induction ms using List.reverseRecOn generalizing u with
  | nil => exact ⟨u, List.append_nil ls ▸ h, .nil u⟩
  | append_singleton ms l ih =>
    rw [← List.append_assoc] at h
    obtain ⟨v, hrun, hstep⟩ := h.of_concat
    obtain ⟨t, hfront, hrest⟩ := ih hrun
    exact ⟨t, hfront, .snoc hrest hstep⟩

/-- **The invariant rule for runs.**  What every step keeps, a run keeps. -/
theorem Run.invariant {P : σ → Prop} (hstep : ∀ s l t, P s → M.step s l t → P t)
    {s t : σ} {ls : List ℓ} (h : M.Run s ls t) (hs : P s) : P t := by
  induction h with
  | nil => exact hs
  | snoc _ hl ih => exact hstep _ _ _ ih hl

/-- The end of a run from an initial state. -/
def Reachable (M : System σ ℓ) (s : σ) : Prop := ∃ s₀ ls, M.init s₀ ∧ M.Run s₀ ls s

theorem Reachable.of_init {s : σ} (h : M.init s) : M.Reachable s := ⟨s, [], h, .nil s⟩

theorem Reachable.step {s t : σ} {l : ℓ} (h : M.Reachable s) (hl : M.step s l t) :
    M.Reachable t := by
  obtain ⟨s₀, ls, h₀, hr⟩ := h
  exact ⟨s₀, ls ++ [l], h₀, .snoc hr hl⟩

theorem Reachable.run {s t : σ} {ls : List ℓ} (h : M.Reachable s) (hr : M.Run s ls t) :
    M.Reachable t := hr.invariant (fun _ _ _ hs hl => hs.step hl) h

/-- **The invariant rule.**  What holds initially and is kept by every step out
of a reachable state holds in every reachable state. -/
theorem Reachable.invariant {P : σ → Prop} (hinit : ∀ s, M.init s → P s)
    (hstep : ∀ s l t, M.Reachable s → P s → M.step s l t → P t)
    {s : σ} (h : M.Reachable s) : P s := by
  obtain ⟨s₀, ls, h₀, hr⟩ := h
  have hboth : M.Reachable s ∧ P s :=
    hr.invariant (P := fun t => M.Reachable t ∧ P t)
      (fun _ _ _ ⟨hreach, hp⟩ hl => ⟨hreach.step hl, hstep _ _ _ hreach hp hl⟩)
      ⟨.of_init h₀, hinit _ h₀⟩
  exact hboth.2

/-! ### Runs with numbered states -/

/-- A run of `n` steps with its states and labels, for what is said about a stretch of it. -/
structure Execution (M : System σ ℓ) (n : ℕ) where
  state : ℕ → σ
  label : ℕ → ℓ
  init : M.init (state 0)
  step : ∀ i < n, M.step (state i) (label i) (state (i + 1))

theorem Execution.reachable {n : ℕ} (e : M.Execution n) {i : ℕ} (hi : i ≤ n) :
    M.Reachable (e.state i) := by
  induction i with
  | zero => exact .of_init e.init
  | succ i ih => exact (ih (by omega)).step (e.step i hi)

/-- How many of the steps from the `i`-th up to the `j`-th have the label `l`. -/
def Execution.count [DecidableEq ℓ] {n : ℕ} (e : M.Execution n) (l : ℓ) (i j : ℕ) : ℕ :=
  (List.range' i (j - i)).countP (e.label · = l)

@[simp] theorem Execution.count_self [DecidableEq ℓ] {n : ℕ} (e : M.Execution n) (l : ℓ) (i : ℕ) :
    e.count l i i = 0 := by
  simp [count]

theorem Execution.count_succ [DecidableEq ℓ] {n : ℕ} (e : M.Execution n) (l : ℓ) {i j : ℕ}
    (hij : i ≤ j) : e.count l i (j + 1) = e.count l i j + if e.label j = l then 1 else 0 := by
  have hj : j + 1 - i = (j - i) + 1 := by omega
  rw [count, hj, List.range'_concat, List.countP_append, count]
  have hlast : i + 1 * (j - i) = j := by omega
  rw [hlast, List.countP_singleton]
  simp

/-- The steps of a partial function of state and label. -/
def ofStep (init : σ → Prop) (f : σ → ℓ → Option σ) : System σ ℓ where
  init := init
  step s l t := f s l = some t

/-- The states on the way along given labels, for as long as there is a step. -/
def follow (f : σ → ℓ → Option σ) (label : ℕ → ℓ) (s : σ) : ℕ → σ
  | 0 => s
  | i + 1 => (f (follow f label s i) (label i)).getD (follow f label s i)

/-- Following labels whose steps all succeed. -/
def Execution.along {init : σ → Prop} {f : σ → ℓ → Option σ} {s : σ} (label : ℕ → ℓ) {n : ℕ}
    (hs : init s) (h : ∀ i < n, (f (follow f label s i) (label i)).isSome) :
    (ofStep init f).Execution n where
  state := follow f label s
  label := label
  init := hs
  step i hi := by
    obtain ⟨t, ht⟩ := Option.isSome_iff_exists.mp (h i hi)
    show f _ _ = some ((f _ _).getD _)
    rw [ht, Option.getD_some]

/-- A run, computed by a function that makes steps only. -/
theorem Run.of_foldlM {f : σ → ℓ → Option σ} (hf : ∀ s l t, f s l = some t → M.step s l t)
    {s t : σ} {ls : List ℓ} (h : ls.foldlM f s = some t) : M.Run s ls t := by
  induction ls generalizing s with
  | nil =>
    obtain rfl := Option.some.inj h
    exact .nil s
  | cons l ls ih =>
    rw [List.foldlM_cons] at h
    obtain ⟨u, hu, hrest⟩ := Option.bind_eq_some_iff.mp h
    exact .cons (hf s l u hu) (ih hrest)

/-- A run of a step function, computed. -/
theorem run_ofStep {init : σ → Prop} {f : σ → ℓ → Option σ} {s t : σ} {ls : List ℓ}
    (h : ls.foldlM f s = some t) : (ofStep init f).Run s ls t :=
  .of_foldlM (fun _ _ _ ht => ht) h

/-! ### Runs under a condition -/

/-- The runs in which every step meets a condition on the state before it. -/
def restrict (M : System σ ℓ) (C : σ → ℓ → Prop) : System σ ℓ where
  init := M.init
  step s l t := M.step s l t ∧ C s l

theorem Run.of_restrict {C : σ → ℓ → Prop} {s t : σ} {ls : List ℓ}
    (h : (M.restrict C).Run s ls t) : M.Run s ls t := by
  induction h with
  | nil => exact .nil _
  | snoc _ ht ih => exact .snoc ih ht.1

theorem Reachable.of_restrict {C : σ → ℓ → Prop} {s : σ} (h : (M.restrict C).Reachable s) :
    M.Reachable s :=
  h.invariant (fun _ hs => .of_init hs) fun _ _ _ _ hs ht => hs.step ht.1

/-- A run of a step function under a condition, computed. -/
theorem run_restrict {init : σ → Prop} {f : σ → ℓ → Option σ} {C : σ → ℓ → Prop}
    [∀ s l, Decidable (C s l)] {s t : σ} {ls : List ℓ}
    (h : ls.foldlM (fun s l => if C s l then f s l else none) s = some t) :
    ((ofStep init f).restrict C).Run s ls t :=
  .of_foldlM (fun _ _ _ ht => (Option.ite_none_right_eq_some.mp ht).symm) h

/-- A state is **stuck** when no step leaves it. -/
def Stuck (M : System σ ℓ) (s : σ) : Prop := ∀ l t, ¬ M.step s l t

/-- **The rule for termination.**  Where every step uses up some of a measure, some run gets
stuck. -/
theorem exists_stuck {P : σ → Prop} (μ : σ → ℕ)
    (hstep : ∀ s l t, P s → M.step s l t → P t ∧ μ t < μ s) {s : σ} (hs : P s) :
    ∃ ls t, M.Run s ls t ∧ M.Stuck t := by
  induction hk : μ s using Nat.strongRecOn generalizing s with
  | ind k ih =>
    by_cases hstuck : M.Stuck s
    · exact ⟨[], s, .nil s, hstuck⟩
    · obtain ⟨l, t, ht⟩ : ∃ l t, M.step s l t := by simpa [Stuck] using hstuck
      obtain ⟨hpt, hlt⟩ := hstep s l t hs ht
      obtain ⟨ls, u, hrun, hu⟩ := ih (μ t) (hk ▸ hlt) hpt rfl
      exact ⟨l :: ls, u, .cons ht hrun, hu⟩

/-- **The rule for the length of runs.**  Where every step uses up some of a measure, but for some
steps that may add one to it, a run is no longer than the measure, up to these. -/
theorem Run.length_le {P : σ → Prop} (μ : σ → ℕ) (free : ℓ → Bool)
    (hstep : ∀ s l t, P s → M.step s l t →
      P t ∧ if free l = true then μ t ≤ μ s + 1 else μ t < μ s)
    {s t : σ} {ls : List ℓ} (h : M.Run s ls t) (hs : P s) :
    P t ∧ μ t + ls.length ≤ μ s + 2 * ls.countP free := by
  induction h with
  | nil => exact ⟨hs, Nat.le_refl _⟩
  | @snoc u t ls l _ hl ih =>
    obtain ⟨hu, hle⟩ := ih
    obtain ⟨ht, hμ⟩ := hstep u l t hu hl
    refine ⟨ht, ?_⟩
    rw [List.length_append, List.countP_append, List.length_singleton, List.countP_singleton]
    split at hμ <;> simp only [*, if_true, if_false, Bool.false_eq_true] <;> omega

/-- **The rule for the progress of one party.**  Where each of its steps uses up some of a
measure that is not used up yet, and no step adds to it, so many of its steps use it up. -/
theorem Run.progress [DecidableEq ℓ] {P : σ → Prop} (μ : σ → ℕ) (l : ℓ)
    (hparty : ∀ s t, P s → 0 < μ s → M.step s l t → μ t < μ s)
    (hstep : ∀ s k t, P s → M.step s k t → P t ∧ μ t ≤ μ s)
    {s t : σ} {ls : List ℓ} (h : M.Run s ls t) (hs : P s) :
    P t ∧ μ t ≤ μ s - ls.count l := by
  induction h with
  | nil => exact ⟨hs, by simp⟩
  | @snoc u t ls k _ hk ih =>
    obtain ⟨hu, hle⟩ := ih
    obtain ⟨ht, hmono⟩ := hstep u k t hu hk
    refine ⟨ht, ?_⟩
    rw [List.count_append, List.count_singleton]
    by_cases hkl : k = l
    · obtain rfl := hkl
      rcases Nat.eq_zero_or_pos (μ u) with hzero | hpos
      · omega
      · have hlt := hparty u t hu hpos hk
        simp only [beq_self_eq_true, if_true]
        omega
    · simp only [beq_eq_false_iff_ne.mpr hkl, if_false, Bool.false_eq_true]
      omega

/-! ### Two levels of one design -/

/-- A forward simulation of `M` by `N`: every step of `M` is answered by one
step of `N` or by none. -/
structure Simulation {τ κ : Type*} (M : System σ ℓ) (N : System τ κ) (R : σ → τ → Prop) : Prop where
  init : ∀ s, M.init s → ∃ a, N.init a ∧ R s a
  step : ∀ s l t a, M.Reachable s → N.Reachable a → R s a → M.step s l t →
    R t a ∨ ∃ k b, N.step a k b ∧ R t b

/-- **The refinement rule.**  Under a simulation every reachable state has a
reachable partner, so what is known of the partner can be used of it. -/
theorem Simulation.reachable {τ κ : Type*} {N : System τ κ} {R : σ → τ → Prop}
    (hsim : Simulation M N R) {s : σ} (h : M.Reachable s) : ∃ a, N.Reachable a ∧ R s a := by
  refine h.invariant (P := fun s => ∃ a, N.Reachable a ∧ R s a) ?_ ?_
  · intro s₀ h₀
    obtain ⟨a, ha, hR⟩ := hsim.init s₀ h₀
    exact ⟨a, .of_init ha, hR⟩
  · rintro s l t hs ⟨a, ha, hR⟩ hl
    rcases hsim.step s l t a hs ha hR hl with hR' | ⟨k, b, hk, hR'⟩
    · exact ⟨a, ha, hR'⟩
    · exact ⟨b, ha.step hk, hR'⟩

/-! ### Two versions of one design -/

/-- A relation under which `M` and `N` can take the same steps, and stay related. -/
structure Bisimulation {τ : Type*} (M : System σ ℓ) (N : System τ ℓ) (R : σ → τ → Prop) :
    Prop where
  forth : ∀ s a l t, R s a → M.step s l t → ∃ b, N.step a l b ∧ R t b
  back : ∀ s a l b, R s a → N.step a l b → ∃ t, M.step s l t ∧ R t b

namespace Bisimulation

variable {τ : Type*} {N : System τ ℓ} {R : σ → τ → Prop}

/-- Two step functions whose results are related. -/
theorem of_next {init : σ → Prop} {init' : τ → Prop} {f : σ → ℓ → Option σ} {g : τ → ℓ → Option τ}
    (h : ∀ s a l, R s a → Option.Rel R (f s l) (g a l)) :
    Bisimulation (ofStep init f) (ofStep init' g) R where
  forth s a l t hR ht := by
    have hrel := h s a l hR
    rw [show f s l = some t from ht] at hrel
    generalize hg : g a l = r at hrel
    cases hrel with
    | some hR' => exact ⟨_, hg, hR'⟩
  back s a l b hR hb := by
    have hrel := h s a l hR
    rw [show g a l = some b from hb] at hrel
    generalize hf : f s l = r at hrel
    cases hrel with
    | some hR' => exact ⟨_, hf, hR'⟩

theorem run_forth (h : Bisimulation M N R) {s t : σ} {a : τ} {ls : List ℓ} (hR : R s a)
    (hrun : M.Run s ls t) : ∃ b, N.Run a ls b ∧ R t b := by
  induction hrun with
  | nil => exact ⟨a, .nil a, hR⟩
  | snoc _ hstep ih =>
    obtain ⟨b, hb, hR'⟩ := ih
    obtain ⟨c, hc, hR''⟩ := h.forth _ _ _ _ hR' hstep
    exact ⟨c, .snoc hb hc, hR''⟩

theorem run_back (h : Bisimulation M N R) {s : σ} {a b : τ} {ls : List ℓ} (hR : R s a)
    (hrun : N.Run a ls b) : ∃ t, M.Run s ls t ∧ R t b := by
  induction hrun with
  | nil => exact ⟨s, .nil s, hR⟩
  | snoc _ hstep ih =>
    obtain ⟨t, ht, hR'⟩ := ih
    obtain ⟨u, hu, hR''⟩ := h.back _ _ _ _ hR' hstep
    exact ⟨u, .snoc ht hu, hR''⟩

end Bisimulation

/-- The end of a run of a step function is determined by its labels. -/
theorem foldlM_of_run {init : σ → Prop} {f : σ → ℓ → Option σ} {s t : σ} {ls : List ℓ}
    (h : (ofStep init f).Run s ls t) : ls.foldlM f s = some t := by
  induction h with
  | nil => rfl
  | @snoc u v ls l _ hstep ih =>
    have hstep : f u l = some v := hstep
    simp [List.foldlM_append, ih, hstep]

theorem run_ofStep_unique {init : σ → Prop} {f : σ → ℓ → Option σ} {s t u : σ} {ls : List ℓ}
    (h : (ofStep init f).Run s ls t) (g : (ofStep init f).Run s ls u) : t = u :=
  Option.some.inj ((foldlM_of_run h).symm.trans (foldlM_of_run g))

end System

end CppProgramming.Lib
