import Mathlib.Data.Finset.Basic
import Mathlib.Data.Finset.Dedup
import Mathlib.Data.Finset.Lattice.Lemmas
import Mathlib.Tactic.Common

/-!
# Resources that are acquired one by one and given back when one fails

A state `s : S` holds the resources `held s`.  An acquiring function returns `0`
or a negative error; acquiring what is held and releasing what is not are misuses
and have no result.

`Acquires held ps f` says that `f` is all or nothing about the resources `ps`:
when none of them is held it has a result, and it either returns `0` and holds all
of them or returns an error and holds none.  `Releases held ps f` is the inverse.
Both are kept by what programs build from them: a loop over a table with its
rollback (`Acquires.acquireAll`), the loop that gives a table back
(`Releases.releaseAll`), and two stages of which the first is undone when the
second fails (`Acquires.initThen`).

Some resources are only tried: the loop goes on when one of them cannot be had
(`Tries`), and giving them back passes over those that are not held (`Clears`).
Such a first stage leaves nothing behind either when the second one fails
(`Tries.initThen`).
-/

namespace CppProgramming.Lib

/-- The outcome of one registration: `0` or a negative error. -/
structure Answer where
  ret : ℤ
  nonpos : ret ≤ 0

/-- What is held, and how many registrations were tried. -/
structure Ledger (P : Type*) where
  held : Finset P
  calls : ℕ

namespace Ledger

variable {P : Type*} [DecidableEq P]

/-- Registering `p`, with `answers i` for the `i`-th try. -/
def acquire (answers : ℕ → Answer) (p : P) (s : Ledger P) : Option (ℤ × Ledger P) :=
  if p ∈ s.held then none
  else
    let ret := (answers s.calls).ret
    some (ret, ⟨if ret = 0 then insert p s.held else s.held, s.calls + 1⟩)

def release (p : P) (s : Ledger P) : Option (Ledger P) :=
  if p ∈ s.held then some { s with held := s.held.erase p } else none

end Ledger

/-! ### Loops and stages -/

section

variable {S α P : Type*}

/-- Releasing the resources of a table, in order. -/
def releaseAll (release : α → S → Option S) : List α → S → Option S
  | [], s => some s
  | a :: as, s => do
    let s ← release a s
    releaseAll release as s

/-- Acquiring the resources of a table, in order.  When one fails, those that were
acquired are released, the last one first; `done` are these. -/
def acquireAll (acquire : α → S → Option (ℤ × S)) (release : α → S → Option S)
    (failed : ℤ → Bool) : List α → List α → S → Option (ℤ × S)
  | _, [], s => some (0, s)
  | done, a :: as, s => do
    let (ret, s) ← acquire a s
    if failed ret then
      let s ← releaseAll release done s
      some (ret, s)
    else acquireAll acquire release failed (a :: done) as s

/-- Trying for the resources of a table, in order; a failure is passed over. -/
def tryAll (acquire : α → S → Option (ℤ × S)) : List α → S → Option S
  | [], s => some s
  | a :: as, s => do
    let (_, s) ← acquire a s
    tryAll acquire as s

/-- Two stages; when the second fails, `undo` takes the first one back. -/
def initThen (init₁ init₂ : S → Option (ℤ × S)) (undo : S → Option S) (s : S) :
    Option (ℤ × S) := do
  let (ret, s) ← init₁ s
  if ret < 0 then some (ret, s)
  else
    let (ret, s) ← init₂ s
    if ret < 0 then
      let s ← undo s
      some (ret, s)
    else some (0, s)

variable [DecidableEq P] {held : S → Finset P}

/-- **All or nothing.** -/
def Acquires (held : S → Finset P) (ps : Finset P) (f : S → Option (ℤ × S)) : Prop :=
  ∀ s, Disjoint ps (held s) → ∃ ret s', f s = some (ret, s') ∧
    (ret = 0 ∧ held s' = held s ∪ ps ∨ ret < 0 ∧ held s' = held s)

def Releases (held : S → Finset P) (ps : Finset P) (f : S → Option S) : Prop :=
  ∀ s, ps ⊆ held s → ∃ s', f s = some s' ∧ held s' = held s \ ps

variable {ps qs : Finset P} {f g : S → Option S} {init₁ init₂ : S → Option (ℤ × S)}

theorem Ledger.acquires (answers : ℕ → Answer) (p : P) :
    Acquires Ledger.held {p} (Ledger.acquire answers p) := by
  intro s hs
  have hp : p ∉ s.held := Finset.disjoint_singleton_left.mp hs
  refine ⟨_, _, if_neg hp, ?_⟩
  have hnonpos := (answers s.calls).nonpos
  by_cases hret : (answers s.calls).ret = 0
  · refine Or.inl ⟨hret, ?_⟩
    rw [if_pos hret, Finset.union_comm, Finset.singleton_union]
  · exact Or.inr ⟨by omega, if_neg hret⟩

theorem Ledger.releases (p : P) : Releases Ledger.held {p} (Ledger.release p) := by
  intro s hs
  have hp : p ∈ s.held := Finset.singleton_subset_iff.mp hs
  exact ⟨_, if_pos hp, Finset.erase_eq s.held p⟩

/-- Releasing one table after another. -/
theorem Releases.andThen (hf : Releases held ps f) (hg : Releases held qs g)
    (hdisj : Disjoint ps qs) : Releases held (ps ∪ qs) fun s => (f s).bind g := by
  intro s hs
  obtain ⟨hps, hqs⟩ := Finset.union_subset_iff.mp hs
  obtain ⟨s₁, hf₁, h₁⟩ := hf s hps
  have hqs₁ : qs ⊆ held s₁ := by
    rw [h₁]
    exact Finset.subset_sdiff.mpr ⟨hqs, hdisj.symm⟩
  obtain ⟨s₂, hg₂, h₂⟩ := hg s₁ hqs₁
  refine ⟨s₂, ?_, ?_⟩
  · show (f s).bind g = some s₂
    rw [hf₁, Option.bind_some, hg₂]
  · rw [h₂, h₁, sdiff_sdiff_left, Finset.sup_eq_union]

theorem Releases.releaseAll {release : α → S → Option S} {res : α → P} {as : List α}
    (h : ∀ a ∈ as, Releases held {res a} (release a)) (hnodup : (as.map res).Nodup) :
    Releases held (as.map res).toFinset (releaseAll release as) := by
  induction as with
  | nil => exact fun s _ => ⟨s, rfl, by simp⟩
  | cons a as ih =>
    obtain ⟨ha, has⟩ := List.forall_mem_cons.mp h
    obtain ⟨hnot, hnodup⟩ := List.nodup_cons.mp hnodup
    have hdisj : Disjoint {res a} (as.map res).toFinset := by simpa using hnot
    have hboth := ha.andThen (ih has hnodup) hdisj
    rw [Finset.singleton_union] at hboth
    rw [List.map_cons, List.toFinset_cons]
    exact hboth

/-- A clean-up that goes backwards leaves the same. -/
theorem Releases.releaseAll_reverse {release : α → S → Option S} {res : α → P} {as : List α}
    (h : ∀ a ∈ as, Releases held {res a} (release a)) (hnodup : (as.map res).Nodup) :
    Releases held (as.map res).toFinset (Lib.releaseAll release as.reverse) := by
  have hrev : ((as.reverse).map res).Nodup := by
    rw [List.map_reverse, List.nodup_reverse]
    exact hnodup
  have hall := Releases.releaseAll (fun a ha => h a (List.mem_reverse.mp ha)) hrev
  rwa [List.map_reverse, List.toFinset_reverse] at hall

/-- **A loop with its rollback** is all or nothing. -/
theorem Acquires.acquireAll {acquire : α → S → Option (ℤ × S)} {release : α → S → Option S}
    {failed : ℤ → Bool} {res : α → P} {as : List α}
    (hacq : ∀ a ∈ as, Acquires held {res a} (acquire a))
    (hrel : ∀ a ∈ as, Releases held {res a} (release a)) (hnodup : (as.map res).Nodup)
    (hfailed : ∀ ret ≤ 0, failed ret = true ↔ ret ≠ 0) :
    Acquires held (as.map res).toFinset (acquireAll acquire release failed [] as) := by
  have key : ∀ (bs done : List α) (s : S), done.reverse ++ bs = as →
      (done.map res).toFinset ⊆ held s → Disjoint (bs.map res).toFinset (held s) →
      ∃ ret s', Lib.acquireAll acquire release failed done bs s = some (ret, s') ∧
        (ret = 0 ∧ held s' = held s ∪ (bs.map res).toFinset ∨
          ret < 0 ∧ held s' = held s \ (done.map res).toFinset) := by
    intro bs
    induction bs with
    | nil => exact fun done s _ _ _ => ⟨0, s, rfl, Or.inl ⟨rfl, by simp⟩⟩
    | cons b bs ih =>
      intro done s has hdone hdisj
      have hb : b ∈ as := by simp [← has]
      rw [List.map_cons, List.toFinset_cons, Finset.disjoint_insert_left] at hdisj
      obtain ⟨ret, s₁, heq, hcase⟩ := hacq b hb s (Finset.disjoint_singleton_left.mpr hdisj.1)
      have hnd : ((done.reverse ++ b :: bs).map res).Nodup := has ▸ hnodup
      rw [List.map_append, List.map_cons, List.nodup_middle, List.nodup_cons, List.mem_append,
        List.nodup_append] at hnd
      obtain ⟨hnot, hndone, -, -⟩ := hnd
      obtain ⟨-, hnbs⟩ := not_or.mp hnot
      rw [Lib.acquireAll, heq]
      simp only [Option.bind_eq_bind, Option.bind_some]
      rcases hcase with ⟨rfl, h₁⟩ | ⟨hneg, h₁⟩
      · have hok : failed 0 = false := by
          rw [← Bool.not_eq_true, hfailed 0 le_rfl]
          simp
        have hsub : (List.map res (b :: done)).toFinset ⊆ held s₁ := by
          rw [h₁, List.map_cons, List.toFinset_cons, Finset.insert_eq, Finset.union_comm]
          exact Finset.union_subset_union_left hdone
        have hbs : Disjoint (bs.map res).toFinset (held s₁) := by
          rw [h₁, Finset.disjoint_union_right, Finset.disjoint_singleton_right]
          exact ⟨hdisj.2, by simpa using hnbs⟩
        obtain ⟨ret', s', heq', hcase'⟩ := ih (b :: done) s₁ (by simp [← has]) hsub hbs
        refine ⟨ret', s', by simp [hok, heq'], hcase'.imp (fun h => ?_) fun h => ?_⟩
        · rw [h.2, h₁, List.map_cons, List.toFinset_cons, Finset.union_assoc, Finset.insert_eq]
          exact ⟨h.1, rfl⟩
        · refine ⟨h.1, ?_⟩
          rw [h.2, h₁, List.map_cons, List.toFinset_cons]
          ext x
          simp only [Finset.mem_sdiff, Finset.mem_union, Finset.mem_singleton, Finset.mem_insert]
          have hx : x = res b → x ∉ held s := fun he => he ▸ hdisj.1
          tauto
      · have hfail : failed ret = true := (hfailed ret hneg.le).mpr hneg.ne
        have hrev : (done.map res).Nodup := by
          rw [← List.nodup_reverse, ← List.map_reverse]
          exact hndone
        have hmem : ∀ a ∈ done, a ∈ as := fun a ha => by simp [← has, ha]
        obtain ⟨s₂, hrun, h₂⟩ := Releases.releaseAll (fun a ha => hrel a (hmem a ha)) hrev s₁
          (h₁ ▸ hdone)
        refine ⟨ret, s₂, by simp [hfail, hrun], Or.inr ⟨hneg, ?_⟩⟩
        rw [h₂, h₁]
  intro s hs
  obtain ⟨ret, s', heq, hcase⟩ := key as [] s rfl (by simp) hs
  exact ⟨ret, s', heq, hcase.imp_right fun h => ⟨h.1, by simpa using h.2⟩⟩

/-- **Two stages** are all or nothing when each is and the first can be undone. -/
theorem Acquires.initThen (h₁ : Acquires held ps init₁) (h₂ : Acquires held qs init₂)
    (hundo : Releases held ps f) (hdisj : Disjoint ps qs) :
    Acquires held (ps ∪ qs) (initThen init₁ init₂ f) := by
  intro s hs
  obtain ⟨hps, hqs⟩ := Finset.disjoint_union_left.mp hs
  obtain ⟨ret₁, s₁, heq₁, hcase₁⟩ := h₁ s hps
  rw [Lib.initThen, heq₁]
  simp only [Option.bind_eq_bind, Option.bind_some]
  rcases hcase₁ with ⟨rfl, hs₁⟩ | ⟨hneg, hs₁⟩
  · obtain ⟨ret₂, s₂, heq₂, hcase₂⟩ := h₂ s₁ (by
      rw [hs₁]
      exact Finset.disjoint_union_right.mpr ⟨hqs, hdisj.symm⟩)
    rw [if_neg (lt_irrefl 0), heq₂, Option.bind_some]
    rcases hcase₂ with ⟨rfl, hs₂⟩ | ⟨hneg, hs₂⟩
    · refine ⟨0, s₂, if_neg (lt_irrefl 0), Or.inl ⟨rfl, ?_⟩⟩
      rw [hs₂, hs₁, Finset.union_assoc]
    · obtain ⟨s₃, heq₃, hs₃⟩ := hundo s₂ (by
        rw [hs₂, hs₁]
        exact Finset.subset_union_right)
      refine ⟨ret₂, s₃, by simp [hneg, heq₃], Or.inr ⟨hneg, ?_⟩⟩
      rw [hs₃, hs₂, hs₁, Finset.union_sdiff_right, Finset.sdiff_eq_self_iff_disjoint]
      exact hps.symm
  · exact ⟨ret₁, s₁, if_pos hneg, Or.inr ⟨hneg, hs₁⟩⟩

/-- Whether it returns an error is settled beforehand. -/
def Fails (b : Prop) (init : S → Option (ℤ × S)) : Prop :=
  ∀ s ret s', init s = some (ret, s') → (ret < 0 ↔ b)

omit [DecidableEq P] in
/-- Two stages fail when one of them does. -/
theorem Fails.initThen {b c : Prop} (h₁ : Fails b init₁) (h₂ : Fails c init₂) :
    Fails (b ∨ c) (initThen init₁ init₂ f) := by
  intro s ret s' h
  rw [Lib.initThen] at h
  obtain ⟨⟨ret₁, s₁⟩, heq₁, h⟩ := Option.bind_eq_some_iff.mp h
  have hb := h₁ s ret₁ s₁ heq₁
  by_cases hneg₁ : ret₁ < 0
  · simp only [hneg₁, if_true] at h
    obtain ⟨rfl, -⟩ := Prod.mk.inj (Option.some.inj h)
    exact iff_of_true hneg₁ (Or.inl (hb.mp hneg₁))
  · simp only [hneg₁, if_false] at h
    obtain ⟨⟨ret₂, s₂⟩, heq₂, h⟩ := Option.bind_eq_some_iff.mp h
    have hc := h₂ s₁ ret₂ s₂ heq₂
    have hnb : ¬ b := fun h => hneg₁ (hb.mpr h)
    by_cases hneg₂ : ret₂ < 0
    · simp only [hneg₂, if_true] at h
      obtain ⟨s₃, -, h⟩ := Option.bind_eq_some_iff.mp h
      obtain ⟨rfl, -⟩ := Prod.mk.inj (Option.some.inj h)
      exact iff_of_true hneg₂ (Or.inr (hc.mp hneg₂))
    · simp only [hneg₂, if_false] at h
      obtain ⟨rfl, -⟩ := Prod.mk.inj (Option.some.inj h)
      exact iff_of_false (by simp) fun h => h.elim hnb fun h => hneg₂ (hc.mpr h)

/-! ### Resources that are only tried -/

/-- Some of the resources are acquired. -/
def Tries (held : S → Finset P) (ps : Finset P) (f : S → Option S) : Prop :=
  ∀ s, ∃ s', f s = some s' ∧ held s ⊆ held s' ∧ held s' ⊆ held s ∪ ps

/-- Those of the resources that are held are released. -/
def Clears (held : S → Finset P) (ps : Finset P) (f : S → Option S) : Prop :=
  ∀ s, ∃ s', f s = some s' ∧ held s' = held s \ ps

theorem Tries.tryAll {acquire : α → S → Option (ℤ × S)} {res : α → P} {as : List α}
    (h : ∀ a ∈ as, Tries held {res a} fun s => (acquire a s).map Prod.snd) :
    Tries held (as.map res).toFinset (tryAll acquire as) := by
  induction as with
  | nil => exact fun s => ⟨s, rfl, subset_rfl, Finset.subset_union_left⟩
  | cons a as ih =>
    intro s
    obtain ⟨ha, has⟩ := List.forall_mem_cons.mp h
    obtain ⟨s₁, heq₁, hle₁, hge₁⟩ := ha s
    obtain ⟨⟨ret, _⟩, hacq, rfl⟩ := Option.map_eq_some_iff.mp heq₁
    obtain ⟨s₂, heq₂, hle₂, hge₂⟩ := ih has _
    refine ⟨s₂, ?_, hle₁.trans hle₂, hge₂.trans ?_⟩
    · rw [Lib.tryAll, hacq]
      exact heq₂
    · rw [List.map_cons, List.toFinset_cons, Finset.insert_eq, ← Finset.union_assoc]
      exact Finset.union_subset_union_left hge₁

theorem Clears.releaseAll {release : α → S → Option S} {res : α → P} {as : List α}
    (h : ∀ a ∈ as, Clears held {res a} (release a)) :
    Clears held (as.map res).toFinset (releaseAll release as) := by
  induction as with
  | nil => exact fun s => ⟨s, rfl, by simp⟩
  | cons a as ih =>
    intro s
    obtain ⟨ha, has⟩ := List.forall_mem_cons.mp h
    obtain ⟨s₁, heq₁, h₁⟩ := ha s
    obtain ⟨s₂, heq₂, h₂⟩ := ih has s₁
    refine ⟨s₂, ?_, ?_⟩
    · rw [Lib.releaseAll, heq₁]
      exact heq₂
    · rw [h₂, h₁, List.map_cons, List.toFinset_cons, Finset.insert_eq, sdiff_sdiff_left,
        Finset.sup_eq_union]

/-- **A tried stage and an acquired one** leave nothing behind when the second fails. -/
theorem Tries.initThen {try₁ : S → Option S} (h₁ : Tries held ps try₁)
    (h₂ : Acquires held qs init₂) (hundo : Clears held ps f) (hdisj : Disjoint ps qs) {s : S}
    (hs : Disjoint (ps ∪ qs) (held s)) :
    ∃ ret s', initThen (fun s => (try₁ s).map ((0 : ℤ), ·)) init₂ f s = some (ret, s') ∧
      (ret = 0 ∧ qs ⊆ held s' ∨ ret < 0 ∧ held s' = held s) := by
  obtain ⟨hps, hqs⟩ := Finset.disjoint_union_left.mp hs
  obtain ⟨s₁, heq₁, hle, hge⟩ := h₁ s
  rw [Lib.initThen, heq₁]
  simp only [Option.map_some, Option.bind_eq_bind, Option.bind_some, lt_irrefl, if_false]
  have hqs₁ : Disjoint qs (held s₁) :=
    Finset.disjoint_of_subset_right hge (Finset.disjoint_union_right.mpr ⟨hqs, hdisj.symm⟩)
  obtain ⟨ret₂, s₂, heq₂, hcase₂⟩ := h₂ s₁ hqs₁
  rw [heq₂, Option.bind_some]
  rcases hcase₂ with ⟨rfl, hs₂⟩ | ⟨hneg, hs₂⟩
  · refine ⟨0, s₂, if_neg (lt_irrefl 0), Or.inl ⟨rfl, ?_⟩⟩
    rw [hs₂]
    exact Finset.subset_union_right
  · obtain ⟨s₃, heq₃, hs₃⟩ := hundo s₂
    refine ⟨ret₂, s₃, by simp [hneg, heq₃], Or.inr ⟨hneg, ?_⟩⟩
    rw [hs₃, hs₂]
    refine Finset.Subset.antisymm (fun p hp => ?_) fun p hp => ?_
    · obtain ⟨hp₁, hnot⟩ := Finset.mem_sdiff.mp hp
      exact (Finset.mem_union.mp (hge hp₁)).resolve_right hnot
    · exact Finset.mem_sdiff.mpr ⟨hle hp, Finset.disjoint_right.mp hps hp⟩

end

end CppProgramming.Lib
