import CppProgramming.Lib.Hlist

/-!
# What a reader without a lock still reaches

`m.Path p as`: from the pointer `p` on, `next` leads through the nodes `as` and
then to `NULL`.  For a reader that stands on a node which has left its list this
is all there is to say about the rest of its way.

Each operation leaves such a way intact up to the one node it is about.  Adding
in front does not touch it.  Deleting a node takes that node out of every way
(`Path.deleted`), replacing it puts the new node there (`Path.replaced`); a way
never gets longer.
-/

namespace CppProgramming.Lib

universe u

namespace Hlist

variable {H A : Type u} [DecidableEq H] [DecidableEq A]

def Path (m : Hlist H A) : Option A → List A → Prop
  | p, [] => p = none
  | p, a :: as => p = some a ∧ Path m (m.next a) as

variable {m m' : Hlist H A} {l : Slot H A} {p : Option A} {a old new : A} {as bs : List A} {h : H}

section

omit [DecidableEq H] [DecidableEq A]

/-- A list is a way from its slot. -/
theorem Links.path (hl : m.Links l as) : m.Path (m.slot l) as := by
  induction as generalizing l with
  | nil => exact hl
  | cons a as ih => exact ⟨hl.1, ih hl.2.2.2⟩

/-- A way is determined by where it starts. -/
theorem Path.unique (hp : m.Path p as) (hq : m.Path p bs) : as = bs := by
  induction as generalizing p bs with
  | nil =>
    cases bs with
    | nil => rfl
    | cons b bs => exact absurd (hp.symm.trans hq.1) (by simp)
  | cons a as ih =>
    cases bs with
    | nil => exact absurd (hq.symm.trans hp.1) (by simp)
    | cons b bs =>
      obtain rfl : a = b := Option.some.inj (hp.1.symm.trans hq.1)
      rw [ih hp.2 hq.2]

theorem Links.unique (hl : m.Links l as) (hb : m.Links l bs) : as = bs := hl.path.unique hb.path

theorem Path.congr (hp : m.Path p as) (hnext : ∀ x ∈ as, m'.next x = m.next x) : m'.Path p as := by
  induction as generalizing p with
  | nil => exact hp
  | cons a as ih =>
    obtain ⟨ha, hnext⟩ := List.forall_mem_cons.mp hnext
    refine ⟨hp.1, ?_⟩
    rw [ha]
    exact ih hp.2 hnext

end

theorem Path.added (hp : m.Path p as) (hn : a ∉ as) : (m.added a h).Path p as := by
  refine hp.congr fun x hx => ?_
  rw [next_added, if_neg]
  rintro rfl
  exact hn hx

/-- **A deleted node is taken out of every way.** -/
theorem Path.deleted (hl : m.slot l = some a) (as : List A) : ∀ p, m.Path p as →
    ∃ bs, (m.deleted a l).Path p bs ∧ bs.length ≤ as.length ∧ (∀ x ∈ bs, x ∈ as) ∧
      ∀ x ∈ as, x ∈ bs ∨ x = a := by
  induction hn : as.length using Nat.strong_induction_on generalizing as with
  | _ n ih =>
    intro p hp
    cases as with
    | nil => exact ⟨[], hp, by simp, by simp, by simp⟩
    | cons x as =>
      obtain ⟨rfl, hrest⟩ := hp
      subst hn
      by_cases hx : Slot.next x = l
      · -- the way goes through the slot, and `a` is next on it
        have hnext : m.next x = some a := by
          rw [← hl, ← hx]
          rfl
        cases as with
        | nil => exact absurd (hrest.symm.trans hnext) (by simp)
        | cons y as =>
          obtain ⟨hy, hrest⟩ := hrest
          obtain rfl : a = y := Option.some.inj (hnext.symm.trans hy)
          obtain ⟨bs, hbs, hlen, hsub, hkeep⟩ :=
            ih _ (by simp only [List.length_cons]; omega) as rfl _ hrest
          refine ⟨x :: bs, ⟨rfl, ?_⟩, by simp only [List.length_cons]; omega,
            fun z hz => ?_, fun z hz => ?_⟩
          · rw [next_deleted, if_pos hx]
            exact hbs
          · rcases List.mem_cons.mp hz with rfl | hz
            · simp
            · simp [hsub z hz]
          · rcases List.mem_cons.mp hz with rfl | hz
            · simp
            · rcases List.mem_cons.mp hz with rfl | hz
              · exact Or.inr rfl
              · exact (hkeep z hz).imp_left (List.mem_cons_of_mem x)
      · obtain ⟨bs, hbs, hlen, hsub, hkeep⟩ := ih _ (by simp) as rfl _ hrest
        refine ⟨x :: bs, ⟨rfl, ?_⟩, by simp only [List.length_cons]; omega,
            fun z hz => ?_, fun z hz => ?_⟩
        · rw [next_deleted, if_neg hx]
          exact hbs
        · rcases List.mem_cons.mp hz with rfl | hz
          · simp
          · simp [hsub z hz]
        · rcases List.mem_cons.mp hz with rfl | hz
          · simp
          · exact (hkeep z hz).imp_left (List.mem_cons_of_mem x)

/-- **A replaced node gives way to the new one** on every way. -/
theorem Path.replaced (hl : m.slot l = some old) (hlnew : l ≠ .next new) (as : List A) : ∀ p,
    m.Path p as → new ∉ as →
    ∃ bs, (m.replaced old new l).Path p bs ∧ bs.length ≤ as.length ∧
      (∀ x ∈ bs, x ∈ as ∨ x = new ∧ old ∈ as) ∧ ∀ x ∈ as, x ∈ bs ∨ x = old ∧ new ∈ bs := by
  induction hn : as.length using Nat.strong_induction_on generalizing as with
  | _ n ih =>
    intro p hp hnew
    cases as with
    | nil => exact ⟨[], hp, by simp, by simp, by simp⟩
    | cons x as =>
      obtain ⟨rfl, hrest⟩ := hp
      subst hn
      obtain ⟨hxn, hnew⟩ := not_or.mp (List.mem_cons.not.mp hnew)
      by_cases hx : Slot.next x = l
      · -- the way goes through the slot, and `old` is next on it
        have hnext : m.next x = some old := by
          rw [← hl, ← hx]
          rfl
        cases as with
        | nil => exact absurd (hrest.symm.trans hnext) (by simp)
        | cons y as =>
          obtain ⟨hy, hrest⟩ := hrest
          obtain rfl : old = y := Option.some.inj (hnext.symm.trans hy)
          obtain ⟨bs, hbs, hlen, hsub, hkeep⟩ :=
            ih _ (by simp only [List.length_cons]; omega) as rfl _ hrest
            fun hmem => hnew (List.mem_cons_of_mem _ hmem)
          refine ⟨x :: new :: bs, ⟨rfl, ?_⟩, by simpa using hlen, fun z hz => ?_, fun z hz => ?_⟩
          · rw [next_replaced, if_pos hx]
            refine ⟨rfl, ?_⟩
            rw [next_replaced, if_neg (Ne.symm hlnew), if_pos rfl]
            exact hbs
          · rcases List.mem_cons.mp hz with rfl | hz
            · simp
            · rcases List.mem_cons.mp hz with rfl | hz
              · exact Or.inr ⟨rfl, by simp⟩
              · exact (hsub z hz).imp (by simp +contextual) (by simp +contextual)
          · rcases List.mem_cons.mp hz with rfl | hz
            · simp
            · rcases List.mem_cons.mp hz with rfl | hz
              · exact Or.inr ⟨rfl, by simp⟩
              · exact (hkeep z hz).imp (by simp +contextual) (by simp +contextual)
      · obtain ⟨bs, hbs, hlen, hsub, hkeep⟩ := ih _ (by simp) as rfl _ hrest hnew
        refine ⟨x :: bs, ⟨rfl, ?_⟩, by simpa using hlen, fun z hz => ?_, fun z hz => ?_⟩
        · rw [next_replaced, if_neg hx, if_neg (Ne.symm hxn)]
          exact hbs
        · rcases List.mem_cons.mp hz with rfl | hz
          · simp
          · exact (hsub z hz).imp (by simp +contextual) (by simp +contextual)
        · rcases List.mem_cons.mp hz with rfl | hz
          · simp
          · exact (hkeep z hz).imp (by simp +contextual) (by simp +contextual)

end Hlist

end CppProgramming.Lib
