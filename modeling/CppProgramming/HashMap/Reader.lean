import CppProgramming.HashMap.Update
import CppProgramming.Lib.Transition

/-!
# A reader among writers

One `pe_map_get` of `proc_entry_hashmap2.c` that advances one load at a time,
interleaved with complete critical sections of writers and with callbacks of
`call_rcu`.  The grace period is what `early` is for: while the reader is inside
`rcu_read_lock`, the callback of an entry may run only if the entry was already
pending when the reader came in.

The reader may stand on an entry that left its bucket many updates ago, and then
it follows pointers that no longer belong to the list.  What carries the proof is
`Looping`: from where the reader stands, a way leads to `NULL` over entries that
are all safe to visit (they were in the bucket at some moment, and they are in it
now or pending since), and as long as the key has been bound all the time an
entry with the key is on it.
-/

namespace CppProgramming.HashMap

open CppProgramming.Lib PeHashmap

namespace RcuHashmap

variable {A : Type} [DecidableEq A]

/-! ### The code -/

/-- Where a `pe_map_get` is: at the loop's test of `entry`, about to load the pointer
behind `entry`, or back with its result and `*value`. -/
inductive Cursor (A : Type)
  | outside
  | locked
  | entry (entry : Option A)
  | advance (entry : A)
  | returned (ret : ℤ) (value : BitVec 64)

namespace Cursor

/-- Between `rcu_read_lock` and `rcu_read_unlock`. -/
def inside : Cursor A → Bool
  | .locked | .entry _ | .advance _ => true
  | .outside | .returned _ _ => false

/-- The entry that the reader stands on. -/
def visits : Cursor A → Option A
  | .entry p => p
  | .advance a => some a
  | _ => none

end Cursor

/-- The next step of the reader; it fails on an entry that is not allocated. -/
def readStep (key out : BitVec 64) (m : RcuHashmap A) : Cursor A → Option (Cursor A)
  | .outside => none
  | .locked =>
    let index := m.index key
    if index < m.bucketsNum.toNat then some (.entry (m.hlist.first (.bucket index))) else none
  | .entry none => some (.returned (-1) out)
  | .entry (some entry) =>
    if entry ∈ m.hlist.live then
      if m.key entry = key then some (.returned 0 (m.value entry)) else some (.advance entry)
    else none
  | .advance entry => (m.hlist.load (.next entry)).map .entry
  | .returned _ _ => none

/-- The map, the entries that were pending when the reader came in, and the reader. -/
structure Shared (A : Type) where
  map : RcuHashmap A
  early : Finset A
  cursor : Cursor A

/-- What happens next.  `alloc` is what `kmem_cache_alloc` answers to an insert. -/
inductive Action (A : Type)
  | lock
  | read
  | insert (alloc : Option A) (key value : BitVec 64)
  | remove (key : BitVec 64)
  | callback (a : A)
deriving DecidableEq

def act (key out : BitVec 64) (s : Shared A) : Action A → Option (Shared A)
  | .lock =>
    match s.cursor with
    | .outside => some { s with early := s.map.rcu.toFinset, cursor := .locked }
    | _ => none
  | .read => (readStep key out s.map s.cursor).map fun cursor => { s with cursor := cursor }
  | .insert alloc k v =>
    if ∀ a ∈ alloc, a ∉ s.map.hlist.live then
      (peMapInsert alloc k v s.map).map fun (_, map) => { s with map := map }
    else none
  | .remove k => (peMapRemove k s.map).map fun (_, map) => { s with map := map }
  | .callback a =>
    if a ∈ s.map.rcu ∧ (s.cursor.inside = true → a ∈ s.early) then
      (s.map.peEntryFreeRcu a).map fun map => { s with map := map, early := s.early.erase a }
    else none

/-- A new map, and no reader yet. -/
def Fresh (s : Shared A) : Prop :=
  (∃ bits mem cache, bits < 32 ∧ create bits mem true true cache = some s.map) ∧ s.early = ∅ ∧
    s.cursor = .outside

/-- `pe_map_get(map, key, value)` with `out` in `*value`, and everything around it. -/
def sharing (key out : BitVec 64) : System (Shared A) (Action A) := .ofStep Fresh (act key out)

/-! ### What holds in every state -/

variable {key out k v : BitVec 64} {s t : Shared A} {a n : A} {l : Action A}

/-- The bucket that the reader looks into. -/
def Shared.Bucket (key : BitVec 64) (s : Shared A) (a : A) : Prop :=
  InBucket s.map (s.map.index key) a

/-- The invariant of the map, and what is left of the early entries is pending. -/
structure Sound (s : Shared A) : Prop where
  holds : ∃ chain σ, Holds s.map chain σ
  early : ∀ a ∈ s.early, a ∈ s.map.rcu

/-- What a step that is not the reader's does to the map of the reader. -/
inductive Moves (key : BitVec 64) (s t : Shared A) : Prop
  | update (h : Update (s.map.index key) s.map t.map) (hearly : t.early = s.early)
  | callback (a : A) (ha : a ∈ s.map.rcu) (hearly : s.cursor.inside = true → a ∈ s.early)
      (ht : t = { s with
        map := { s.map with toPeHashmap := s.map.toPeHashmap.freed a, rcu := s.map.rcu.erase a }
        early := s.early.erase a })

omit [DecidableEq A] in
theorem Sound.index_lt (h : Sound s) (key : BitVec 64) :
    s.map.index key < s.map.bucketsNum.toNat := by
  obtain ⟨chain, σ, h⟩ := h.holds
  exact h.rep.index_lt key

/-- **What a step can be.** -/
theorem act_cases (h : Sound s) (ht : act key out s l = some t) :
    (l = .lock ∧ s.cursor = .outside ∧
        t = { s with early := s.map.rcu.toFinset, cursor := .locked }) ∨
      (l = .read ∧ ∃ c, readStep key out s.map s.cursor = some c ∧ t = { s with cursor := c }) ∨
      (l ≠ .lock ∧ l ≠ .read ∧ t.cursor = s.cursor ∧ Moves key s t) := by
  have hi := h.index_lt key
  obtain ⟨chain, σ, hm⟩ := h.holds
  cases l with
  | lock =>
    simp only [act] at ht
    split at ht
    · rename_i hc
      exact Or.inl ⟨rfl, hc, (Option.some.inj ht).symm⟩
    · exact absurd ht (by simp)
  | read =>
    obtain ⟨c, hc, rfl⟩ := Option.map_eq_some_iff.mp ht
    exact Or.inr (Or.inl ⟨rfl, c, hc, rfl⟩)
  | insert alloc k v =>
    simp only [act] at ht
    split at ht
    · rename_i hfresh
      obtain ⟨⟨ret, m'⟩, hm', rfl⟩ := Option.map_eq_some_iff.mp ht
      refine Or.inr (Or.inr ⟨by simp, by simp, rfl, .update ?_ rfl⟩)
      exact update_insert hm hi (fun n hn => hfresh n hn) hm'
    · exact absurd ht (by simp)
  | remove k =>
    obtain ⟨⟨ret, m'⟩, hm', rfl⟩ := Option.map_eq_some_iff.mp ht
    exact Or.inr (Or.inr ⟨by simp, by simp, rfl, .update (update_remove hm hi hm') rfl⟩)
  | callback a =>
    simp only [act] at ht
    split at ht
    · rename_i hfree
      rw [(peEntryFreeRcu_spec hm hfree.1).1] at ht
      exact Or.inr (Or.inr ⟨by simp, by simp, by simp [← Option.some.inj ht],
        .callback a hfree.1 hfree.2 (Option.some.inj ht).symm⟩)
    · exact absurd ht (by simp)

theorem Moves.sound (h : Sound s) (hm : Moves key s t) : Sound t := by
  obtain ⟨chain, σ, hs⟩ := h.holds
  cases hm with
  | update hu hearly => exact ⟨hu.holds, fun x hx => hu.rcu x (h.early x (hearly ▸ hx))⟩
  | callback a ha hearly ht =>
    subst ht
    refine ⟨⟨chain, σ, (peEntryFreeRcu_spec hs ha).2⟩, fun x hx => ?_⟩
    obtain ⟨hxa, hx⟩ := Finset.mem_erase.mp hx
    exact (hs.nodup.mem_erase_iff).mpr ⟨hxa, h.early x hx⟩

theorem sound_of_reachable (h : (sharing key out).Reachable s) : Sound s := by
  refine h.invariant (fun s hs => ?_) fun s l t _ hs hstep => ?_
  · obtain ⟨⟨bits, mem, cache, hbits, hcreate⟩, hearly, -⟩ := hs
    exact ⟨⟨_, _, holds_create hbits hcreate⟩, by simp [hearly]⟩
  · rcases act_cases hs hstep with ⟨-, -, rfl⟩ | ⟨-, c, -, rfl⟩ | ⟨-, -, -, hm⟩
    · exact ⟨hs.holds, fun a ha => List.mem_toFinset.mp ha⟩
    · exact ⟨hs.holds, hs.early⟩
    · exact hm.sound hs

/-! ### What is ahead of the reader -/

/-- What has been so since the reader came in: which entries were in its bucket, with
their key and value, and whether the key was bound all the time. -/
structure Past (A : Type) where
  seen : A → BitVec 64 → BitVec 64 → Prop
  bound : Prop

/-- `h'` is the longer past. -/
structure Past.Grows (h h' : Past A) : Prop where
  seen : ∀ a k v, h.seen a k v → h'.seen a k v
  bound : h'.bound → h.bound

/-- The past includes the present state. -/
structure Past.UpTo (key : BitVec 64) (h : Past A) (s : Shared A) : Prop where
  seen : ∀ a, s.Bucket key a → h.seen a (s.map.key a) (s.map.value a)
  bound : h.bound → ∃ v, Binds s.map key v

/-- A reader may stand on `a`: it was in the bucket, and is there now or pending since. -/
structure Safe (key : BitVec 64) (h : Past A) (s : Shared A) (a : A) : Prop where
  seen : h.seen a (s.map.key a) (s.map.value a)
  kept : s.Bucket key a ∨ a ∈ s.map.rcu ∧ a ∉ s.early

/-- The way of the reader from `p` on. -/
structure Ahead (key : BitVec 64) (h : Past A) (s : Shared A) (p : Option A) (as : List A) :
    Prop where
  path : s.map.hlist.Path p as
  safe : ∀ a ∈ as, Safe key h s a
  bound : h.bound → ∃ a ∈ as, s.map.key a = key

/-- **The invariant of the loop**, with at most `r` steps to go. -/
def Looping (key out : BitVec 64) (h : Past A) (s : Shared A) (r : ℕ) : Prop :=
  match s.cursor with
  | .entry p => ∃ as, Ahead key h s p as ∧ 2 * as.length + 1 ≤ r
  | .advance a => s.map.key a ≠ key ∧ ∃ as, Ahead key h s (some a) as ∧ 2 * as.length ≤ r
  | .returned ret value =>
    ret = 0 ∧ (∃ a, h.seen a key value) ∨ ret = -1 ∧ value = out ∧ ¬ h.bound
  | .outside | .locked => False

variable {h h' : Past A} {p : Option A} {as : List A} {r : ℕ}

section

omit [DecidableEq A]

theorem Safe.live (hs : Sound s) (ha : Safe key h s a) : a ∈ s.map.hlist.live := by
  have hi := hs.index_lt key
  obtain ⟨chain, σ, hm⟩ := hs.holds
  exact hm.live_of hi (ha.kept.imp_right And.left)

theorem Safe.grows (hg : h.Grows h') (ha : Safe key h s a) : Safe key h' s a :=
  ⟨hg.seen _ _ _ ha.seen, ha.kept⟩

theorem Safe.cursor {c : Cursor A} (ha : Safe key h s a) : Safe key h { s with cursor := c } a :=
  ⟨ha.seen, ha.kept⟩

end

theorem Moves.bucket (hs : Sound s) (hm : Moves key s t) (ha : s.Bucket key a) :
    t.Bucket key a ∨ a ∈ t.map.rcu ∧ a ∉ t.early := by
  have hi := hs.index_lt key
  obtain ⟨chain, σ, hmap⟩ := hs.holds
  cases hm with
  | update hu hearly =>
    rw [Shared.Bucket, hu.index]
    refine (hu.leaves a ha).imp_right fun hr => ⟨hr, fun he => ?_⟩
    exact hmap.apart a (hs.early a (hearly ▸ he)) (hmap.linked hi ha)
  | callback b hb hearly ht =>
    subst ht
    exact Or.inl (((peEntryFreeRcu_spec hmap hb).2.inBucket_iff hi).mpr
      ((hmap.inBucket_iff hi).mp ha))

theorem Moves.same (hm : Moves key s t) (ha : a ∈ s.map.hlist.live) :
    t.map.key a = s.map.key a ∧ t.map.value a = s.map.value a := by
  cases hm with
  | update hu _ => exact hu.same a ha
  | callback b hb hearly ht =>
    subst ht
    exact ⟨rfl, rfl⟩

theorem Safe.moves (hs : Sound s) (hin : s.cursor.inside = true) (hm : Moves key s t)
    (hg : h.Grows h') (ha : Safe key h s a) : Safe key h' t a := by
  obtain ⟨hk, hv⟩ := hm.same (ha.live hs)
  refine ⟨by rw [hk, hv]; exact hg.seen _ _ _ ha.seen, ?_⟩
  rcases ha.kept with hb | ⟨hr, he⟩
  · exact hm.bucket hs hb
  · right
    cases hm with
    | update hu hearly => exact ⟨hu.rcu a hr, hearly ▸ he⟩
    | callback b hb hearly ht =>
      have hab : a ≠ b := fun h => he (h ▸ hearly hin)
      subst ht
      exact ⟨(List.mem_erase_of_ne hab).mpr hr, fun h => he (Finset.mem_of_mem_erase h)⟩

/-- **The way survives** whatever the others do. -/
theorem Ahead.moves (hs : Sound s) (hin : s.cursor.inside = true) (hm : Moves key s t)
    (hg : h.Grows h') (hu : h'.UpTo key t) (ha : Ahead key h s p as) :
    ∃ bs, Ahead key h' t p bs ∧ bs.length ≤ as.length := by
  have hsafe : ∀ a ∈ as, Safe key h' t a := fun a hmem => (ha.safe a hmem).moves hs hin hm hg
  have hsame : ∀ a ∈ as, t.map.key a = s.map.key a := fun a hmem =>
    (hm.same ((ha.safe a hmem).live hs)).1
  cases hm with
  | update hup hearly =>
    obtain ⟨bs, hbs, hlen, hsub, hkeep⟩ :=
      hup.path p as ha.path fun a hmem => (ha.safe a hmem).kept.imp_right And.left
    refine ⟨bs, ⟨hbs, fun a hmem => ?_, fun hb => ?_⟩, hlen⟩
    · rcases hsub a hmem with hmem | hbucket
      · exact hsafe a hmem
      · have hbucket : t.Bucket key a := by rwa [Shared.Bucket, hup.index]
        exact ⟨hu.seen a hbucket, Or.inl hbucket⟩
    · obtain ⟨v, hv⟩ := hu.bound hb
      exact hkeep key v hv (ha.bound (hg.bound hb))
  | callback b hb hearly ht =>
    subst ht
    refine ⟨as, ⟨ha.path.congr fun _ _ => rfl, hsafe, fun hbound => ?_⟩, le_rfl⟩
    exact ha.bound (hg.bound hbound)

theorem Looping.moves (hs : Sound s) (hcursor : t.cursor = s.cursor) (hm : Moves key s t)
    (hg : h.Grows h') (hu : h'.UpTo key t) (hl : Looping key out h s r) :
    Looping key out h' t r := by
  unfold Looping at hl ⊢
  rw [hcursor]
  cases hc : s.cursor with
  | outside => simp only [hc] at hl
  | locked => simp only [hc] at hl
  | entry p =>
    simp only [hc] at hl ⊢
    obtain ⟨as, ha, hr⟩ := hl
    obtain ⟨bs, hb, hlen⟩ := ha.moves hs (by rw [hc]; rfl) hm hg hu
    exact ⟨bs, hb, by omega⟩
  | advance a =>
    simp only [hc] at hl ⊢
    obtain ⟨hk, as, ha, hr⟩ := hl
    obtain ⟨bs, hb, hlen⟩ := ha.moves hs (by rw [hc]; rfl) hm hg hu
    refine ⟨?_, bs, hb, by omega⟩
    cases as with
    | nil => exact absurd ha.path (by simp [Hlist.Path])
    | cons b as =>
      obtain rfl := Option.some.inj ha.path.1
      rwa [(hm.same ((ha.safe a (by simp)).live hs)).1]
  | returned ret value =>
    simp only [hc] at hl ⊢
    refine hl.imp (fun ⟨hret, a, ha⟩ => ⟨hret, a, hg.seen _ _ _ ha⟩) fun ⟨hret, hv, hb⟩ => ?_
    exact ⟨hret, hv, fun hb' => hb (hg.bound hb')⟩

/-- **A step of the reader** in its loop. -/
theorem Looping.read (hs : Sound s) (hin : s.cursor.inside = true) (hl : Looping key out h s r) :
    0 < r ∧ ∃ c, readStep key out s.map s.cursor = some c ∧
      Looping key out h { s with cursor := c } (r - 1) := by
  unfold Looping at hl
  cases hc : s.cursor with
  | outside => simp only [hc] at hl
  | locked => simp only [hc] at hl
  | returned ret value => simp [hc, Cursor.inside] at hin
  | entry p =>
    simp only [hc] at hl
    obtain ⟨as, ha, hr⟩ := hl
    refine ⟨by omega, ?_⟩
    cases as with
    | nil =>
      obtain rfl : p = none := ha.path
      refine ⟨_, rfl, Or.inr ⟨rfl, rfl, fun hb => ?_⟩⟩
      simpa using ha.bound hb
    | cons a as =>
      obtain rfl : p = some a := ha.path.1
      have hsafe := ha.safe a (by simp)
      rw [readStep, if_pos (hsafe.live hs)]
      by_cases hk : s.map.key a = key
      · rw [if_pos hk]
        exact ⟨_, rfl, Or.inl ⟨rfl, a, hk ▸ hsafe.seen⟩⟩
      · rw [if_neg hk]
        refine ⟨_, rfl, hk, a :: as, ⟨ha.path, fun x hx => (ha.safe x hx).cursor, ha.bound⟩, ?_⟩
        rw [List.length_cons] at hr ⊢
        omega
  | advance a =>
    simp only [hc] at hl
    obtain ⟨hk, as, ha, hr⟩ := hl
    cases as with
    | nil => exact absurd ha.path (by simp [Hlist.Path])
    | cons b as =>
      obtain ⟨hab, hpath⟩ := ha.path
      obtain rfl := Option.some.inj hab
      rw [List.length_cons] at hr
      refine ⟨by omega, .entry (s.map.hlist.next a), ?_, as, ⟨hpath, ?_, fun hb => ?_⟩, ?_⟩
      · have hlive : s.map.hlist.Valid (.next a) := (ha.safe a (by simp)).live hs
        rw [readStep, Hlist.load, if_pos hlive]
        rfl
      · exact fun x hx => (ha.safe x (List.mem_cons_of_mem a hx)).cursor
      · obtain ⟨x, hx, hxk⟩ := ha.bound hb
        rcases List.mem_cons.mp hx with rfl | hx
        · exact absurd hxk hk
        · exact ⟨x, hx, hxk⟩
      · omega

/-- **The reader enters its loop** with the list of the bucket ahead. -/
theorem looping_of_locked (out : BitVec 64) (hs : Sound s) (hu : h.UpTo key s)
    (hc : s.cursor = .locked) :
    ∃ c, readStep key out s.map s.cursor = some c ∧
      Looping key out h { s with cursor := c } (2 * s.map.hlist.live.card + 1) := by
  have hi := hs.index_lt key
  obtain ⟨chain, σ, hm⟩ := hs.holds
  have hlinks := hm.rep.links_index key
  refine ⟨.entry (s.map.hlist.first (.bucket (s.map.index key))), ?_, chain (s.map.index key),
    ⟨hlinks.path, fun a ha => ?_, fun hb => ?_⟩, ?_⟩
  · rw [hc]
    exact if_pos hi
  · have hbucket : s.Bucket key a := (hm.inBucket_iff hi).mpr ha
    exact ⟨hu.seen a hbucket, Or.inl hbucket⟩
  · obtain ⟨v, a, ha, hk, _⟩ := hu.bound hb
    exact ⟨a, (hm.inBucket_iff hi).mp ha, hk⟩
  · have hlen : (chain (s.map.index key)).length ≤ s.map.hlist.live.card := by
      rw [← List.toFinset_card_of_nodup hlinks.nodup]
      exact Finset.card_le_card fun a ha => hlinks.live a (List.mem_toFinset.mp ha)
    omega

/-! ### Runs -/

omit [DecidableEq A] in
theorem Looping.grows (hg : h.Grows h') (hl : Looping key out h s r) :
    Looping key out h' s r := by
  have hahead : ∀ p as, Ahead key h s p as → Ahead key h' s p as := fun p as ha =>
    ⟨ha.path, fun x hx => (ha.safe x hx).grows hg, fun hb => ha.bound (hg.bound hb)⟩
  unfold Looping at hl ⊢
  cases hc : s.cursor with
  | outside => simp only [hc] at hl
  | locked => simp only [hc] at hl
  | entry p =>
    simp only [hc] at hl ⊢
    obtain ⟨as, ha, hr⟩ := hl
    exact ⟨as, hahead _ _ ha, hr⟩
  | advance a =>
    simp only [hc] at hl ⊢
    obtain ⟨hk, as, ha, hr⟩ := hl
    exact ⟨hk, as, hahead _ _ ha, hr⟩
  | returned ret value =>
    simp only [hc] at hl ⊢
    exact hl.imp (fun ⟨hret, a, ha⟩ => ⟨hret, a, hg.seen _ _ _ ha⟩)
      fun ⟨hret, hv, hb⟩ => ⟨hret, hv, fun hb' => hb (hg.bound hb')⟩

/-- **One step** of a run, seen from the loop. -/
theorem Looping.step (hs : Sound s) (hg : h.Grows h') (hu : h'.UpTo key t)
    (ht : act key out s l = some t) (hl : Looping key out h s r) :
    Looping key out h' t (r - if l = .read then 1 else 0) := by
  rcases act_cases hs ht with ⟨-, hc, -⟩ | ⟨rfl, c, hc, rfl⟩ | ⟨-, hne, hcursor, hm⟩
  · simp [Looping, hc] at hl
  · have hin : s.cursor.inside = true := by
      cases hcur : s.cursor <;> simp_all [readStep, Cursor.inside]
    obtain ⟨-, c', hc', hl'⟩ := hl.read hs hin
    obtain rfl := Option.some.inj (hc.symm.trans hc')
    rw [if_pos rfl]
    exact hl'.grows hg
  · rw [if_neg hne, Nat.sub_zero]
    exact hl.moves hs hcursor hm hg hu

section Run

variable {N : ℕ} (e : (sharing (A := A) key out).Execution N) {t₀ i : ℕ}

/-- What has been so in the states behind the `t₀`-th up to the `i`-th. -/
def past (key : BitVec 64) (state : ℕ → Shared A) (t₀ i : ℕ) : Past A where
  seen a k v := ∃ j, t₀ < j ∧ j ≤ i ∧ (state j).Bucket key a ∧ (state j).map.key a = k ∧
    (state j).map.value a = v
  bound := ∀ j, t₀ < j → j ≤ i → ∃ v, Binds (state j).map key v

omit [DecidableEq A] in
theorem past_grows (state : ℕ → Shared A) (t₀ i : ℕ) :
    (past key state t₀ i).Grows (past key state t₀ (i + 1)) where
  seen := fun _ _ _ ⟨j, hj, hji, ha⟩ => ⟨j, hj, by omega, ha⟩
  bound h j hj hji := h j hj (by omega)

omit [DecidableEq A] in
theorem past_upTo (state : ℕ → Shared A) (hi : t₀ < i) :
    (past key state t₀ i).UpTo key (state i) where
  seen _ ha := ⟨i, hi, le_rfl, ha, rfl, rfl⟩
  bound h := h i hi le_rfl

theorem sound_state (hi : i ≤ N) : Sound (e.state i) := sound_of_reachable (e.reachable hi)

theorem looping_succ (hi : t₀ < i) (hN : i < N) (hc : (e.state i).cursor = .locked)
    (hread : e.label i = .read) :
    Looping key out (past key e.state t₀ (i + 1)) (e.state (i + 1))
      (2 * (e.state i).map.hlist.live.card + 1) := by
  have hs := sound_state e hN.le
  obtain ⟨c, hstep, hl⟩ := looping_of_locked out hs (past_upTo e.state hi) hc
  have hact : act key out (e.state i) (e.label i) = some { e.state i with cursor := c } := by
    rw [hread, act, hstep, Option.map_some]
  rw [show e.state (i + 1) = { e.state i with cursor := c } from
    Option.some.inj ((e.step i hN).symm.trans hact)]
  exact hl.grows (past_grows e.state t₀ i)

/-- **Since the reader came in** it is about to enter its loop or in it. -/
theorem locked_or_looping (hlock : e.label t₀ = .lock) (hi : t₀ < i) : i ≤ N →
    (e.state i).cursor = .locked ∨ ∃ r, Looping key out (past key e.state t₀ i) (e.state i) r := by
  induction i, hi using Nat.le_induction with
  | base =>
    intro hN
    rcases act_cases (sound_state e (by omega)) (e.step t₀ (by omega)) with
      ⟨-, -, ht⟩ | ⟨hl, -⟩ | ⟨hne, -⟩
    · exact Or.inl (by rw [ht])
    · simp [hlock] at hl
    · exact absurd hlock hne
  | succ i hi ih =>
    intro hN
    have hs := sound_state e (i := i) (by omega)
    have hstep := e.step i (by omega)
    rcases ih (by omega) with hc | ⟨r, hl⟩
    · rcases act_cases hs hstep with ⟨-, hc', -⟩ | ⟨hread, -⟩ | ⟨-, -, hcursor, -⟩
      · simp [hc] at hc'
      · exact Or.inr ⟨_, looping_succ e hi (by omega) hc hread⟩
      · exact Or.inl (hcursor.trans hc)
    · exact Or.inr ⟨_, hl.step hs (past_grows ..) (past_upTo _ (by omega)) hstep⟩

/-- **Its steps are counted** from the one that enters the loop. -/
theorem looping_count {t₁ : ℕ} (h₁ : t₀ < t₁) (hc : (e.state t₁).cursor = .locked)
    (hread : e.label t₁ = .read) (hi : t₁ < i) : i ≤ N →
    Looping key out (past key e.state t₀ i) (e.state i)
      (2 * (e.state t₁).map.hlist.live.card + 1 - e.count .read (t₁ + 1) i) := by
  induction i, hi using Nat.le_induction with
  | base =>
    intro hN
    rw [e.count_self]
    exact looping_succ e h₁ (by omega) hc hread
  | succ i hi ih =>
    intro hN
    have hstep := (ih (by omega)).step (sound_state e (by omega)) (past_grows ..)
      (past_upTo _ (by omega)) (e.step i (by omega))
    rwa [Nat.sub_sub, ← e.count_succ .read hi] at hstep

omit [DecidableEq A] in
theorem Looping.returned (hl : Looping key out h s 0) :
    ∃ ret value, s.cursor = .returned ret value := by
  unfold Looping at hl
  cases hc : s.cursor with
  | outside => simp only [hc] at hl
  | locked => simp only [hc] at hl
  | entry p =>
    simp only [hc] at hl
    obtain ⟨as, _, hr⟩ := hl
    omega
  | advance a =>
    simp only [hc] at hl
    obtain ⟨_, as, ha, hr⟩ := hl
    obtain rfl : as = [] := List.length_eq_zero_iff.mp (by omega)
    exact absurd ha.path (by simp [Hlist.Path])
  | returned ret value => exact ⟨ret, value, rfl⟩

omit [DecidableEq A] in
theorem Looping.visits (hl : Looping key out h s r) (ha : s.cursor.visits = some a) :
    Safe key h s a := by
  unfold Looping at hl
  cases hc : s.cursor with
  | entry p =>
    simp only [hc] at hl
    obtain ⟨as, hahead, _⟩ := hl
    obtain rfl : p = some a := by rwa [hc] at ha
    cases as with
    | nil => exact absurd hahead.path (by simp [Hlist.Path])
    | cons b as =>
      obtain rfl := Option.some.inj hahead.path.1
      exact hahead.safe a (by simp)
  | advance b =>
    simp only [hc] at hl
    obtain ⟨_, as, hahead, _⟩ := hl
    obtain rfl : b = a := by
      rw [hc] at ha
      exact Option.some.inj ha
    cases as with
    | nil => exact absurd hahead.path (by simp [Hlist.Path])
    | cons c as =>
      obtain rfl := Option.some.inj hahead.path.1
      exact hahead.safe b (by simp)
  | _ => simp [hc, Cursor.visits] at ha

/-- **A reader among writers.**  From `rcu_read_lock` on, whatever the writers and the
callbacks do: the entry that the reader stands on is allocated and was in the bucket at
some moment since; the reader can always make its next step, and behind the one that
loads the first entry it makes at most twice as many, plus one, as there are objects in
the cache; and when it returns, it returns `0` with a value that the key had at some
moment if the key was bound all the time, and `-1` if it was never bound. -/
theorem pe_map_get_concurrent (hlock : e.label t₀ = .lock) (hi : t₀ < i) (hN : i ≤ N) :
    (∀ a, (e.state i).cursor.visits = some a → a ∈ (e.state i).map.hlist.live ∧
      ∃ j, t₀ < j ∧ j ≤ i ∧ InBucket (e.state j).map ((e.state j).map.index key) a) ∧
    ((e.state i).cursor.inside = true → ∃ t, act key out (e.state i) .read = some t) ∧
    (∀ t₁, t₀ < t₁ → t₁ < i → (e.state t₁).cursor = .locked → e.label t₁ = .read →
      2 * (e.state t₁).map.hlist.live.card + 1 ≤ e.count .read (t₁ + 1) i →
      ∃ ret value, (e.state i).cursor = .returned ret value) ∧
    ∀ ret value, (e.state i).cursor = .returned ret value →
      ((∀ j, t₀ < j → j ≤ i → ∃ v, Binds (e.state j).map key v) →
        ret = 0 ∧ ∃ j, t₀ < j ∧ j ≤ i ∧ Binds (e.state j).map key value) ∧
      ((∀ j, t₀ < j → j ≤ i → ¬ ∃ v, Binds (e.state j).map key v) → ret = -1 ∧ value = out) := by
  have hs := sound_state e hN
  have hcases := locked_or_looping e hlock hi hN
  refine ⟨fun a ha => ?_, fun hin => ?_, fun t₁ h₁ h₁i hc hread hcount => ?_, fun ret value hret => ?_⟩
  · rcases hcases with hc | ⟨r, hl⟩
    · simp [hc, Cursor.visits] at ha
    · have hsafe := hl.visits ha
      obtain ⟨j, hj, hji, hb, _⟩ := hsafe.seen
      exact ⟨hsafe.live hs, j, hj, hji, hb⟩
  · have hstep : ∃ c, readStep key out (e.state i).map (e.state i).cursor = some c := by
      rcases hcases with hc | ⟨r, hl⟩
      · obtain ⟨c, hc, -⟩ := looping_of_locked out hs (past_upTo e.state hi) hc
        exact ⟨c, hc⟩
      · obtain ⟨-, c, hc, -⟩ := hl.read hs hin
        exact ⟨c, hc⟩
    obtain ⟨c, hc⟩ := hstep
    exact ⟨_, by rw [act, hc]; rfl⟩
  · have hl := looping_count e h₁ hc hread h₁i hN
    rw [Nat.sub_eq_zero_of_le hcount] at hl
    exact hl.returned
  · rcases hcases with hc | ⟨r, hl⟩
    · simp [hc] at hret
    · unfold Looping at hl
      simp only [hret] at hl
      rcases hl with ⟨rfl, a, j, hj, hji, ha, hk, hv⟩ | ⟨rfl, rfl, hb⟩
      · have hbinds : Binds (e.state j).map key value := ⟨a, ha, hk, hv⟩
        exact ⟨fun _ => ⟨rfl, j, hj, hji, hbinds⟩, fun hnot => absurd ⟨value, hbinds⟩ (hnot j hj hji)⟩
      · exact ⟨fun hall => absurd hall hb, fun _ => ⟨rfl, rfl⟩⟩

end Run

/-- The entry that the reader stands on is replaced, and freed once the reader has left. -/
def someActions : ℕ → Action ℕ
  | 0 => .insert (some 1) 1 5
  | 1 => .lock
  | 2 => .read
  | 3 => .insert (some 2) 1 7
  | 4 => .read
  | _ => .callback 1

/-- The states on the way of `someActions`. -/
def someExecution : (sharing (A := ℕ) 1 0).Execution 6 :=
  .along (s := ⟨twoRcuBuckets, ∅, .outside⟩) someActions
    ⟨⟨1, ⟨zeroed, fun _ => 0, []⟩, some 0, by decide, rfl⟩, rfl, rfl⟩ (by decide)

theorem pe_map_get_concurrent_someExecution :
    (∀ a, (someExecution.state 6).cursor.visits = some a →
      a ∈ (someExecution.state 6).map.hlist.live ∧ ∃ j, 1 < j ∧ j ≤ 6 ∧
        InBucket (someExecution.state j).map ((someExecution.state j).map.index 1) a) ∧
    ((someExecution.state 6).cursor.inside = true →
      ∃ t, act 1 0 (someExecution.state 6) .read = some t) ∧
    (∀ t₁, 1 < t₁ → t₁ < 6 → (someExecution.state t₁).cursor = .locked →
      someExecution.label t₁ = .read →
      2 * (someExecution.state t₁).map.hlist.live.card + 1 ≤ someExecution.count .read (t₁ + 1) 6 →
      ∃ ret value, (someExecution.state 6).cursor = .returned ret value) ∧
    ∀ ret value, (someExecution.state 6).cursor = .returned ret value →
      ((∀ j, 1 < j → j ≤ 6 → ∃ v, Binds (someExecution.state j).map 1 v) →
        ret = 0 ∧ ∃ j, 1 < j ∧ j ≤ 6 ∧ Binds (someExecution.state j).map 1 value) ∧
      ((∀ j, 1 < j → j ≤ 6 → ¬ ∃ v, Binds (someExecution.state j).map 1 v) →
        ret = -1 ∧ value = 0) :=
  pe_map_get_concurrent someExecution rfl (by decide) le_rfl

end RcuHashmap

end CppProgramming.HashMap
