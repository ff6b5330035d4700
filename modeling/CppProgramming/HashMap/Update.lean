import CppProgramming.HashMap.Rcu
import CppProgramming.Lib.HlistReader

/-!
# What an update looks like to a reader

`InBucket m i a` and `Binds m k v` say what is in the map without the chains of
its representation.

`Update i m m'` is what a reader of the bucket `i` can rely on when one critical
section takes `m` to `m'`: entries keep their key and value, an entry that leaves
the bucket is handed to `call_rcu`, and from wherever the reader stands its way
to the end of the list gets no longer, leads to entries it led to before or to
entries that are in the bucket now, and still comes by the entry of a key that
is bound.  `update_insert` and `update_remove` show it for the two writers, and
`freed_path` that a callback changes no way at all.
-/

namespace CppProgramming.HashMap

open CppProgramming.Lib PeHashmap

namespace RcuHashmap

variable {A : Type} [DecidableEq A]

/-- The entry `a` is linked in the bucket `i`. -/
def InBucket (m : RcuHashmap A) (i : ℕ) (a : A) : Prop :=
  ∃ as, m.hlist.Links (.head (.bucket i)) as ∧ a ∈ as

/-- The key `k` is bound to `v`. -/
def Binds (m : RcuHashmap A) (k v : BitVec 64) : Prop :=
  ∃ a, InBucket m (m.index k) a ∧ m.key a = k ∧ m.value a = v

/-- **One critical section**, for a reader of the bucket `i`. -/
structure Update (i : ℕ) (m m' : RcuHashmap A) : Prop where
  holds : ∃ chain σ, Holds m' chain σ
  index : m'.index = m.index
  num : m'.bucketsNum = m.bucketsNum
  rcu : ∀ a ∈ m.rcu, a ∈ m'.rcu
  same : ∀ a ∈ m.hlist.live, m'.key a = m.key a ∧ m'.value a = m.value a
  leaves : ∀ a, InBucket m i a → InBucket m' i a ∨ a ∈ m'.rcu
  path : ∀ p as, m.hlist.Path p as → (∀ a ∈ as, InBucket m i a ∨ a ∈ m.rcu) →
    ∃ bs, m'.hlist.Path p bs ∧ bs.length ≤ as.length ∧
      (∀ a ∈ bs, a ∈ as ∨ InBucket m' i a) ∧
      ∀ k v, Binds m' k v → (∃ a ∈ as, m.key a = k) → ∃ a ∈ bs, m'.key a = k

variable {m m' : RcuHashmap A} {chain : ℕ → List A} {σ : Table} {k v : BitVec 64} {a n : A} {i : ℕ}

section

omit [DecidableEq A]

theorem Holds.inBucket_iff (h : Holds m chain σ) (hi : i < m.bucketsNum.toNat) :
    InBucket m i a ↔ a ∈ chain i := by
  constructor
  · rintro ⟨as, has, ha⟩
    rwa [← has.unique (h.rep.links i hi)]
  · intro ha
    exact ⟨chain i, h.rep.links i hi, ha⟩

theorem Holds.binds_iff (h : Holds m chain σ) : Binds m k v ↔ σ k = some v := by
  rw [h.rep.binds]
  exact exists_congr fun a => and_congr_left fun _ => h.inBucket_iff (h.rep.index_lt k)

theorem Holds.linked (h : Holds m chain σ) (hi : i < m.bucketsNum.toNat) (ha : InBucket m i a) :
    m.Linked chain a := ⟨i, hi, (h.inBucket_iff hi).mp ha⟩

/-- What a reader may stand on is allocated. -/
theorem Holds.live_of (h : Holds m chain σ) (hi : i < m.bucketsNum.toNat)
    (ha : InBucket m i a ∨ a ∈ m.rcu) : a ∈ m.hlist.live :=
  (h.live a).mpr (ha.imp_left (h.linked hi))

theorem Update.refl (h : Holds m chain σ) : Update i m m where
  holds := ⟨chain, σ, h⟩
  index := rfl
  num := rfl
  rcu _ ha := ha
  same _ _ := ⟨rfl, rfl⟩
  leaves _ ha := Or.inl ha
  path _ as hp _ := ⟨as, hp, le_rfl, fun _ ha => Or.inl ha, fun _ _ _ hk => hk⟩

/-- The slot of an entry of a bucket points to it. -/
theorem Holds.slot (h : Holds m chain σ) {pre post : List A}
    (hsplit : chain (m.index k) = pre ++ a :: post) :
    m.hlist.slot (Hlist.endSlot (.head (.bucket (m.index k))) pre) = some a := by
  have hlinks := h.rep.links_index k
  rw [hsplit] at hlinks
  exact hlinks.drop.1

/-- A bucket that is not touched keeps its entries. -/
theorem Holds.inBucket_of_update {chain' : ℕ → List A} {τ : Table} {bs : List A}
    (h : Holds m chain σ) (h' : Holds m' chain' τ) (hnum : m'.bucketsNum = m.bucketsNum)
    (hi : i < m.bucketsNum.toNat) (hchain : chain' = Function.update chain (m.index k) bs)
    (hbs : ∀ x ∈ chain (m.index k), x ∈ bs ∨ x = a) (hx : InBucket m i n) :
    InBucket m' i n ∨ n = a := by
  subst hchain
  rw [h.inBucket_iff hi] at hx
  rw [h'.inBucket_iff (by rwa [hnum])]
  rcases eq_or_ne i (m.index k) with rfl | hne
  · rw [Function.update_self]
    exact hbs n hx
  · rw [Function.update_of_ne hne]
    exact Or.inl hx

end

theorem update_removed (h : Holds m chain σ) (hi : i < m.bucketsNum.toNat) {pre post : List A}
    (hsplit : chain (m.index k) = pre ++ a :: post) (hk : m.key a = k)
    (h' : Holds (m.removed a (Hlist.endSlot (.head (.bucket (m.index k))) pre) k)
      (Function.update chain (m.index k) (pre ++ post)) (Function.update σ k none)) :
    Update i m (m.removed a (Hlist.endSlot (.head (.bucket (m.index k))) pre) k) where
  holds := ⟨_, _, h'⟩
  index := rfl
  num := rfl
  rcu x hx := List.mem_append_left _ hx
  same _ _ := ⟨rfl, rfl⟩
  leaves x hx := by
    have hkeep : ∀ y ∈ chain (m.index k), y ∈ pre ++ post ∨ y = a := by
      intro y hy
      rw [hsplit, List.mem_append, List.mem_cons] at hy
      rw [List.mem_append]
      tauto
    refine (h.inBucket_of_update h' rfl hi rfl hkeep hx).imp_right ?_
    rintro rfl
    exact List.mem_append_right _ (List.mem_singleton_self _)
  path p as hp _ := by
    obtain ⟨bs, hbs, hlen, hsub, hkeep⟩ := Hlist.Path.deleted (h.slot hsplit) as p hp
    refine ⟨bs, hbs, hlen, fun x hx => Or.inl (hsub x hx), fun k' v hb hk' => ?_⟩
    obtain ⟨x, hx, rfl⟩ := hk'
    rcases hkeep x hx with hx | rfl
    · exact ⟨x, hx, rfl⟩
    · rw [h'.binds_iff, hk, Function.update_self] at hb
      exact absurd hb (by simp)

theorem update_inserted (h : Holds m chain σ) (hi : i < m.bucketsNum.toNat) (hn : n ∉ m.hlist.live)
    (h' : Holds (m.inserted n k v) (Function.update chain (m.index k) (n :: chain (m.index k)))
      (Function.update σ k (some v))) :
    Update i m (m.inserted n k v) where
  holds := ⟨_, _, h'⟩
  index := rfl
  num := rfl
  rcu _ hx := hx
  same x hx := by
    have hxn : x ≠ n := fun he => hn (he ▸ hx)
    exact ⟨Function.update_of_ne hxn .., Function.update_of_ne hxn ..⟩
  leaves x hx := by
    refine (h.inBucket_of_update h' rfl hi rfl (a := n) (fun y hy => ?_) hx).imp_right ?_
    · exact Or.inl (List.mem_cons_of_mem n hy)
    · rintro rfl
      exact absurd (h.rep.live (h.linked hi hx)) hn
  path p as hp has := by
    have hne : ∀ x ∈ as, x ≠ n := fun x hx he => hn (he ▸ h.live_of hi (has x hx))
    have hp' : (m.hlist.alloc n).Path p as := hp.congr fun _ _ => rfl
    refine ⟨as, hp'.added fun hmem => hne n hmem rfl, le_rfl, fun x hx => Or.inl hx,
      fun k' v' _ hk' => ?_⟩
    obtain ⟨x, hx, rfl⟩ := hk'
    exact ⟨x, hx, Function.update_of_ne (hne x hx) ..⟩

theorem update_substituted (h : Holds m chain σ) (hi : i < m.bucketsNum.toNat)
    (hn : n ∉ m.hlist.live) {pre post : List A} (hsplit : chain (m.index k) = pre ++ a :: post)
    (hk : m.key a = k)
    (h' : Holds (m.substituted a n (Hlist.endSlot (.head (.bucket (m.index k))) pre) k v)
      (Function.update chain (m.index k) (pre ++ n :: post)) (Function.update σ k (some v))) :
    Update i m (m.substituted a n (Hlist.endSlot (.head (.bucket (m.index k))) pre) k v) where
  holds := ⟨_, _, h'⟩
  index := rfl
  num := rfl
  rcu x hx := List.mem_append_left _ hx
  same x hx := by
    have hxn : x ≠ n := fun he => hn (he ▸ hx)
    exact ⟨Function.update_of_ne hxn .., Function.update_of_ne hxn ..⟩
  leaves x hx := by
    have hkeep : ∀ y ∈ chain (m.index k), y ∈ pre ++ n :: post ∨ y = a := by
      intro y hy
      rw [hsplit, List.mem_append, List.mem_cons] at hy
      rw [List.mem_append, List.mem_cons]
      tauto
    refine (h.inBucket_of_update h' rfl hi rfl hkeep hx).imp_right ?_
    rintro rfl
    exact List.mem_append_right _ (List.mem_singleton_self _)
  path p as hp has := by
    have hne : ∀ x ∈ as, x ≠ n := fun x hx he => hn (he ▸ h.live_of hi (has x hx))
    have hlinks := h.rep.links_index k
    rw [hsplit] at hlinks
    have hpre : n ∉ pre := fun hmem => hn (hlinks.live n (List.mem_append_left _ hmem))
    have hp' : (m.hlist.alloc n).Path p as := hp.congr fun _ _ => rfl
    obtain ⟨bs, hbs, hlen, hsub, hkeep⟩ := Hlist.Path.replaced (m := m.hlist.alloc n)
      ((h.slot hsplit : _)) (hlinks.around.2.1 n hpre) as p hp' fun hmem => hne n hmem rfl
    refine ⟨bs, hbs, hlen, fun x hx => (hsub x hx).imp_right ?_, fun k' v' _ hk' => ?_⟩
    · rintro ⟨rfl, ha⟩
      -- the replaced entry is linked, so it is the reader's bucket that it was in
      have hmem : a ∈ chain (m.index k) := by simp [hsplit]
      have hlinked : m.Linked chain a := ⟨_, h.rep.index_lt k, hmem⟩
      have hai : a ∈ chain i :=
        (h.inBucket_iff hi).mp ((has a ha).resolve_right fun hr => h.apart a hr hlinked)
      obtain rfl : i = m.index k := by
        rw [← h.rep.index i hi a hai, h.rep.index _ (h.rep.index_lt k) a hmem]
      rw [h'.inBucket_iff hi, Function.update_self]
      simp
    · obtain ⟨x, hx, rfl⟩ := hk'
      rcases hkeep x hx with hxb | ⟨rfl, hnb⟩
      · exact ⟨x, hxb, Function.update_of_ne (hne x hx) ..⟩
      · exact ⟨n, hnb, (Function.update_self ..).trans hk.symm⟩

/-- **An insert** is an update. -/
theorem update_insert (h : Holds m chain σ) (hi : i < m.bucketsNum.toNat) {alloc : Option A}
    (halloc : ∀ n, alloc = some n → n ∉ m.hlist.live) {ret : ℤ}
    (heq : peMapInsert alloc k v m = some (ret, m')) : Update i m m' := by
  cases alloc with
  | none =>
    obtain ⟨-, rfl⟩ := Prod.mk.inj (Option.some.inj heq)
    exact .refl h
  | some n =>
    have hn := halloc n rfl
    rcases insert_cases h k v hn with ⟨a, pre, post, hsplit, hk, heq', h'⟩ | ⟨_, heq', h'⟩
    · obtain ⟨-, rfl⟩ := Prod.mk.inj (Option.some.inj (heq.symm.trans heq'))
      exact update_substituted h hi hn hsplit hk h'
    · obtain ⟨-, rfl⟩ := Prod.mk.inj (Option.some.inj (heq.symm.trans heq'))
      exact update_inserted h hi hn h'

/-- **A remove** is an update. -/
theorem update_remove (h : Holds m chain σ) (hi : i < m.bucketsNum.toNat) {ret : ℤ}
    (heq : peMapRemove k m = some (ret, m')) : Update i m m' := by
  rcases remove_cases h k with ⟨a, pre, post, hsplit, hk, _, heq', h'⟩ | ⟨_, _, heq'⟩
  · obtain ⟨-, rfl⟩ := Prod.mk.inj (Option.some.inj (heq.symm.trans heq'))
    exact update_removed h hi hsplit hk h'
  · obtain ⟨-, rfl⟩ := Prod.mk.inj (Option.some.inj (heq.symm.trans heq'))
    exact .refl h

end RcuHashmap

end CppProgramming.HashMap
