import CppProgramming.HashMap.Rcu
import Mathlib.Data.List.Range

/-!
# Destroying the RCU map

`pe_map_flush` and `pe_map_destroy` of `proc_entry_hashmap2.c`.  The flush first
moves the list of every bucket to a copy of its head, which leaves the first
entry with a back pointer to the bucket; it waits for all readers and all
callbacks; and then deletes the entries from the copies, one by one.  Each
deletion writes through the back pointer, so it is the bucket that points to the
rest of the list while the list is freed, and the last deletion leaves it `NULL`
again.

`Flushing m rest` is what holds meanwhile: `rest i` is what is still to be freed
of bucket `i`.  An operation on an object that is not allocated fails, so a run of
the flush that succeeds has freed no entry twice, and the list of what it freed
shows that none was missed (`peMapDestroy_spec`, `memory_accounting`).
-/

namespace CppProgramming.HashMap

open CppProgramming.Lib PeHashmap

namespace RcuHashmap

variable {A : Type} [DecidableEq A]

/-! ### The code -/

/-- The first loop of `pe_map_flush` over the first `n` buckets. -/
def copyHeads : ℕ → RcuHashmap A → RcuHashmap A
  | 0, m => m
  | n + 1, m =>
    let m := copyHeads n m
    let hlist := m.hlist.put (.head (.heads n)) (m.hlist.first (.bucket n))
    { m with hlist := hlist.initHead (.bucket n), num := Function.update m.num n 0 }

/-- The callbacks of `as` run, one after the other. -/
def runCallbacks : List A → RcuHashmap A → Option (RcuHashmap A)
  | [], m => some m
  | a :: as, m => do
    let m ← m.peEntryFreeRcu a
    runCallbacks as m

/-- `synchronize_rcu(); rcu_barrier();` with the entries that it freed. -/
def rcuBarrier (m : RcuHashmap A) : Option (List A × RcuHashmap A) :=
  (m.runCallbacks m.rcu).map fun m' => (m.rcu, m')

/-- The inner loop of `pe_map_flush` from `entry` on, with the entries it freed. -/
def flushList : ℕ → Option A → RcuHashmap A → Option (List A × RcuHashmap A)
  | _, none, m => some ([], m)
  | 0, some _, _ => none
  | fuel + 1, some entry, m => do
    let node ← m.hlist.load (.next entry)
    let hlist ← m.hlist.del entry
    let base ← { m.toPeHashmap with hlist := hlist }.kmemCacheFree m.cache entry
    let (freed, m) ← flushList fuel node { m with toPeHashmap := base }
    some (entry :: freed, m)

/-- The last loop of `pe_map_flush` over the first `n` copies. -/
def flushLists : ℕ → RcuHashmap A → Option (List A × RcuHashmap A)
  | 0, m => some ([], m)
  | n + 1, m => do
    let (freed, m) ← flushLists n m
    let (freed', m) ← flushList m.hlist.live.card (m.hlist.first (.heads n)) m
    some (freed ++ freed', m)

/-- `pe_map_flush`; `heads` tells whether its `vmalloc` succeeded, which it does not
check. -/
def peMapFlush (heads : Bool) (m : RcuHashmap A) : Option (List A × RcuHashmap A) :=
  if heads then do
    let m := copyHeads m.bucketsNum.toNat m
    let (pending, m) ← m.rcuBarrier
    let (freed, m) ← flushLists m.bucketsNum.toNat m
    some (pending ++ freed, m)
  else none

/-- `kmem_cache_destroy`: the cache must have no objects. -/
def kmemCacheDestroy (m : RcuHashmap A) : Option Unit :=
  if m.hlist.live = ∅ ∧ m.rcu = [] then some () else none

/-- `pe_map_destroy`, with the entries it freed and the state it leaves behind. -/
def peMapDestroy (heads : Bool) (m : RcuHashmap A) : Option (List A × RcuHashmap A) := do
  let (freed, m) ← m.peMapFlush heads
  m.kmemCacheDestroy
  some (freed, m)

/-! ### While the map is flushed -/

/-- `as` hangs on the bucket `i`: its first entry has the bucket for its slot, whatever
the bucket points to; an empty list leaves the bucket `NULL`. -/
def Hangs (m : Hlist Head A) (i : ℕ) : List A → Prop
  | [] => m.first (.bucket i) = none
  | a :: as => m.pprev a = some (.head (.bucket i)) ∧ a ∈ m.live ∧ m.Links (.next a) as

omit [DecidableEq A] in
theorem Hangs.of_links {m : Hlist Head A} {i : ℕ} {as : List A}
    (h : m.Links (.head (.bucket i)) as) : Hangs m i as := by
  cases as with
  | nil => exact h
  | cons a as => exact h.2

omit [DecidableEq A] in
theorem Hangs.frame {m m' : Hlist Head A} {i : ℕ} {as : List A} (h : Hangs m i as)
    (hfirst : as = [] → m'.first (.bucket i) = m.first (.bucket i))
    (hmem : ∀ x ∈ as, m'.next x = m.next x ∧ m'.pprev x = m.pprev x ∧ x ∈ m'.live) :
    Hangs m' i as := by
  cases as with
  | nil => exact (hfirst rfl).trans h
  | cons a as =>
    obtain ⟨hp, _, hrest⟩ := h
    obtain ⟨ha, hmem⟩ := List.forall_mem_cons.mp hmem
    exact ⟨ha.2.1.trans hp, ha.2.2, hrest.frame ha.1 hmem⟩

/-- **What holds during a flush**: `rest i` is still to be freed of bucket `i`, and
nothing else is allocated but what `call_rcu` holds. -/
structure Flushing (m : RcuHashmap A) (rest : ℕ → List A) : Prop where
  hangs : ∀ i < m.bucketsNum.toNat, Hangs m.hlist i (rest i)
  nodup : ∀ i < m.bucketsNum.toNat, (rest i).Nodup
  disjoint : ∀ i < m.bucketsNum.toNat, ∀ j < m.bucketsNum.toNat, i ≠ j →
    ∀ a ∈ rest i, a ∉ rest j
  live : ∀ a, a ∈ m.hlist.live ↔ m.Linked rest a ∨ a ∈ m.rcu
  rcu : m.rcu.Nodup
  apart : ∀ a ∈ m.rcu, ¬ m.Linked rest a
  cache : ∀ a ∈ m.hlist.live, m.entryCache a = m.cache

variable {m : RcuHashmap A} {chain rest : ℕ → List A} {σ : Table} {a : A}

theorem copyHeads_spec (n : ℕ) (m : RcuHashmap A) :
    (∀ i, (copyHeads n m).hlist.first (.bucket i) =
        if i < n then none else m.hlist.first (.bucket i)) ∧
      (∀ i < n, (copyHeads n m).hlist.first (.heads i) = m.hlist.first (.bucket i)) ∧
      (copyHeads n m).hlist.next = m.hlist.next ∧ (copyHeads n m).hlist.pprev = m.hlist.pprev ∧
      (copyHeads n m).hlist.live = m.hlist.live ∧ (copyHeads n m).rcu = m.rcu ∧
      (copyHeads n m).entryCache = m.entryCache ∧ (copyHeads n m).cache = m.cache ∧
      (copyHeads n m).bucketsNum = m.bucketsNum := by
  induction n with
  | zero => exact ⟨fun i => by simp [copyHeads], fun i hi => absurd hi (Nat.not_lt_zero i),
      rfl, rfl, rfl, rfl, rfl, rfl, rfl⟩
  | succ n ih =>
    obtain ⟨hbucket, hheads, hnext, hpprev, hlive, hrcu, hcacheOf, hcache, hnum⟩ := ih
    refine ⟨fun i => ?_, fun i hi => ?_, hnext, hpprev, hlive, hrcu, hcacheOf, hcache, hnum⟩
    · have hfirst : (copyHeads (n + 1) m).hlist.first (.bucket i) =
          if i = n then none else (copyHeads n m).hlist.first (.bucket i) := by
        simp [copyHeads, Hlist.initHead, Hlist.put, Function.update_apply]
      rw [hfirst, hbucket]
      split_ifs <;> first | rfl | omega
    · have hfirst : (copyHeads (n + 1) m).hlist.first (.heads i) =
          if i = n then (copyHeads n m).hlist.first (.bucket n)
            else (copyHeads n m).hlist.first (.heads i) := by
        simp [copyHeads, Hlist.initHead, Hlist.put, Function.update_apply]
      rw [hfirst]
      split
      · rename_i hin
        rw [hbucket, if_neg (lt_irrefl n), hin]
      · exact hheads i (by omega)

theorem flushing_copyHeads (h : Holds m chain σ) :
    Flushing (copyHeads m.bucketsNum.toNat m) chain ∧
      ∀ i < m.bucketsNum.toNat,
        (copyHeads m.bucketsNum.toNat m).hlist.first (.heads i) = (chain i).head? := by
  obtain ⟨hbucket, hheads, hnext, hpprev, hlive, hrcu, hcacheOf, hcache, hnum⟩ :=
    copyHeads_spec m.bucketsNum.toNat m
  generalize copyHeads m.bucketsNum.toNat m = t at *
  have hlinked : ∀ x, t.Linked chain x ↔ m.Linked chain x := by
    intro x
    rw [Linked, hnum]
    exact Iff.rfl
  refine ⟨⟨fun i hi => ?_, fun i hi => ?_, fun i hi j hj hij a hai haj => ?_, fun a => ?_, ?_, ?_,
    fun a ha => ?_⟩, fun i hi => ?_⟩
  · rw [hnum] at hi
    refine (Hangs.of_links (h.rep.links i hi)).frame (fun hnil => ?_) fun x hx => ?_
    · have hfirst := h.rep.links i hi
      rw [hnil] at hfirst
      rw [hbucket, if_pos hi]
      exact hfirst.symm
    · rw [hnext, hpprev, hlive]
      exact ⟨rfl, rfl, (h.rep.links i hi).live x hx⟩
  · rw [hnum] at hi
    exact (h.rep.links i hi).nodup
  · rw [hnum] at hi hj
    exact hij (by simpa using (h.rep.links i hi).head_eq (h.rep.links j hj) hai haj)
  · rw [hlive, hlinked, hrcu]
    exact h.live a
  · rw [hrcu]
    exact h.nodup
  · intro a ha
    rw [hlinked]
    exact h.apart a (hrcu ▸ ha)
  · rw [hcacheOf, hcache]
    exact h.cache a (hlive ▸ ha)
  · rw [hheads i hi]
    have hfirst := h.rep.links i hi
    cases hc : chain i with
    | nil =>
      rw [hc] at hfirst
      exact hfirst
    | cons a as =>
      rw [hc] at hfirst
      exact hfirst.1

omit [DecidableEq A] in
theorem Flushing.linked_live (h : Flushing m rest) (ha : m.Linked rest a) : a ∈ m.hlist.live :=
  (h.live a).mpr (Or.inl ha)

theorem Flushing.peEntryFreeRcu (h : Flushing m rest) (ha : a ∈ m.rcu) :
    ∃ m', m.peEntryFreeRcu a = some m' ∧ Flushing m' rest ∧ m'.rcu = m.rcu.erase a ∧
      m'.hlist.first = m.hlist.first ∧ m'.bucketsNum = m.bucketsNum := by
  have hlive : a ∈ m.hlist.live := (h.live a).mpr (Or.inr ha)
  have hnot := h.apart a ha
  refine ⟨{ m with toPeHashmap := m.toPeHashmap.freed a, rcu := m.rcu.erase a }, ?_,
    ⟨fun i hi => ?_, h.nodup, h.disjoint, mem_erase_owned h.live h.rcu hnot, h.rcu.erase a,
      fun x hx => ?_, fun x hx => ?_⟩, rfl, rfl, rfl⟩
  · rw [RcuHashmap.peEntryFreeRcu, kmemCacheFree_eq (h.cache a hlive) hlive, Option.map_some]
  · refine (h.hangs i hi).frame (fun _ => rfl) fun x hx => ⟨rfl, rfl, Finset.mem_erase.mpr ⟨?_, ?_⟩⟩
    · rintro rfl
      exact hnot ⟨i, hi, hx⟩
    · exact h.linked_live ⟨i, hi, hx⟩
  · exact h.apart x (List.mem_of_mem_erase hx)
  · exact h.cache x (Finset.mem_of_mem_erase hx)

/-- **The barrier** frees what `call_rcu` holds. -/
theorem Flushing.runCallbacks (as : List A) : ∀ {m : RcuHashmap A}, Flushing m rest → m.rcu = as →
    ∃ m', m.runCallbacks as = some m' ∧ Flushing m' rest ∧ m'.rcu = [] ∧
      m'.hlist.first = m.hlist.first ∧ m'.bucketsNum = m.bucketsNum := by
  induction as with
  | nil => exact fun {m} h hrcu => ⟨m, rfl, h, hrcu, rfl, rfl⟩
  | cons a as ih =>
    intro m h hrcu
    obtain ⟨m₁, hfree, h₁, hrcu₁, hfirst₁, hnum₁⟩ := h.peEntryFreeRcu (a := a) (by simp [hrcu])
    obtain ⟨m₂, hrun, h₂, hrcu₂, hfirst₂, hnum₂⟩ := ih h₁ (by simp [hrcu₁, hrcu])
    refine ⟨m₂, ?_, h₂, hrcu₂, hfirst₂.trans hfirst₁, hnum₂.trans hnum₁⟩
    simp only [RcuHashmap.runCallbacks, hfree, Option.bind_eq_bind, Option.bind_some, hrun]

/-- **Deleting and freeing the first entry** that hangs on a bucket.  The bucket is left
with the rest of the list. -/
theorem Flushing.freeFirst (h : Flushing m rest) {i : ℕ} (hi : i < m.bucketsNum.toNat)
    {as : List A} (has : rest i = a :: as) :
    m.hlist.del a = some (m.hlist.deleted a (.head (.bucket i))) ∧
      Flushing
        { m with
          toPeHashmap :=
            freed a { m.toPeHashmap with hlist := m.hlist.deleted a (.head (.bucket i)) } }
        (Function.update rest i as) := by
  obtain ⟨hp, halive, hrest⟩ := show Hangs m.hlist i (a :: as) from has ▸ h.hangs i hi
  obtain ⟨hnot, hnodup⟩ := List.nodup_cons.mp (has ▸ h.nodup i hi)
  have hmem : ∀ x, m.hlist.next a = some x → x ∈ as := fun x hx => hrest.mem_of_slot hx
  have hlinks := hrest.deleted (l := .head (.bucket i)) (fun _ _ => by simp) hnot
  have hlinked : ∀ x, m.Linked (Function.update rest i as) x ↔ x ≠ a ∧ m.Linked rest x := by
    intro x
    rw [linked_update hi, linked_iff hi, has, List.mem_cons]
    have hother : ∀ j < m.bucketsNum.toNat, j ≠ i → a ∉ rest j := fun j hj hji =>
      h.disjoint i hi j hj (Ne.symm hji) a (by simp [has])
    constructor
    · rintro (hx | ⟨j, hj, hji, hx⟩)
      · exact ⟨fun hxa => hnot (hxa ▸ hx), Or.inl (Or.inr hx)⟩
      · exact ⟨fun hxa => hother j hj hji (hxa ▸ hx), Or.inr ⟨j, hj, hji, hx⟩⟩
    · rintro ⟨hxa, (hx | hx) | hx⟩
      · exact absurd hx hxa
      · exact Or.inl hx
      · exact Or.inr hx
  refine ⟨Hlist.del_eq halive hp trivial fun x hx => hrest.live x (hmem x hx), ?_⟩
  refine ⟨fun j hj => ?_, fun j hj => ?_, fun j hj l hl hjl x hxj hxl => ?_, fun x => ?_, h.rcu,
    fun x hx hl => ?_, fun x hx => h.cache x ?_⟩
  · rcases eq_or_ne j i with rfl | hji
    · rw [Function.update_self]
      refine (Hangs.of_links hlinks).frame (fun _ => rfl) fun x hx => ⟨rfl, rfl, ?_⟩
      refine Finset.mem_erase.mpr ⟨fun hxa => hnot (hxa ▸ hx), ?_⟩
      simpa using hrest.live x hx
    · rw [Function.update_of_ne hji]
      refine (h.hangs j hj).frame (fun _ => ?_) fun x hx => ?_
      · simp [freed, hji]
      · have hdis := h.disjoint j hj i hi hji x hx
        rw [has] at hdis
        obtain ⟨hxa, hxas⟩ := not_or.mp (List.mem_cons.not.mp hdis)
        have hnx : m.hlist.next a ≠ some x := fun hn => hxas (hmem x hn)
        refine ⟨by simp [freed], by simp [freed, hxa, hnx], Finset.mem_erase.mpr ⟨hxa, ?_⟩⟩
        simpa using h.linked_live ⟨j, hj, hx⟩
  · rcases eq_or_ne j i with rfl | hji
    · rw [Function.update_self]
      exact hnodup
    · rw [Function.update_of_ne hji]
      exact h.nodup j hj
  · have hsub : ∀ j, x ∈ Function.update rest i as j → x ∈ rest j := by
      intro j hx
      rcases eq_or_ne j i with rfl | hji
      · rw [Function.update_self] at hx
        exact has ▸ List.mem_cons_of_mem a hx
      · rwa [Function.update_of_ne hji] at hx
    exact h.disjoint j hj l hl hjl x (hsub j hxj) (hsub l hxl)
  · refine Finset.mem_erase.trans (Iff.trans ?_ (or_congr_left (hlinked x)).symm)
    rw [Hlist.live_deleted, h.live]
    constructor
    · rintro ⟨hxa, hx | hx⟩
      · exact Or.inl ⟨hxa, hx⟩
      · exact Or.inr hx
    · rintro (⟨hxa, hx⟩ | hx)
      · exact ⟨hxa, Or.inl hx⟩
      · refine ⟨?_, Or.inr hx⟩
        rintro rfl
        exact h.apart x hx ⟨i, hi, by simp [has]⟩
  · exact h.apart x hx ((hlinked x).mp hl).2
  · have hx := Finset.mem_of_mem_erase hx
    rwa [Hlist.live_deleted] at hx

/-- **The inner loop** frees a list and leaves its bucket `NULL`. -/
theorem Flushing.flushList (as : List A) : ∀ {m : RcuHashmap A} {rest : ℕ → List A} {i fuel : ℕ},
    Flushing m rest → i < m.bucketsNum.toNat → rest i = as → as.length ≤ fuel →
      ∃ m', flushList fuel as.head? m = some (as, m') ∧
        Flushing m' (Function.update rest i []) ∧ m'.rcu = m.rcu ∧
        (∀ j, m'.hlist.first (.heads j) = m.hlist.first (.heads j)) ∧
        m'.bucketsNum = m.bucketsNum := by
  induction as with
  | nil =>
    intro m rest i fuel h hi has _
    refine ⟨m, ?_, ?_, rfl, fun _ => rfl, rfl⟩
    · cases fuel <;> rfl
    · rwa [← has, Function.update_eq_self]
  | cons a as ih =>
    intro m rest i fuel h hi has hfuel
    obtain ⟨fuel, rfl⟩ : ∃ f, fuel = f + 1 := Nat.exists_eq_add_one.mpr (by simp at hfuel; omega)
    obtain ⟨hdel, hstep⟩ := h.freeFirst hi has
    obtain ⟨hp, halive, hrest⟩ := show Hangs m.hlist i (a :: as) from has ▸ h.hangs i hi
    have hnext : m.hlist.next a = as.head? := by
      cases as with
      | nil => exact hrest
      | cons b as => exact hrest.1
    obtain ⟨m', hflush, h', hrcu, hheads, hnum⟩ := ih hstep hi (Function.update_self ..)
      (by simpa using hfuel)
    refine ⟨m', ?_, ?_, hrcu, fun j => (hheads j).trans ?_, hnum⟩
    · have hload : m.hlist.load (.next a) = some as.head? :=
        (if_pos halive).trans (by rw [← hnext]; rfl)
      have hfree : kmemCacheFree m.cache a
          { m.toPeHashmap with hlist := m.hlist.deleted a (.head (.bucket i)) } = some _ :=
        kmemCacheFree_eq rfl (by simpa using halive)
      simp only [List.head?_cons, RcuHashmap.flushList, hload, hdel, hfree, Option.bind_eq_bind,
        Option.bind_some]
      rw [hflush, Option.bind_some]
    · rwa [Function.update_idem] at h'
    · simp [freed]

theorem Flushing.length_le (h : Flushing m rest) {i : ℕ} (hi : i < m.bucketsNum.toNat) :
    (rest i).length ≤ m.hlist.live.card := by
  rw [← List.toFinset_card_of_nodup (h.nodup i hi)]
  exact Finset.card_le_card fun a ha => h.linked_live ⟨i, hi, List.mem_toFinset.mp ha⟩

theorem Flushing.flushLists (h : Flushing m rest)
    (hheads : ∀ i < m.bucketsNum.toNat, m.hlist.first (.heads i) = (rest i).head?) (n : ℕ) :
    n ≤ m.bucketsNum.toNat →
    ∃ m', flushLists n m = some ((List.range n).flatMap rest, m') ∧
      Flushing m' (fun i => if i < n then [] else rest i) ∧ m'.rcu = m.rcu ∧
      (∀ j, m'.hlist.first (.heads j) = m.hlist.first (.heads j)) ∧
      m'.bucketsNum = m.bucketsNum := by
  induction n with
  | zero => exact fun _ => ⟨m, rfl, by simpa using h, rfl, fun _ => rfl, rfl⟩
  | succ n ih =>
    intro hn
    obtain ⟨m₁, hflush₁, h₁, hrcu₁, hheads₁, hnum₁⟩ := ih (by omega)
    have hi : n < m₁.bucketsNum.toNat := by rw [hnum₁]; omega
    have hlen := h₁.length_le hi
    obtain ⟨m₂, hflush₂, h₂, hrcu₂, hheads₂, hnum₂⟩ := h₁.flushList (rest n) hi (by simp)
      (by simpa using hlen)
    refine ⟨m₂, ?_, ?_, hrcu₂.trans hrcu₁, fun j => (hheads₂ j).trans (hheads₁ j),
      hnum₂.trans hnum₁⟩
    · have hfirst : m₁.hlist.first (.heads n) = (rest n).head? :=
        (hheads₁ n).trans (hheads n (by omega))
      simp only [RcuHashmap.flushLists, hflush₁, hfirst, hflush₂, Option.bind_eq_bind,
        Option.bind_some]
      simp [List.range_succ]
    · have hfun : Function.update (fun i => if i < n then [] else rest i) n [] =
          fun i => if i < n + 1 then [] else rest i := by
        funext i
        rw [Function.update_apply]
        split_ifs <;> first | rfl | omega
      rwa [hfun] at h₂

/-- **Destroying a map** succeeds when no call is in flight: it frees each object of the
cache once and leaves every bucket `NULL`. -/
theorem peMapDestroy_spec (h : Holds m chain σ) :
    ∃ freed m', m.peMapDestroy true = some (freed, m') ∧ freed.Nodup ∧
      (∀ a, a ∈ freed ↔ a ∈ m.hlist.live) ∧ m'.bucketsNum = m.bucketsNum ∧
      (∀ i < m'.bucketsNum.toNat, m'.hlist.first (.bucket i) = none) ∧
      m'.hlist.live = ∅ ∧ m'.rcu = [] := by
  obtain ⟨h₁, hheads₁⟩ := flushing_copyHeads h
  obtain ⟨-, -, -, -, -, hrcu₁, -, -, hnum₁⟩ := copyHeads_spec m.bucketsNum.toNat m
  generalize hm₁ : copyHeads m.bucketsNum.toNat m = m₁ at *
  obtain ⟨m₂, hrun, h₂, hrcu₂, hfirst₂, hnum₂⟩ := h₁.runCallbacks m₁.rcu rfl
  have hnum : m₂.bucketsNum = m.bucketsNum := hnum₂.trans hnum₁
  obtain ⟨m₃, hflush, h₃, hrcu₃, -, hnum₃⟩ := h₂.flushLists
    (fun i hi => by rw [hfirst₂]; exact hheads₁ i (by rwa [← hnum]))
    m₂.bucketsNum.toNat le_rfl
  have hempty : ∀ i < m₃.bucketsNum.toNat,
      (if i < m₂.bucketsNum.toNat then [] else chain i) = [] := by
    intro i hi
    rw [hnum₃] at hi
    exact if_pos hi
  have hlive : m₃.hlist.live = ∅ := by
    refine Finset.eq_empty_of_forall_notMem fun a ha => ?_
    rcases (h₃.live a).mp ha with ⟨i, hi, ha⟩ | ha
    · dsimp only at ha
      simp [hempty i hi] at ha
    · simp [hrcu₃, hrcu₂] at ha
  refine ⟨m.rcu ++ (List.range m.bucketsNum.toNat).flatMap chain, m₃, ?_, ?_, fun a => ?_,
    hnum₃.trans hnum, fun i hi => ?_, hlive, hrcu₃.trans hrcu₂⟩
  · have hbarrier : m₁.rcuBarrier = some (m.rcu, m₂) := by
      rw [rcuBarrier, hrun, Option.map_some, hrcu₁]
    rw [hnum] at hflush
    simp only [peMapDestroy, peMapFlush, if_true, hm₁, hbarrier, hflush, hnum, Option.bind_eq_bind,
      Option.bind_some]
    rw [kmemCacheDestroy, if_pos ⟨hlive, hrcu₃.trans hrcu₂⟩, Option.bind_some]
  · refine List.nodup_append.mpr ⟨h.nodup, ?_, fun x hx y hy hxy => ?_⟩
    · refine List.nodup_flatMap.mpr ⟨fun i hi => ?_, ?_⟩
      · exact (h.rep.links i (List.mem_range.mp hi)).nodup
      · refine List.Pairwise.imp_of_mem ?_ List.nodup_range
        intro i j hi hj hij x hxi hxj
        rw [List.mem_range] at hi hj
        exact hij (by simpa using (h.rep.links i hi).head_eq (h.rep.links j hj) hxi hxj)
    · obtain ⟨i, hi, hyi⟩ := List.mem_flatMap.mp hy
      exact h.apart x hx ⟨i, List.mem_range.mp hi, hxy ▸ hyi⟩
  · rw [List.mem_append, List.mem_flatMap, h.live, or_comm]
    refine or_congr_left ?_
    simp [Linked]
  · have hhangs := h₃.hangs i hi
    rw [hempty i hi] at hhangs
    exact hhangs

/-- **Memory accounting.**  After any sequence of calls and callbacks on a new map, with
any outcome of each allocation, the objects of the cache are the linked entries, which
`bucket->num` counts, and the entries that wait for their callback; and destroying the map
then frees each of them once, leaves every bucket `NULL` and hands `kmem_cache_destroy` a
cache with no object. -/
theorem memory_accounting {bits : ℕ} (hbits : bits < 32) (al : Allocator A) {mem m₀ : RcuHashmap A}
    {cache : Option ℕ} (hm₀ : create bits mem true true cache = some m₀) (es : List Event) :
    ∃ (results : List Result) (m : RcuHashmap A) (chain : ℕ → List A),
      run al 0 es m₀ = some (results, m) ∧
      (∀ i < m.bucketsNum.toNat, m.hlist.Links (.head (.bucket i)) (chain i) ∧
        m.num i = (chain i).length) ∧
      (∀ a, a ∈ m.hlist.live ↔ (∃ i < m.bucketsNum.toNat, a ∈ chain i) ∨ a ∈ m.rcu) ∧
      m.rcu.Nodup ∧ (∀ a ∈ m.rcu, ∀ i < m.bucketsNum.toNat, a ∉ chain i) ∧
      ∃ freed m', m.peMapDestroy true = some (freed, m') ∧ freed.Nodup ∧
        (∀ a, a ∈ freed ↔ a ∈ m.hlist.live) ∧ m'.bucketsNum = m.bucketsNum ∧
        (∀ i < m'.bucketsNum.toNat, m'.hlist.first (.bucket i) = none) ∧
        m'.hlist.live = ∅ ∧ m'.rcu = [] := by
  obtain ⟨m, chain, σ, hrun, h⟩ := run_spec al es 0 (holds_create hbits hm₀)
  refine ⟨_, m, chain, hrun, fun i hi => ⟨h.rep.links i hi, h.rep.num i hi⟩, h.live, h.nodup,
    fun a ha i hi hai => h.apart a ha ⟨i, hi, hai⟩, peMapDestroy_spec h⟩

/-- An entry is replaced, its callback runs, and another is removed. -/
def someEvents : List Event :=
  [.request ⟨.insert 1 5, true⟩, .request ⟨.insert 3 6, true⟩, .request ⟨.insert 1 7, true⟩,
    .callback 0, .request ⟨.insert 2 8, false⟩, .request ⟨.remove 3, true⟩]

theorem memory_accounting_someEvents :
    ∃ (results : List Result) (m : RcuHashmap ℕ) (chain : ℕ → List ℕ),
      run counting 0 someEvents twoRcuBuckets = some (results, m) ∧
      (∀ i < m.bucketsNum.toNat, m.hlist.Links (.head (.bucket i)) (chain i) ∧
        m.num i = (chain i).length) ∧
      (∀ a, a ∈ m.hlist.live ↔ (∃ i < m.bucketsNum.toNat, a ∈ chain i) ∨ a ∈ m.rcu) ∧
      m.rcu.Nodup ∧ (∀ a ∈ m.rcu, ∀ i < m.bucketsNum.toNat, a ∉ chain i) ∧
      ∃ freed m', m.peMapDestroy true = some (freed, m') ∧ freed.Nodup ∧
        (∀ a, a ∈ freed ↔ a ∈ m.hlist.live) ∧ m'.bucketsNum = m.bucketsNum ∧
        (∀ i < m'.bucketsNum.toNat, m'.hlist.first (.bucket i) = none) ∧
        m'.hlist.live = ∅ ∧ m'.rcu = [] :=
  memory_accounting (by decide) counting (Option.some_get _).symm someEvents

end RcuHashmap

end CppProgramming.HashMap
