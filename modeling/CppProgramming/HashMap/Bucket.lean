import CppProgramming.Lib.Hlist
import Mathlib.Algebra.Group.Nat.Defs
import Mathlib.Data.Finset.Card
import Mathlib.Data.Finset.Dedup

/-!
# Buckets of entries

What `proc_entry_hashmap1.c` and `proc_entry_hashmap2.c` share: the buckets with
their lists of entries, the hash of a key, the walk along a bucket and the
creation of a map.  `A` are the addresses of entries; the `live` nodes of the
lists are the objects that `kmem_cache_alloc` handed out and that were not given
back.

`Rep m chain σ` is the representation invariant of both maps: `chain i` is the
list of bucket `i`, each entry is in the bucket its key hashes to, no key is in a
bucket twice, and the bindings are those of the finite map `σ`.  The lemmas
`Rep.added`, `Rep.replaced`, `Rep.deleted` and `Rep.setValue` are the four ways
in which the two implementations change a bucket.
-/

namespace CppProgramming.HashMap

open CppProgramming.Lib

/-- The list heads: one in each bucket, and the copies that `pe_map_flush` of the
second map takes. -/
inductive Head
  | bucket (i : ℕ)
  | heads (i : ℕ)
deriving DecidableEq

/-- `struct pe_hashmap` with its buckets and entries. -/
structure PeHashmap (A : Type) where
  hlist : Hlist Head A
  key : A → BitVec 64
  value : A → BitVec 64
  num : ℕ → ℤ
  cache : ℕ
  bucketsNum : BitVec 32
  bucketsMask : BitVec 32

def peEntryHash (key : BitVec 64) : BitVec 64 :=
  key ^^^ (key >>> 16) ^^^ (key >>> 32) ^^^ (key >>> 48)

namespace PeHashmap

variable {A : Type} [DecidableEq A]

/-! ### The code -/

/-- The index of the bucket of a key. -/
def index (m : PeHashmap A) (key : BitVec 64) : ℕ :=
  (peEntryHash key &&& m.bucketsMask.setWidth 64).toNat

/-- The loop of `pe_map_create` over the first `n` buckets. -/
def initBuckets : ℕ → PeHashmap A → PeHashmap A
  | 0, m => m
  | n + 1, m =>
    let m := initBuckets n m
    { m with hlist := m.hlist.initHead (.bucket n), num := Function.update m.num n 0 }

/-- `pe_map_create`: `mem` is what the new memory happens to hold, the other
arguments tell which of the allocations succeed.  `1 << buckets_bits` is undefined
from 32 bits on. -/
def create (bits : ℕ) (mem : PeHashmap A) (vmallocMap vmallocBuckets : Bool)
    (kmemCacheCreate : Option ℕ) : Option (PeHashmap A) :=
  let bucketsNum := 1#32 <<< bits
  if vmallocMap then
    if vmallocBuckets then
      let m := initBuckets bucketsNum.toNat
        { mem with bucketsNum := bucketsNum, bucketsMask := bucketsNum - 1 }
      kmemCacheCreate.map fun cache =>
        { m with cache := cache, hlist := { m.hlist with live := ∅ } }
    else none
  else none

/-- `kmem_cache_alloc` answered `a`, and the fields are set. -/
def newEntry (a : A) (key value : BitVec 64) (m : PeHashmap A) : PeHashmap A :=
  { m with
    hlist := m.hlist.alloc a
    key := Function.update m.key a key
    value := Function.update m.value a value }

/-- `entry->value = value;` -/
def setValue (a : A) (value : BitVec 64) (m : PeHashmap A) : PeHashmap A :=
  { m with value := Function.update m.value a value }

/-- `kmem_cache_free`: the object must be one of this cache and not free yet. -/
def kmemCacheFree (cache : ℕ) (a : A) (m : PeHashmap A) : Option (PeHashmap A) :=
  if cache = m.cache then (m.hlist.free a).map fun hlist => { m with hlist := hlist } else none

/-- The walk along a bucket from `entry` on to the first entry with the key.  Each
entry it comes by is dereferenced. -/
def findEntry (key : BitVec 64) (m : PeHashmap A) : ℕ → Option A → Option (Option A)
  | _, none => some none
  | 0, some _ => none
  | fuel + 1, some entry =>
    if entry ∈ m.hlist.live then
      if m.key entry = key then some (some entry)
      else findEntry key m fuel (m.hlist.next entry)
    else none

/-- The walk along the bucket `index`; no bucket has more entries than the cache. -/
def lookup (key : BitVec 64) (index : ℕ) (m : PeHashmap A) : Option (Option A) :=
  if index < m.bucketsNum.toNat then
    findEntry key m m.hlist.live.card (m.hlist.first (.bucket index))
  else none

/-- `hlist_add_head_rcu(&new_entry->hlist, head); bucket->num++;` -/
def addEntry (n : A) (index : ℕ) (m : PeHashmap A) : Option (PeHashmap A) :=
  (m.hlist.addHead n (.bucket index)).map fun hlist =>
    { m with hlist := hlist, num := Function.update m.num index (m.num index + 1) }

/-- `hlist_del_rcu(&entry->hlist); bucket->num--;` -/
def delEntry (a : A) (index : ℕ) (m : PeHashmap A) : Option (PeHashmap A) :=
  (m.hlist.del a).map fun hlist =>
    { m with hlist := hlist, num := Function.update m.num index (m.num index - 1) }

/-- `hlist_replace_rcu(&entry->hlist, &new_entry->hlist);` -/
def replaceEntry (a n : A) (m : PeHashmap A) : Option (PeHashmap A) :=
  (m.hlist.replace a n).map fun hlist => { m with hlist := hlist }

/-! ### The walk along a bucket -/

variable {m : PeHashmap A} {k v : BitVec 64}

theorem findEntry_eq {l : Slot Head A} {as : List A} (h : m.hlist.Links l as) {fuel : ℕ}
    (hfuel : as.length ≤ fuel) :
    findEntry k m fuel (m.hlist.slot l) = some (as.find? (m.key · = k)) := by
  induction as generalizing l fuel with
  | nil =>
    rw [show m.hlist.slot l = none from h]
    cases fuel <;> rfl
  | cons a as ih =>
    obtain ⟨ha, _, hlive, hrest⟩ := h
    obtain ⟨fuel, rfl⟩ : ∃ f, fuel = f + 1 := Nat.exists_eq_add_one.mpr (by simp at hfuel; omega)
    rw [ha, findEntry, if_pos hlive, List.find?_cons]
    by_cases hk : m.key a = k
    · simp [hk]
    · have hlen : as.length ≤ fuel := by simpa using hfuel
      rw [if_neg hk, ← Hlist.slot_next, ih hrest hlen]
      simp [hk]

/-! ### The representation -/

/-- **The representation invariant.**  The buckets hold the lists `chain`, and these
the finite map `σ`. -/
structure Rep (m : PeHashmap A) (chain : ℕ → List A) (σ : BitVec 64 → Option (BitVec 64)) :
    Prop where
  mask : m.bucketsMask.toNat < m.bucketsNum.toNat
  links : ∀ i < m.bucketsNum.toNat, m.hlist.Links (.head (.bucket i)) (chain i)
  index : ∀ i < m.bucketsNum.toNat, ∀ a ∈ chain i, m.index (m.key a) = i
  keys : ∀ i < m.bucketsNum.toNat, ((chain i).map m.key).Nodup
  num : ∀ i < m.bucketsNum.toNat, m.num i = (chain i).length
  binds : ∀ k v, σ k = some v ↔ ∃ a ∈ chain (m.index k), m.key a = k ∧ m.value a = v

variable {chain : ℕ → List A} {σ : BitVec 64 → Option (BitVec 64)}

omit [DecidableEq A] in
theorem Rep.index_lt (h : Rep m chain σ) (k : BitVec 64) : m.index k < m.bucketsNum.toNat := by
  have hle : m.index k ≤ (m.bucketsMask.setWidth 64).toNat := by
    rw [PeHashmap.index, BitVec.toNat_and]
    exact Nat.and_le_right
  have hmask : (m.bucketsMask.setWidth 64).toNat = m.bucketsMask.toNat := by
    rw [BitVec.toNat_setWidth]
    exact Nat.mod_eq_of_lt (by omega)
  have := h.mask
  omega

omit [DecidableEq A] in
theorem Rep.links_index (h : Rep m chain σ) (k : BitVec 64) :
    m.hlist.Links (.head (.bucket (m.index k))) (chain (m.index k)) :=
  h.links _ (h.index_lt k)

/-- **The walk finds the entry of the key**, or that there is none. -/
theorem Rep.lookup (h : Rep m chain σ) (k : BitVec 64) :
    (∃ a pre post, m.lookup k (m.index k) = some (some a) ∧
        chain (m.index k) = pre ++ a :: post ∧ m.key a = k ∧ σ k = some (m.value a)) ∨
      (m.lookup k (m.index k) = some none ∧ (∀ a ∈ chain (m.index k), m.key a ≠ k) ∧
        σ k = none) := by
  have hlinks := h.links_index k
  have hlen : (chain (m.index k)).length ≤ m.hlist.live.card := by
    rw [← List.toFinset_card_of_nodup hlinks.nodup]
    exact Finset.card_le_card fun a ha => hlinks.live a (List.mem_toFinset.mp ha)
  have hfind : m.lookup k (m.index k) = some ((chain (m.index k)).find? (m.key · = k)) := by
    rw [PeHashmap.lookup, if_pos (h.index_lt k)]
    exact findEntry_eq hlinks hlen
  cases hres : (chain (m.index k)).find? (m.key · = k) with
  | none =>
    rw [hres] at hfind
    rw [List.find?_eq_none] at hres
    have hne : ∀ a ∈ chain (m.index k), m.key a ≠ k := fun a ha => by simpa using hres a ha
    refine Or.inr ⟨hfind, hne, Option.eq_none_iff_forall_ne_some.mpr fun v hv => ?_⟩
    obtain ⟨a, ha, hk, _⟩ := (h.binds k v).mp hv
    exact hne a ha hk
  | some a =>
    rw [hres] at hfind
    obtain ⟨hk, pre, post, hsplit, _⟩ := List.find?_eq_some_iff_append.mp hres
    have hk : m.key a = k := by simpa using hk
    refine Or.inl ⟨a, pre, post, hfind, hsplit, hk, (h.binds k _).mpr ⟨a, ?_, hk, rfl⟩⟩
    rw [hsplit]
    simp

/-! ### What changes a bucket -/

variable {a n : A}

/-- The entries of all buckets. -/
def Linked (m : PeHashmap A) (chain : ℕ → List A) (a : A) : Prop :=
  ∃ i < m.bucketsNum.toNat, a ∈ chain i

omit [DecidableEq A] in
theorem Rep.live (h : Rep m chain σ) (ha : m.Linked chain a) : a ∈ m.hlist.live := by
  obtain ⟨i, hi, ha⟩ := ha
  exact (h.links i hi).live a ha

theorem Rep.newEntry (h : Rep m chain σ) (hn : n ∉ m.hlist.live) :
    Rep (m.newEntry n k v) chain σ := by
  have hne : ∀ i < m.bucketsNum.toNat, ∀ x ∈ chain i, x ≠ n := by
    rintro i hi x hx rfl
    exact hn ((h.links i hi).live x hx)
  have hkey : ∀ i < m.bucketsNum.toNat, ∀ x ∈ chain i, (m.newEntry n k v).key x = m.key x :=
    fun i hi x hx => Function.update_of_ne (hne i hi x hx) ..
  have hvalue : ∀ i < m.bucketsNum.toNat, ∀ x ∈ chain i, (m.newEntry n k v).value x = m.value x :=
    fun i hi x hx => Function.update_of_ne (hne i hi x hx) ..
  refine ⟨h.mask, fun i hi => ?_, fun i hi x hx => ?_, fun i hi => ?_, h.num, fun k' v' => ?_⟩
  · refine (h.links i hi).frame rfl fun x hx => ⟨rfl, rfl, ?_⟩
    exact Finset.mem_insert_of_mem ((h.links i hi).live x hx)
  · rw [hkey i hi x hx]
    exact h.index i hi x hx
  · rw [List.map_congr_left fun x hx => hkey i hi x hx]
    exact h.keys i hi
  · rw [h.binds]
    refine exists_congr fun x => and_congr_right fun hx => ?_
    have hi := h.index_lt k'
    rw [hkey _ hi x hx, hvalue _ hi x hx]

/-- The map behind `kmemCacheFree`. -/
def freed (a : A) (m : PeHashmap A) : PeHashmap A :=
  { m with hlist := { m.hlist with live := m.hlist.live.erase a } }

theorem kmemCacheFree_eq {cache : ℕ} (hc : cache = m.cache) (ha : a ∈ m.hlist.live) :
    m.kmemCacheFree cache a = some (m.freed a) := by
  rw [kmemCacheFree, if_pos hc, Hlist.free, if_pos ha]
  rfl

theorem Rep.freed (h : Rep m chain σ) (ha : ¬ m.Linked chain a) : Rep (m.freed a) chain σ := by
  refine ⟨h.mask, fun i hi => ?_, h.index, h.keys, h.num, h.binds⟩
  refine (h.links i hi).frame rfl fun x hx => ⟨rfl, rfl, ?_⟩
  refine Finset.mem_erase.mpr ⟨?_, (h.links i hi).live x hx⟩
  rintro rfl
  exact ha ⟨i, hi, hx⟩

omit [DecidableEq A] in
/-- **The rule for a change of the list of one bucket**, that of the key `k`.  The
entries of other keys stay, and `o` is what the new list binds `k` to. -/
theorem Rep.change {bs : List A} {hlist : Hlist Head A} {num : ℤ} {o : Option (BitVec 64)}
    (h : Rep m chain σ)
    (hc : Hlist.Changes (.bucket (m.index k)) (chain (m.index k)) bs m.hlist hlist)
    (hnew : ∀ x ∈ bs, x ∉ chain (m.index k) → ¬ m.Linked chain x)
    (hindex : ∀ x ∈ bs, m.index (m.key x) = m.index k) (hkeys : (bs.map m.key).Nodup)
    (hnum : num = bs.length) (hothers : ∀ x, m.key x ≠ k → (x ∈ bs ↔ x ∈ chain (m.index k)))
    (hbind : ∀ v, o = some v ↔ ∃ x ∈ bs, m.key x = k ∧ m.value x = v) :
    Rep { m with hlist := hlist, num := Function.update m.num (m.index k) num }
      (Function.update chain (m.index k) bs) (Function.update σ k o) := by
  have hi := h.index_lt k
  have hbinds : ∀ k' v, Function.update σ k o k' = some v ↔
      ∃ x ∈ Function.update chain (m.index k) bs (m.index k'), m.key x = k' ∧ m.value x = v := by
    intro k' v
    rcases eq_or_ne k' k with rfl | hk
    · rw [Function.update_self, Function.update_self]
      exact hbind v
    · rw [Function.update_of_ne hk, h.binds]
      rcases eq_or_ne (m.index k') (m.index k) with he | hne
      · rw [he, Function.update_self]
        constructor
        · rintro ⟨x, hx, hxk, hxv⟩
          exact ⟨x, (hothers x (hxk ▸ hk)).mpr hx, hxk, hxv⟩
        · rintro ⟨x, hx, hxk, hxv⟩
          exact ⟨x, (hothers x (hxk ▸ hk)).mp hx, hxk, hxv⟩
      · rw [Function.update_of_ne hne]
  generalize m.index k = i at *
  refine ⟨h.mask, fun j hj => ?_, fun j hj => ?_, fun j hj => ?_, fun j hj => ?_, hbinds⟩
  all_goals
    dsimp only
    rcases eq_or_ne j i with rfl | hji
  · rw [Function.update_self]
    exact hc.links
  · rw [Function.update_of_ne hji]
    refine hc.other (h.links i hi) (by simpa using hji) (h.links j hj) fun x hx hxi hxj => ?_
    exact hnew x hx hxi ⟨j, hj, hxj⟩
  · rw [Function.update_self]
    exact hindex
  · rw [Function.update_of_ne hji]
    exact h.index j hj
  · rw [Function.update_self]
    exact hkeys
  · rw [Function.update_of_ne hji]
    exact h.keys j hj
  · rw [Function.update_self, Function.update_self]
    exact hnum
  · rw [Function.update_of_ne hji, Function.update_of_ne hji]
    exact h.num j hj

/-- The map behind `addEntry`. -/
def added (n : A) (index : ℕ) (m : PeHashmap A) : PeHashmap A :=
  { m with
    hlist := m.hlist.added n (.bucket index)
    num := Function.update m.num index (m.num index + 1) }

/-- The map behind `delEntry` of an entry in the slot `l`. -/
def deleted (a : A) (l : Slot Head A) (index : ℕ) (m : PeHashmap A) : PeHashmap A :=
  { m with
    hlist := m.hlist.deleted a l
    num := Function.update m.num index (m.num index - 1) }

/-- The map behind `replaceEntry` of an entry in the slot `l`. -/
def replaced (a n : A) (l : Slot Head A) (m : PeHashmap A) : PeHashmap A :=
  { m with hlist := m.hlist.replaced a n l }

/-- **Adding** an entry with a key that no entry of its bucket has. -/
theorem Rep.added (h : Rep m chain σ) (hn : n ∈ m.hlist.live) (hnot : ¬ m.Linked chain n)
    (hk : m.key n = k) (hfree : ∀ x ∈ chain (m.index k), m.key x ≠ k) :
    m.addEntry n (m.index k) = some (m.added n (m.index k)) ∧
      Rep (m.added n (m.index k)) (Function.update chain (m.index k) (n :: chain (m.index k)))
        (Function.update σ k (some (m.value n))) := by
  subst hk
  have hi := h.index_lt (m.key n)
  have hni : n ∉ chain (m.index (m.key n)) := fun hmem => hnot ⟨_, hi, hmem⟩
  obtain ⟨heq, hc⟩ := (h.links_index (m.key n)).addHead hn hni
  refine ⟨by rw [addEntry, heq]; rfl, ?_⟩
  refine h.change hc (fun x hx hxc => ?_) (fun x hx => ?_) ?_ ?_ (fun x hx => ?_) fun v => ?_
  · obtain rfl : x = n := (List.mem_cons.mp hx).resolve_right hxc
    exact hnot
  · rcases List.mem_cons.mp hx with rfl | hx
    · rfl
    · exact h.index _ hi x hx
  · refine List.nodup_cons.mpr ⟨fun hmem => ?_, h.keys _ hi⟩
    obtain ⟨x, hx, hk⟩ := List.mem_map.mp hmem
    exact hfree x hx hk
  · rw [h.num _ hi]
    simp
  · rw [List.mem_cons]
    exact or_iff_right fun he => hx (he ▸ rfl)
  · constructor
    · intro hv
      exact ⟨n, by simp, rfl, Option.some.inj hv⟩
    · rintro ⟨x, hx, hk, rfl⟩
      rcases List.mem_cons.mp hx with rfl | hx
      · rfl
      · exact absurd hk (hfree x hx)

omit [DecidableEq A] in
theorem Rep.key_ne (h : Rep m chain σ) {pre post : List A}
    (hsplit : chain (m.index (m.key a)) = pre ++ a :: post) :
    ∀ x, x ∈ pre ∨ x ∈ post → m.key x ≠ m.key a := by
  have hkeys := h.keys _ (h.index_lt (m.key a))
  rw [hsplit, List.map_append, List.map_cons, List.nodup_middle, List.nodup_cons,
    List.mem_append] at hkeys
  intro x hx hk
  rw [← hk] at hkeys
  exact hkeys.1 (hx.imp List.mem_map_of_mem List.mem_map_of_mem)

theorem Rep.deleted (h : Rep m chain σ) {pre post : List A}
    (hsplit : chain (m.index k) = pre ++ a :: post) (hk : m.key a = k) :
    m.delEntry a (m.index k) =
        some (m.deleted a (Hlist.endSlot (.head (.bucket (m.index k))) pre) (m.index k)) ∧
      Rep (m.deleted a (Hlist.endSlot (.head (.bucket (m.index k))) pre) (m.index k))
        (Function.update chain (m.index k) (pre ++ post)) (Function.update σ k none) := by
  subst hk
  have hi := h.index_lt (m.key a)
  have hlinks := h.links_index (m.key a)
  have hkeys := h.keys _ hi
  have hnum := h.num _ hi
  have hindex := h.index _ hi
  have hne := h.key_ne hsplit
  rw [hsplit] at hlinks hkeys hnum hindex
  obtain ⟨heq, hc⟩ := hlinks.del
  rw [← hsplit] at hc
  refine ⟨by rw [delEntry, heq]; rfl, ?_⟩
  refine h.change hc (fun x hx hxc => absurd ?_ hxc) (fun x hx => hindex x ?_) ?_ ?_ (fun x hx => ?_)
    fun v => ?_
  · rw [hsplit]
    exact List.mem_append.mpr ((List.mem_append.mp hx).imp_right (List.mem_cons_of_mem a))
  · exact List.mem_append.mpr ((List.mem_append.mp hx).imp_right (List.mem_cons_of_mem a))
  · rw [List.map_append, List.map_cons, List.nodup_middle] at hkeys
    rw [List.map_append]
    exact (List.nodup_cons.mp hkeys).2
  · rw [hnum, List.length_append, List.length_append, List.length_cons]
    omega
  · have hxa : x ≠ a := fun he => hx (congrArg m.key he)
    rw [hsplit, List.mem_append, List.mem_append, List.mem_cons, or_iff_right hxa]
  · refine iff_of_false (by simp) ?_
    rintro ⟨x, hx, hk, -⟩
    exact hne x (List.mem_append.mp hx) hk

/-- **Replacing** the entry of a key by a new one with the same key. -/
theorem Rep.replaced (h : Rep m chain σ) {pre post : List A}
    (hsplit : chain (m.index k) = pre ++ a :: post) (hk : m.key a = k) (hn : n ∈ m.hlist.live)
    (hnot : ¬ m.Linked chain n) (hkn : m.key n = k) :
    m.replaceEntry a n =
        some (m.replaced a n (Hlist.endSlot (.head (.bucket (m.index k))) pre)) ∧
      Rep (m.replaced a n (Hlist.endSlot (.head (.bucket (m.index k))) pre))
        (Function.update chain (m.index k) (pre ++ n :: post))
        (Function.update σ k (some (m.value n))) := by
  subst hk
  have hi := h.index_lt (m.key a)
  have hni : n ∉ chain (m.index (m.key a)) := fun hmem => hnot ⟨_, hi, hmem⟩
  have hlinks := h.links_index (m.key a)
  have hkeys := h.keys _ hi
  have hnum := h.num _ hi
  have hindex := h.index _ hi
  have hne := h.key_ne hsplit
  rw [hsplit] at hlinks hkeys hnum hindex hni
  obtain ⟨heq, hc⟩ := hlinks.replace hn hni
  rw [← hsplit] at hc
  refine ⟨by rw [replaceEntry, heq]; rfl, ?_⟩
  have hsame : m.replaced a n (Hlist.endSlot (.head (.bucket (m.index (m.key a)))) pre) =
      { m with
        hlist := m.hlist.replaced a n (Hlist.endSlot (.head (.bucket (m.index (m.key a)))) pre)
        num := Function.update m.num (m.index (m.key a)) (m.num (m.index (m.key a))) } := by
    rw [Function.update_eq_self]
    rfl
  rw [hsame]
  refine h.change hc (fun x hx hxc => ?_) (fun x hx => ?_) ?_ ?_ (fun x hx => ?_) fun v => ?_
  · rw [hsplit] at hxc
    have hxn : x = n := by
      by_contra hxn
      refine hxc (List.mem_append.mpr ((List.mem_append.mp hx).imp_right fun hx => ?_))
      exact List.mem_cons_of_mem a ((List.mem_cons.mp hx).resolve_left hxn)
    rw [hxn]
    exact hnot
  · rcases List.mem_append.mp hx with hx | hx
    · exact hindex x (by simp [hx])
    · rcases List.mem_cons.mp hx with rfl | hx
      · rw [hkn]
      · exact hindex x (by simp [hx])
  · rw [List.map_append, List.map_cons] at hkeys ⊢
    rwa [hkn]
  · rw [hnum, List.length_append, List.length_append, List.length_cons, List.length_cons]
  · have hxa : x ≠ a := fun he => hx (congrArg m.key he)
    have hxn : x ≠ n := fun he => hx ((congrArg m.key he).trans hkn)
    rw [hsplit, List.mem_append, List.mem_append, List.mem_cons, List.mem_cons, or_iff_right hxa,
      or_iff_right hxn]
  · constructor
    · intro hv
      exact ⟨n, by simp, hkn, Option.some.inj hv⟩
    · rintro ⟨x, hx, hk, rfl⟩
      rcases List.mem_append.mp hx with hx | hx
      · exact absurd hk (hne x (Or.inl hx))
      · rcases List.mem_cons.mp hx with rfl | hx
        · rfl
        · exact absurd hk (hne x (Or.inr hx))

/-- **Updating the value** of the entry of a key in place. -/
theorem Rep.setValue (h : Rep m chain σ) {pre post : List A}
    (hsplit : chain (m.index k) = pre ++ a :: post) (hk : m.key a = k) :
    Rep (m.setValue a v) chain (Function.update σ k (some v)) := by
  subst hk
  have hne := h.key_ne hsplit
  refine ⟨h.mask, h.links, h.index, h.keys, h.num, fun k' v' => ?_⟩
  rcases eq_or_ne k' (m.key a) with rfl | hk
  · rw [Function.update_self]
    constructor
    · intro hv
      refine ⟨a, ?_, rfl, by simpa [PeHashmap.setValue] using hv⟩
      change a ∈ chain (m.index (m.key a))
      simp [hsplit]
    · rintro ⟨x, hx, hxk, rfl⟩
      replace hx : x ∈ pre ++ a :: post := hsplit ▸ hx
      have hxa : x = a := by
        by_contra hxa
        refine hne x ?_ hxk
        rcases List.mem_append.mp hx with hx | hx
        · exact Or.inl hx
        · exact Or.inr ((List.mem_cons.mp hx).resolve_left hxa)
      simp [hxa, PeHashmap.setValue]
  · rw [Function.update_of_ne hk, h.binds]
    refine exists_congr fun x => and_congr_right fun _ => and_congr_right fun hxk => ?_
    have hxa : x ≠ a := by
      rintro rfl
      exact hk hxk.symm
    simp [PeHashmap.setValue, hxa]

/-! ### Which entries are linked -/

section

omit [DecidableEq A]

theorem linked_update {i : ℕ} (hi : i < m.bucketsNum.toNat) {bs : List A} {x : A} :
    m.Linked (Function.update chain i bs) x ↔
      x ∈ bs ∨ ∃ j < m.bucketsNum.toNat, j ≠ i ∧ x ∈ chain j := by
  constructor
  · rintro ⟨j, hj, hx⟩
    rcases eq_or_ne j i with rfl | hji
    · exact Or.inl (by simpa using hx)
    · exact Or.inr ⟨j, hj, hji, by simpa [hji] using hx⟩
  · rintro (hx | ⟨j, hj, hji, hx⟩)
    · exact ⟨i, hi, by simpa using hx⟩
    · exact ⟨j, hj, by simpa [hji] using hx⟩

theorem linked_iff {i : ℕ} (hi : i < m.bucketsNum.toNat) {x : A} :
    m.Linked chain x ↔ x ∈ chain i ∨ ∃ j < m.bucketsNum.toNat, j ≠ i ∧ x ∈ chain j := by
  rw [← linked_update hi, Function.update_eq_self]

theorem linked_added {i : ℕ} (hi : i < m.bucketsNum.toNat) {x : A} :
    m.Linked (Function.update chain i (n :: chain i)) x ↔ x = n ∨ m.Linked chain x := by
  rw [linked_update hi, linked_iff hi, List.mem_cons, or_assoc]

theorem Rep.not_mem_other (h : Rep m chain σ) {pre post : List A}
    (hsplit : chain (m.index k) = pre ++ a :: post) :
    ¬ ∃ j < m.bucketsNum.toNat, j ≠ m.index k ∧ a ∈ chain j := by
  rintro ⟨j, hj, hji, ha⟩
  have hmem : a ∈ chain (m.index k) := by simp [hsplit]
  exact hji (by simpa using (h.links j hj).head_eq (h.links_index k) ha hmem)

theorem Rep.not_mem_append (h : Rep m chain σ) {pre post : List A}
    (hsplit : chain (m.index k) = pre ++ a :: post) : a ∉ pre ∧ a ∉ post := by
  have hnodup := (h.links_index k).nodup
  rw [hsplit, List.nodup_middle, List.nodup_cons, List.mem_append] at hnodup
  exact not_or.mp hnodup.1

theorem Rep.linked_deleted (h : Rep m chain σ) {pre post : List A}
    (hsplit : chain (m.index k) = pre ++ a :: post) {x : A} :
    m.Linked (Function.update chain (m.index k) (pre ++ post)) x ↔ x ≠ a ∧ m.Linked chain x := by
  have hi := h.index_lt k
  obtain ⟨hpre, hpost⟩ := h.not_mem_append hsplit
  rw [linked_update hi, linked_iff hi, hsplit]
  rcases eq_or_ne x a with rfl | hxa
  · have hother := h.not_mem_other hsplit
    simp [hpre, hpost, hother]
  · simp [hxa]

theorem Rep.linked_replaced (h : Rep m chain σ) {pre post : List A}
    (hsplit : chain (m.index k) = pre ++ a :: post) {x : A} :
    m.Linked (Function.update chain (m.index k) (pre ++ n :: post)) x ↔
      x = n ∨ x ≠ a ∧ m.Linked chain x := by
  have hi := h.index_lt k
  rw [← h.linked_deleted hsplit, linked_update hi, linked_update hi]
  simp only [List.mem_append, List.mem_cons]
  tauto

end

/-! ### A new map -/

theorem initBuckets_spec (n : ℕ) (m : PeHashmap A) :
    (∀ i < n, (initBuckets n m).hlist.first (.bucket i) = none ∧ (initBuckets n m).num i = 0) ∧
      (initBuckets n m).bucketsNum = m.bucketsNum ∧
      (initBuckets n m).bucketsMask = m.bucketsMask := by
  induction n with
  | zero => exact ⟨fun i hi => absurd hi (Nat.not_lt_zero i), rfl, rfl⟩
  | succ n ih =>
    obtain ⟨hinit, hnum, hmask⟩ := ih
    refine ⟨fun i hi => ?_, hnum, hmask⟩
    have hfirst : (initBuckets (n + 1) m).hlist.first (.bucket i) =
        if i = n then none else (initBuckets n m).hlist.first (.bucket i) := by
      simp [initBuckets, Hlist.initHead, Hlist.put, Function.update_apply]
    have hni : (initBuckets (n + 1) m).num i = if i = n then 0 else (initBuckets n m).num i := by
      simp [initBuckets, Function.update_apply]
    rw [hfirst, hni]
    split
    · exact ⟨rfl, rfl⟩
    · exact hinit i (by omega)

theorem shiftLeft_one_toNat {bits : ℕ} (hbits : bits < 32) : (1#32 <<< bits).toNat = 2 ^ bits := by
  rw [BitVec.toNat_shiftLeft, Nat.shiftLeft_eq, BitVec.toNat_ofNat, Nat.mod_mul_mod, Nat.one_mul]
  exact Nat.mod_eq_of_lt (Nat.pow_lt_pow_right (by omega) hbits)

theorem mask_lt {bits : ℕ} (hbits : bits < 32) :
    (1#32 <<< bits - 1).toNat < (1#32 <<< bits).toNat := by
  have hpow := shiftLeft_one_toNat hbits
  have hpos : 0 < 2 ^ bits := Nat.two_pow_pos bits
  have hlt := (1#32 <<< bits).isLt
  rw [BitVec.toNat_sub]
  change (2 ^ 32 - 1 + (1#32 <<< bits).toNat) % 2 ^ 32 < _
  omega

/-- **A new map** is empty and its cache has no objects. -/
theorem rep_create {bits : ℕ} {mem : PeHashmap A} {vmallocMap vmallocBuckets : Bool}
    {kmemCacheCreate : Option ℕ} (hbits : bits < 32)
    (h : create bits mem vmallocMap vmallocBuckets kmemCacheCreate = some m) :
    Rep m (fun _ => []) (fun _ => none) ∧ m.hlist.live = ∅ := by
  have hspec := initBuckets_spec (1#32 <<< bits).toNat
    { mem with bucketsNum := 1#32 <<< bits, bucketsMask := 1#32 <<< bits - 1 }
  have hmask := mask_lt hbits
  unfold create at h
  dsimp only at h hspec
  generalize initBuckets (1#32 <<< bits).toNat
    { mem with bucketsNum := 1#32 <<< bits, bucketsMask := 1#32 <<< bits - 1 } = m₀ at h hspec
  obtain ⟨hinit, hnum₀, hmask₀⟩ := hspec
  split at h
  · split at h
    · obtain ⟨cache, _, rfl⟩ := Option.map_eq_some_iff.mp h
      refine ⟨⟨?_, fun i hi => ?_, fun _ _ => by simp, fun _ _ => by simp, fun i hi => ?_, by simp⟩,
        rfl⟩
      · dsimp only
        rwa [hnum₀, hmask₀]
      · exact (hinit i (hnum₀ ▸ hi)).1
      · exact (hinit i (hnum₀ ▸ hi)).2
    · simp at h
  · simp at h

/-- What fresh memory may hold. -/
def zeroed : PeHashmap ℕ where
  hlist := ⟨fun _ => none, fun _ => none, fun _ => none, ∅⟩
  key _ := 0
  value _ := 0
  num _ := 0
  cache := 0
  bucketsNum := 0
  bucketsMask := 0

/-- A map of two buckets. -/
def twoBuckets : PeHashmap ℕ := (PeHashmap.create 1 zeroed true true (some 0)).get rfl

end PeHashmap

end CppProgramming.HashMap
