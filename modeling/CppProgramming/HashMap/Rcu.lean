import CppProgramming.HashMap.Bucket
import CppProgramming.HashMap.Table

/-!
# The RCU map

`pe_map_insert`, `pe_map_remove`, `pe_map_get` and `pe_entry_free_rcu` of
`proc_entry_hashmap2.c`.  Readers take no lock, so an entry is never changed:
an insert of a bound key replaces its entry by a new one, and an entry that
leaves its bucket is handed to `call_rcu`, whose callback gives it back to the
cache later.  `rcu` are the entries whose callback has not run yet.

`Holds m chain σ` adds to the representation invariant who owns an object of the
cache: its bucket or `call_rcu`, and never both.  `insert_cases` and
`remove_cases` say everything an update can do; all later results on the map rest
on them.
-/

namespace CppProgramming.HashMap

open CppProgramming.Lib PeHashmap

/-- `struct pe_hashmap` with the fields that `struct pe_map_entry` has more. -/
structure RcuHashmap (A : Type) extends PeHashmap A where
  entryCache : A → ℕ
  rcu : List A

namespace RcuHashmap

variable {A : Type} [DecidableEq A]

/-! ### The code -/

/-- `kmem_cache_alloc` answered `a`, and the fields are set. -/
def newEntry (a : A) (key value : BitVec 64) (m : RcuHashmap A) : RcuHashmap A :=
  { m with
    toPeHashmap := m.toPeHashmap.newEntry a key value
    entryCache := Function.update m.entryCache a m.cache }

def callRcu (a : A) (m : RcuHashmap A) : RcuHashmap A := { m with rcu := m.rcu ++ [a] }

/-- The callback of `a` runs. -/
def peEntryFreeRcu (a : A) (m : RcuHashmap A) : Option (RcuHashmap A) :=
  (m.kmemCacheFree (m.entryCache a) a).map fun base =>
    { m with toPeHashmap := base, rcu := m.rcu.erase a }

/-- `pe_map_insert`; `alloc` is the answer of `kmem_cache_alloc`. -/
def peMapInsert (alloc : Option A) (key value : BitVec 64) (m : RcuHashmap A) :
    Option (ℤ × RcuHashmap A) :=
  let index := m.index key
  match alloc with
  | none => some (-1, m)
  | some new => do
    let m := m.newEntry new key value
    match ← m.lookup key index with
    | some entry =>
      let base ← m.replaceEntry entry new
      some (0, callRcu entry { m with toPeHashmap := base })
    | none =>
      let base ← m.addEntry new index
      some (0, { m with toPeHashmap := base })

def peMapRemove (key : BitVec 64) (m : RcuHashmap A) : Option (ℤ × RcuHashmap A) := do
  let index := m.index key
  match ← m.lookup key index with
  | some entry =>
    let base ← m.delEntry entry index
    some (0, callRcu entry { m with toPeHashmap := base })
  | none => some (-1, m)

/-- `pe_map_get`, with no update during it; `out` is `*value`. -/
def peMapGet (key out : BitVec 64) (m : RcuHashmap A) : Option (ℤ × BitVec 64) := do
  match ← m.lookup key (m.index key) with
  | some entry => some (0, m.value entry)
  | none => some (-1, out)

def exec (op : Op) (alloc : Option A) (m : RcuHashmap A) : Option (Result × RcuHashmap A) :=
  match op with
  | .insert key value => (peMapInsert alloc key value m).map fun (ret, m) => (⟨ret, none⟩, m)
  | .remove key => (peMapRemove key m).map fun (ret, m) => (⟨ret, none⟩, m)
  | .get key out => (peMapGet key out m).map fun (ret, value) => (⟨ret, some value⟩, m)

/-- What happens to a map: a call, or the callback of the `j`-th pending entry, if
there are so many. -/
inductive Event
  | request (r : Request)
  | callback (j : ℕ)

/-- The calls of a sequence of events. -/
def requests : List Event → List Request
  | [] => []
  | .request r :: es => r :: requests es
  | .callback _ :: es => requests es

def runCallback (j : ℕ) (m : RcuHashmap A) : Option (RcuHashmap A) :=
  match m.rcu[j]? with
  | some a => m.peEntryFreeRcu a
  | none => some m

/-- The results of a sequence of events, the first of which is the `i`-th. -/
def run (al : Allocator A) : ℕ → List Event → RcuHashmap A → Option (List Result × RcuHashmap A)
  | _, [], m => some ([], m)
  | i, .request r :: es, m => do
    let (result, m) ← exec r.op (al.answer i m.hlist.live r.alloc) m
    let (results, m) ← run al (i + 1) es m
    some (result :: results, m)
  | i, .callback j :: es, m => do
    let m ← m.runCallback j
    run al (i + 1) es m

/-- `pe_map_create`, see `PeHashmap.create`. -/
def create (bits : ℕ) (mem : RcuHashmap A) (vmallocMap vmallocBuckets : Bool)
    (kmemCacheCreate : Option ℕ) : Option (RcuHashmap A) :=
  (PeHashmap.create bits mem.toPeHashmap vmallocMap vmallocBuckets kmemCacheCreate).map fun base =>
    { mem with toPeHashmap := base, rcu := [] }

/-! ### Who owns an entry -/

/-- **The invariant.**  The map holds `σ`, and an object of the cache is linked or
pending, but not both. -/
structure Holds (m : RcuHashmap A) (chain : ℕ → List A) (σ : Table) : Prop where
  rep : Rep m.toPeHashmap chain σ
  live : ∀ a, a ∈ m.hlist.live ↔ m.Linked chain a ∨ a ∈ m.rcu
  nodup : m.rcu.Nodup
  apart : ∀ a ∈ m.rcu, ¬ m.Linked chain a
  cache : ∀ a ∈ m.hlist.live, m.entryCache a = m.cache

variable {m : RcuHashmap A} {chain : ℕ → List A} {σ : Table} {k v : BitVec 64} {a n : A}

theorem holds_create {bits : ℕ} {mem : RcuHashmap A} {vmallocMap vmallocBuckets : Bool}
    {kmemCacheCreate : Option ℕ} (hbits : bits < 32)
    (h : create bits mem vmallocMap vmallocBuckets kmemCacheCreate = some m) :
    Holds m (fun _ => []) Table.empty := by
  obtain ⟨base, hbase, rfl⟩ := Option.map_eq_some_iff.mp h
  obtain ⟨hrep, hlive⟩ := rep_create hbits hbase
  refine ⟨hrep, fun a => ?_, List.nodup_nil, by simp, fun a ha => ?_⟩
  · simp [hlive, Linked]
  · simp [hlive] at ha

/-- The map behind an insert that adds the entry `n`. -/
def inserted (n : A) (k v : BitVec 64) (m : RcuHashmap A) : RcuHashmap A :=
  { m.newEntry n k v with toPeHashmap := (m.newEntry n k v).toPeHashmap.added n (m.index k) }

/-- The map behind an insert that replaces the entry `a` in the slot `l` by `n`. -/
def substituted (a n : A) (l : Slot Head A) (k v : BitVec 64) (m : RcuHashmap A) : RcuHashmap A :=
  callRcu a
    { m.newEntry n k v with toPeHashmap := (m.newEntry n k v).toPeHashmap.replaced a n l }

/-- The map behind a remove of the entry `a` in the slot `l`. -/
def removed (a : A) (l : Slot Head A) (k : BitVec 64) (m : RcuHashmap A) : RcuHashmap A :=
  callRcu a { m with toPeHashmap := m.toPeHashmap.deleted a l (m.index k) }

omit [DecidableEq A] in
theorem Holds.linked_ne (h : Holds m chain σ) (hn : n ∉ m.hlist.live) (ha : m.Linked chain a) :
    a ≠ n := by
  rintro rfl
  exact hn (h.rep.live ha)

/-- A linked entry changes over to `call_rcu`, perhaps for a new one. -/
theorem Holds.retire {base : PeHashmap A} {chain' : ℕ → List A} {τ : Table} {cacheOf : A → ℕ}
    (h : Holds m chain σ) (ha : m.Linked chain a) (hrep : Rep base chain' τ)
    (hlive : ∀ x, x ∈ base.hlist.live ↔ x ∈ m.hlist.live ∨ base.Linked chain' x)
    (hlinked : ∀ x, x ∈ m.hlist.live → (base.Linked chain' x ↔ x ≠ a ∧ m.Linked chain x))
    (hcache : ∀ x ∈ base.hlist.live, cacheOf x = base.cache) :
    Holds { toPeHashmap := base, entryCache := cacheOf, rcu := m.rcu ++ [a] } chain' τ := by
  have halive : a ∈ m.hlist.live := h.rep.live ha
  have hrcu : ∀ x ∈ m.rcu, x ∈ m.hlist.live := fun x hx => (h.live x).mpr (Or.inr hx)
  refine ⟨hrep, fun x => ?_, ?_, fun x hx => ?_, hcache⟩
  · rw [hlive, List.mem_append, List.mem_singleton]
    constructor
    · rintro (hx | hx)
      · rcases (h.live x).mp hx with hl | hr
        · by_cases hxa : x = a
          · exact Or.inr (Or.inr hxa)
          · exact Or.inl ((hlinked x hx).mpr ⟨hxa, hl⟩)
        · exact Or.inr (Or.inl hr)
      · exact Or.inl hx
    · rintro (hx | hx | rfl)
      · exact Or.inr hx
      · exact Or.inl (hrcu x hx)
      · exact Or.inl halive
  · exact List.nodup_append.mpr ⟨h.nodup, List.nodup_singleton a, fun x hx y hy hxy => by
      obtain rfl := List.mem_singleton.mp hy
      exact h.apart x hx (hxy ▸ ha)⟩
  · rcases List.mem_append.mp hx with hx | hx
    · exact fun hl => h.apart x hx ((hlinked x (hrcu x hx)).mp hl).2
    · obtain rfl := List.mem_singleton.mp hx
      exact fun hl => ((hlinked x halive).mp hl).1 rfl

theorem insert_cases (h : Holds m chain σ) (k v : BitVec 64) (hn : n ∉ m.hlist.live) :
    (∃ a pre post, chain (m.index k) = pre ++ a :: post ∧ m.key a = k ∧
        peMapInsert (some n) k v m =
          some (0, m.substituted a n (Hlist.endSlot (.head (.bucket (m.index k))) pre) k v) ∧
        Holds (m.substituted a n (Hlist.endSlot (.head (.bucket (m.index k))) pre) k v)
          (Function.update chain (m.index k) (pre ++ n :: post)) (Function.update σ k (some v))) ∨
      ((∀ x ∈ chain (m.index k), m.key x ≠ k) ∧
        peMapInsert (some n) k v m = some (0, m.inserted n k v) ∧
        Holds (m.inserted n k v) (Function.update chain (m.index k) (n :: chain (m.index k)))
          (Function.update σ k (some v))) := by
  have hnew : Rep (m.newEntry n k v).toPeHashmap chain σ := h.rep.newEntry hn
  have hnot : ¬ (m.newEntry n k v).Linked chain n := fun hl => hn (h.rep.live hl)
  have hlive : ∀ x, x ∈ (m.newEntry n k v).hlist.live ↔ x = n ∨ x ∈ m.hlist.live :=
    fun x => Finset.mem_insert
  have hkey : (m.newEntry n k v).key n = k := Function.update_self ..
  have hvalue : (m.newEntry n k v).value n = v := Function.update_self ..
  have hold : ∀ x ∈ chain (m.index k), (m.newEntry n k v).key x = m.key x := fun x hx =>
    Function.update_of_ne (h.linked_ne hn ⟨_, h.rep.index_lt k, hx⟩) ..
  have hcache : ∀ x, x = n ∨ x ∈ m.hlist.live → (m.newEntry n k v).entryCache x = m.cache := by
    intro x hx
    by_cases hxn : x = n
    · rw [hxn]
      exact Function.update_self ..
    · exact (Function.update_of_ne hxn ..).trans (h.cache x (hx.resolve_left hxn))
  rw [peMapInsert]
  rcases hnew.lookup k with ⟨a, pre, post, hfind, hsplit, hk, _⟩ | ⟨hfind, hfree, _⟩
  · obtain ⟨hrepl, hrep⟩ := hnew.replaced hsplit hk ((hlive n).mpr (Or.inl rfl)) hnot hkey
    have hlinked := fun x => hnew.linked_replaced (n := n) hsplit (x := x)
    rw [hvalue] at hrep
    have ha : a ∈ chain (m.index k) := by
      change a ∈ chain ((m.newEntry n k v).index k)
      simp [hsplit]
    refine Or.inl ⟨a, pre, post, hsplit, (hold a ha) ▸ hk, ?_, ?_⟩
    · rw [show m.index k = (m.newEntry n k v).index k from rfl, hfind]
      simp only [Option.bind_eq_bind, Option.bind_some]
      rw [hrepl]
      rfl
    · refine h.retire ⟨_, h.rep.index_lt k, ha⟩ hrep (fun x => ?_) (fun x hx => ?_) fun x hx => ?_
      · refine (Iff.of_eq ?_).trans ((hlive x).trans ?_)
        · simp [PeHashmap.replaced]
        · refine Iff.trans ?_ (or_congr_right (hlinked x)).symm
          constructor
          · rintro (rfl | hx)
            · exact Or.inr (Or.inl rfl)
            · exact Or.inl hx
          · rintro (hx | rfl | ⟨_, hx⟩)
            · exact Or.inr hx
            · exact Or.inl rfl
            · exact Or.inr (h.rep.live hx)
      · have hxn : x ≠ n := fun he => hn (he ▸ hx)
        exact (hlinked x).trans (or_iff_right hxn)
      · refine hcache x ((hlive x).mp ?_)
        simpa [PeHashmap.replaced] using hx
  · obtain ⟨hadd, hrep⟩ := hnew.added ((hlive n).mpr (Or.inl rfl)) hnot hkey hfree
    rw [hvalue] at hrep
    have hlinked : ∀ x, (m.newEntry n k v).Linked
        (Function.update chain (m.index k) (n :: chain (m.index k))) x ↔
          x = n ∨ (m.newEntry n k v).Linked chain x := fun x => linked_added (hnew.index_lt k)
    refine Or.inr ⟨fun x hx => (hold x hx) ▸ hfree x hx, ?_, ?_⟩
    · rw [show m.index k = (m.newEntry n k v).index k from rfl, hfind]
      simp only [Option.bind_eq_bind, Option.bind_some]
      rw [hadd]
      rfl
    · refine ⟨hrep, fun x => ?_, h.nodup, fun x hx hl => ?_, fun x hx => hcache x ((hlive x).mp ?_)⟩
      · refine (Iff.of_eq ?_).trans ((hlive x).trans ?_)
        · simp [inserted, PeHashmap.added]
        · rw [h.live, ← or_assoc]
          exact or_congr_left (hlinked x).symm
      · rcases (hlinked x).mp hl with rfl | hl
        · exact hn ((h.live x).mpr (Or.inr hx))
        · exact h.apart x hx hl
      · simpa [inserted, PeHashmap.added] using hx

theorem remove_cases (h : Holds m chain σ) (k : BitVec 64) :
    (∃ a pre post, chain (m.index k) = pre ++ a :: post ∧ m.key a = k ∧
        σ k = some (m.value a) ∧
        peMapRemove k m =
          some (0, m.removed a (Hlist.endSlot (.head (.bucket (m.index k))) pre) k) ∧
        Holds (m.removed a (Hlist.endSlot (.head (.bucket (m.index k))) pre) k)
          (Function.update chain (m.index k) (pre ++ post)) (Function.update σ k none)) ∨
      (σ k = none ∧ (∀ x ∈ chain (m.index k), m.key x ≠ k) ∧
        peMapRemove k m = some (-1, m)) := by
  unfold peMapRemove
  rcases h.rep.lookup k with ⟨a, pre, post, hfind, hsplit, hk, hbound⟩ | ⟨hfind, hfree, hnone⟩
  · obtain ⟨hdel, hrep⟩ := h.rep.deleted hsplit hk
    have hlinked := fun x => h.rep.linked_deleted hsplit (x := x)
    have ha : m.Linked chain a := ⟨_, h.rep.index_lt k, by simp [hsplit]⟩
    refine Or.inl ⟨a, pre, post, hsplit, hk, hbound, ?_, ?_⟩
    · simp only [hfind, Option.bind_eq_bind, Option.bind_some]
      rw [hdel]
      rfl
    · refine h.retire ha hrep (fun x => ?_) (fun x _ => hlinked x) fun x hx => h.cache x ?_
      · refine (Iff.of_eq ?_).trans (or_iff_left_of_imp fun hl => ?_).symm
        · simp [PeHashmap.deleted]
        · exact h.rep.live ((hlinked x).mp hl).2
      · simpa [PeHashmap.deleted] using hx
  · refine Or.inr ⟨hnone, hfree, ?_⟩
    simp only [hfind, Option.bind_eq_bind, Option.bind_some]

/-- An entry that `call_rcu` alone owned leaves the cache and the queue together. -/
theorem mem_erase_owned {live : Finset A} {rcu : List A} {owned : A → Prop}
    (hlive : ∀ x, x ∈ live ↔ owned x ∨ x ∈ rcu) (hnodup : rcu.Nodup) (ha : ¬owned a) (x : A) :
    x ∈ live.erase a ↔ owned x ∨ x ∈ rcu.erase a := by
  rw [Finset.mem_erase, hnodup.mem_erase_iff, hlive]
  constructor
  · rintro ⟨hxa, hx | hx⟩
    · exact Or.inl hx
    · exact Or.inr ⟨hxa, hx⟩
  · rintro (hx | ⟨hxa, hx⟩)
    · exact ⟨fun hxa => ha (hxa ▸ hx), Or.inl hx⟩
    · exact ⟨hxa, Or.inr hx⟩

theorem peEntryFreeRcu_spec (h : Holds m chain σ) (ha : a ∈ m.rcu) :
    m.peEntryFreeRcu a =
        some { m with toPeHashmap := m.toPeHashmap.freed a, rcu := m.rcu.erase a } ∧
      Holds { m with toPeHashmap := m.toPeHashmap.freed a, rcu := m.rcu.erase a } chain σ := by
  have hlive : a ∈ m.hlist.live := (h.live a).mpr (Or.inr ha)
  have hnot := h.apart a ha
  refine ⟨?_, h.rep.freed hnot, mem_erase_owned h.live h.nodup hnot, h.nodup.erase a,
    fun x hx => ?_, fun x hx => ?_⟩
  · rw [peEntryFreeRcu, kmemCacheFree_eq (h.cache a hlive) hlive, Option.map_some]
  · exact h.apart x (List.mem_of_mem_erase hx)
  · exact h.cache x (Finset.mem_of_mem_erase hx)

theorem runCallback_spec (h : Holds m chain σ) (j : ℕ) :
    ∃ m', m.runCallback j = some m' ∧ Holds m' chain σ := by
  unfold runCallback
  cases hj : m.rcu[j]? with
  | none => exact ⟨m, rfl, h⟩
  | some a =>
    obtain ⟨heq, hm'⟩ := peEntryFreeRcu_spec h (List.mem_of_getElem? hj)
    exact ⟨_, heq, hm'⟩

theorem peMapGet_spec (h : Holds m chain σ) (out : BitVec 64) :
    peMapGet k out m = match σ k with
      | some v => some (0, v)
      | none => some (-1, out) := by
  unfold peMapGet
  rcases h.rep.lookup k with ⟨a, _, _, hfind, _, _, hbound⟩ | ⟨hfind, _, hfree⟩
  · simp only [hfind, hbound, Option.bind_eq_bind, Option.bind_some]
  · simp only [hfind, hfree, Option.bind_eq_bind, Option.bind_some]

theorem exec_spec (h : Holds m chain σ) (al : Allocator A) (i : ℕ) (r : Request) :
    ∃ m' chain', exec r.op (al.answer i m.hlist.live r.alloc) m = some ((σ.step r).1, m') ∧
      Holds m' chain' (σ.step r).2 := by
  obtain ⟨op, ok⟩ := r
  cases op with
  | insert key value =>
    cases ok with
    | false => exact ⟨m, chain, rfl, h⟩
    | true =>
      have hanswer : al.answer i m.hlist.live true = some (al.pick i m.hlist.live) := rfl
      rcases insert_cases h key value (al.fresh i m.hlist.live) with
        ⟨a, pre, post, _, _, heq, hm'⟩ | ⟨_, heq, hm'⟩
      · refine ⟨_, _, ?_, hm'⟩
        rw [exec, hanswer, heq]
        rfl
      · refine ⟨_, _, ?_, hm'⟩
        rw [exec, hanswer, heq]
        rfl
  | remove key =>
    rcases remove_cases h key with ⟨a, pre, post, _, _, hv, heq, hm'⟩ | ⟨hfree, _, heq⟩
    · have hstep : σ.step ⟨.remove key, ok⟩ = (⟨0, none⟩, Function.update σ key none) := by
        simp [Table.step, hv]
      rw [hstep]
      refine ⟨_, _, ?_, hm'⟩
      rw [exec, heq]
      rfl
    · refine ⟨m, chain, ?_, ?_⟩
      · rw [exec, heq]
        simp [Table.step, hfree]
      · simpa [Table.step, hfree] using h
  | get key out =>
    have hget := peMapGet_spec (k := key) h out
    refine ⟨m, chain, ?_, ?_⟩
    · rw [exec, hget]
      cases hv : σ key <;> simp [Table.step, hv]
    · cases hv : σ key <;> simpa [Table.step, hv] using h

/-- **Every run** of calls and callbacks succeeds, answers as the table does and keeps
the invariant. -/
theorem run_spec (al : Allocator A) (es : List Event) : ∀ (i : ℕ) {m : RcuHashmap A}
    {chain : ℕ → List A} {σ : Table}, Holds m chain σ →
      ∃ m' chain' τ, run al i es m = some (σ.run (requests es), m') ∧ Holds m' chain' τ := by
  induction es with
  | nil => exact fun i m chain σ h => ⟨m, chain, σ, rfl, h⟩
  | cons e es ih =>
    intro i m chain σ h
    cases e with
    | request r =>
      obtain ⟨m₁, chain₁, heq, h₁⟩ := exec_spec h al i r
      obtain ⟨m₂, chain₂, τ, hrun, h₂⟩ := ih (i + 1) h₁
      refine ⟨m₂, chain₂, τ, ?_, h₂⟩
      simp only [run, heq, hrun, requests, Table.run, Option.bind_eq_bind, Option.bind_some]
    | callback j =>
      obtain ⟨m₁, heq, h₁⟩ := runCallback_spec h j
      obtain ⟨m₂, chain₂, τ, hrun, h₂⟩ := ih (i + 1) h₁
      refine ⟨m₂, chain₂, τ, ?_, h₂⟩
      simp only [run, heq, hrun, requests, Option.bind_eq_bind, Option.bind_some]

/-- A map of two buckets. -/
def twoRcuBuckets : RcuHashmap ℕ :=
  (create 1 ⟨zeroed, fun _ => 0, []⟩ true true (some 0)).get rfl

end RcuHashmap

end CppProgramming.HashMap
