import CppProgramming.HashMap.Bucket
import CppProgramming.HashMap.Table

/-!
# The spinlock map

`pe_map_insert`, `pe_map_remove` and `pe_map_get` of `proc_entry_hashmap1.c`.  A
call holds the lock of its bucket from the walk to the update, so it is one
step.  An insert allocates its entry before it takes the lock, updates the value
in place when it finds the key and then gives the new entry back.
-/

namespace CppProgramming.HashMap.Spinlock

open CppProgramming.Lib PeHashmap

variable {A : Type} [DecidableEq A]

/-- `pe_map_insert`; `alloc` is the answer of `kmem_cache_alloc`. -/
def peMapInsert (alloc : Option A) (key value : BitVec 64) (m : PeHashmap A) :
    Option (ℤ × PeHashmap A) :=
  let index := m.index key
  match alloc with
  | none => some (-1, m)
  | some new => do
    let m := m.newEntry new key value
    match ← m.lookup key index with
    | some entry =>
      let m := m.setValue entry value
      let m ← m.kmemCacheFree m.cache new
      some (0, m)
    | none =>
      let m ← m.addEntry new index
      some (0, m)

/-- `pe_map_remove` -/
def peMapRemove (key : BitVec 64) (m : PeHashmap A) : Option (ℤ × PeHashmap A) := do
  let index := m.index key
  match ← m.lookup key index with
  | some entry =>
    let m ← m.delEntry entry index
    let m ← m.kmemCacheFree m.cache entry
    some (0, m)
  | none => some (-1, m)

/-- `pe_map_get`; `out` is `*value`. -/
def peMapGet (key out : BitVec 64) (m : PeHashmap A) : Option (ℤ × BitVec 64) := do
  match ← m.lookup key (m.index key) with
  | some entry => some (0, m.value entry)
  | none => some (-1, out)

def exec (op : Op) (alloc : Option A) (m : PeHashmap A) : Option (Result × PeHashmap A) :=
  match op with
  | .insert key value => (peMapInsert alloc key value m).map fun (ret, m) => (⟨ret, none⟩, m)
  | .remove key => (peMapRemove key m).map fun (ret, m) => (⟨ret, none⟩, m)
  | .get key out => (peMapGet key out m).map fun (ret, value) => (⟨ret, some value⟩, m)

/-- The results of a sequence of calls, the first of which is the `i`-th. -/
def run (al : Allocator A) : ℕ → List Request → PeHashmap A → Option (List Result × PeHashmap A)
  | _, [], m => some ([], m)
  | i, r :: rs, m => do
    let (result, m) ← exec r.op (al.answer i m.hlist.live r.alloc) m
    let (results, m) ← run al (i + 1) rs m
    some (result :: results, m)

/-! ### Each call does what the table does -/

variable {m : PeHashmap A} {chain : ℕ → List A} {σ : Table} {k v : BitVec 64}

/-- The map holds `σ` and its objects are the linked entries. -/
structure Holds (m : PeHashmap A) (chain : ℕ → List A) (σ : Table) : Prop where
  rep : Rep m chain σ
  live : ∀ a, a ∈ m.hlist.live ↔ m.Linked chain a

theorem peMapInsert_spec (h : Holds m chain σ) {n : A} (hn : n ∉ m.hlist.live) :
    ∃ m' chain', peMapInsert (some n) k v m = some (0, m') ∧
      Holds m' chain' (Function.update σ k (some v)) := by
  have hnew := h.rep.newEntry (k := k) (v := v) hn
  have hnot : ¬ (m.newEntry n k v).Linked chain n := fun hl => hn (h.rep.live hl)
  have hlive : n ∈ (m.newEntry n k v).hlist.live := Finset.mem_insert_self n m.hlist.live
  have hinsert : ∀ x, x ∈ (m.newEntry n k v).hlist.live ↔
      x = n ∨ (m.newEntry n k v).Linked chain x := by
    intro x
    rw [show (m.newEntry n k v).Linked chain x ↔ m.Linked chain x from Iff.rfl, ← h.live]
    exact Finset.mem_insert
  have hkey : (m.newEntry n k v).key n = k := Function.update_self ..
  have hvalue : (m.newEntry n k v).value n = v := Function.update_self ..
  rw [peMapInsert, show m.index k = (m.newEntry n k v).index k from rfl]
  generalize m.newEntry n k v = m₁ at *
  dsimp only
  rcases hnew.lookup k with ⟨a, pre, post, hfind, hsplit, hk, _⟩ | ⟨hfind, hfree, _⟩
  · -- the key is bound: its entry is updated and the new one is not needed
    have hset := hnew.setValue (v := v) hsplit hk
    refine ⟨_, chain, ?_, ⟨hset.freed hnot, fun x => ?_⟩⟩
    · simp only [hfind, Option.bind_eq_bind, Option.bind_some]
      rw [kmemCacheFree_eq (m := m₁.setValue a v) rfl hlive, Option.bind_some]
    · refine (Finset.mem_erase.trans (and_congr_right fun _ => hinsert x)).trans ⟨?_, fun hx => ?_⟩
      · rintro ⟨hxn, hx⟩
        exact hx.resolve_left hxn
      · exact ⟨fun hxn => hnot (hxn ▸ hx), Or.inr hx⟩
  · obtain ⟨hadd, hrep⟩ := hnew.added hlive hnot hkey hfree
    rw [hvalue] at hrep
    refine ⟨_, _, ?_, ⟨hrep, fun x => ?_⟩⟩
    · simp only [hfind, Option.bind_eq_bind, Option.bind_some]
      rw [hadd, Option.bind_some]
    · have hmem : x ∈ (m₁.added n (m₁.index k)).hlist.live ↔ x ∈ m₁.hlist.live := by
        simp [PeHashmap.added]
      rw [hmem, hinsert]
      exact (linked_added (hnew.index_lt k)).symm

theorem peMapRemove_spec (h : Holds m chain σ) :
    (∃ v m' chain', σ k = some v ∧ peMapRemove k m = some (0, m') ∧
        Holds m' chain' (Function.update σ k none)) ∨
      (σ k = none ∧ peMapRemove k m = some (-1, m)) := by
  unfold peMapRemove
  rcases h.rep.lookup k with ⟨a, pre, post, hfind, hsplit, hk, hbound⟩ | ⟨hfind, _, hfree⟩
  · obtain ⟨hdel, hrep⟩ := h.rep.deleted hsplit hk
    have hlinked := fun x => h.rep.linked_deleted hsplit (x := x)
    refine Or.inl ⟨_, _, _, hbound, ?_, ⟨hrep.freed (a := a) ?_, fun x => ?_⟩⟩
    · simp only [hfind, Option.bind_eq_bind, Option.bind_some]
      have ha : a ∈ m.hlist.live := (h.rep.links_index k).live a (by simp [hsplit])
      rw [hdel, Option.bind_some, kmemCacheFree_eq rfl (by simpa [PeHashmap.deleted] using ha),
        Option.bind_some]
    · exact fun hl => ((hlinked a).mp hl).1 rfl
    · refine Finset.mem_erase.trans (Iff.trans ?_ (hlinked x).symm)
      rw [← h.live]
      simp [PeHashmap.deleted]
  · refine Or.inr ⟨hfree, ?_⟩
    simp only [hfind, Option.bind_eq_bind, Option.bind_some]

theorem peMapGet_spec (h : Holds m chain σ) (out : BitVec 64) :
    peMapGet k out m = match σ k with
      | some v => some (0, v)
      | none => some (-1, out) := by
  unfold peMapGet
  rcases h.rep.lookup k with ⟨a, _, _, hfind, _, _, hbound⟩ | ⟨hfind, _, hfree⟩
  · simp only [hfind, hbound, Option.bind_eq_bind, Option.bind_some]
  · simp only [hfind, hfree, Option.bind_eq_bind, Option.bind_some]

/-- **Each call answers as the table does** and keeps the invariant. -/
theorem exec_spec (h : Holds m chain σ) (al : Allocator A) (i : ℕ) (r : Request) :
    ∃ m' chain', exec r.op (al.answer i m.hlist.live r.alloc) m = some ((σ.step r).1, m') ∧
      Holds m' chain' (σ.step r).2 := by
  obtain ⟨op, ok⟩ := r
  cases op with
  | insert key value =>
    cases ok with
    | false => exact ⟨m, chain, rfl, h⟩
    | true =>
      obtain ⟨m', chain', heq, hm'⟩ := peMapInsert_spec (k := key) (v := value) h
        (al.fresh i m.hlist.live)
      refine ⟨m', chain', ?_, hm'⟩
      rw [exec, show al.answer i m.hlist.live true = some (al.pick i m.hlist.live) from rfl, heq]
      rfl
  | remove key =>
    rcases peMapRemove_spec (k := key) h with ⟨v, m', chain', hv, heq, hm'⟩ | ⟨hfree, heq⟩
    · refine ⟨m', chain', ?_, ?_⟩
      · rw [exec, heq]
        simp [Table.step, hv]
      · simpa [Table.step, hv] using hm'
    · refine ⟨m, chain, ?_, ?_⟩
      · rw [exec, heq]
        simp [Table.step, hfree]
      · simpa [Table.step, hfree] using h
  | get key out =>
    have hget := peMapGet_spec (k := key) h out
    refine ⟨m, chain, ?_, ?_⟩
    · rw [exec, hget]
      cases hv : σ key <;> simp [Table.step, hv]
    · cases hv : σ key <;> simpa [Table.step, hv] using h

theorem run_spec (al : Allocator A) (rs : List Request) : ∀ (i : ℕ) {m : PeHashmap A}
    {chain : ℕ → List A} {σ : Table}, Holds m chain σ →
      ∃ m', run al i rs m = some (σ.run rs, m') := by
  induction rs with
  | nil => exact fun i m chain σ _ => ⟨m, rfl⟩
  | cons r rs ih =>
    intro i m chain σ h
    obtain ⟨m₁, chain₁, heq, h₁⟩ := exec_spec h al i r
    obtain ⟨m₂, hrun⟩ := ih (i + 1) h₁
    refine ⟨m₂, ?_⟩
    simp only [run, heq, hrun, Table.run, Option.bind_eq_bind, Option.bind_some]

end CppProgramming.HashMap.Spinlock
