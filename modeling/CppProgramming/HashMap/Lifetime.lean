import CppProgramming.HashMap.Destroy
import CppProgramming.Lib.Ledger

/-!
# The life of the module

`proc_entry_hashmap2.c` from its load to its unload: `pe_map_create` with its ladder of
labels, the reads and writes of `/proc/example/hello` with the callbacks between them, and
`pe_map_destroy` behind the last one.  What the module has obtained and not given back is a
ledger; a step that dereferences a failed allocation, frees what is not held or destroys a
cache with objects has no result.

Every allocation may fail.  Each one is tested but one, that of `heads` in `pe_map_flush`,
which stands on the way out.  So the module gets through every run in which it is not reached
or succeeds, and has given back everything, and through no other (`lifetime_iff`).
-/

namespace CppProgramming.HashMap.Lifetime

open CppProgramming.Lib RcuHashmap

/-- What the module obtains: memory, a cache and entries of `/proc`. -/
inductive Resource
  | exampleEntry
  | map
  | buckets
  | cache
  | helloEntry
  | heads
deriving DecidableEq

/-- Which of the calls succeed that obtain them; those of `kmem_cache_alloc` are with the
calls that make them. -/
structure Outcomes where
  exampleEntry : Bool
  map : Bool
  buckets : Bool
  cache : Bool
  helloEntry : Bool
  heads : Bool

abbrev Held := Ledger Resource

/-- `vmalloc`, `kmem_cache_create`, `proc_mkdir` or `proc_create_data`. -/
def alloc (ok : Bool) : Resource → Held → Option (ℤ × Held) :=
  Ledger.acquire fun _ => ⟨if ok then 0 else -1, by split <;> simp⟩

variable {A : Type} [DecidableEq A]

/-! ### The map -/

/-- The labels `cache_err`, `buckets_err` and `map_err` of `pe_map_create`. -/
def ladder (o : Outcomes) : Held → Option (ℤ × Held) :=
  initThen (alloc o.map .map)
    (initThen (alloc o.buckets .buckets) (alloc o.cache .cache) (Ledger.release .buckets))
    (Ledger.release .map)

/-- `pe_map_create(16)`: a map in the memory `mem`, or `NULL`. -/
def peMapCreate (o : Outcomes) (mem : RcuHashmap A) (cache : ℕ) (s : Held) :
    Option (Option (RcuHashmap A) × Held) := do
  let (ret, s) ← ladder o s
  some (if ret < 0 then none else create 16 mem true true (some cache), s)

/-- `pe_map_flush` -/
def peMapFlush (o : Outcomes) (m : RcuHashmap A) (s : Held) : Option (RcuHashmap A × Held) := do
  let (heads, s) ← alloc o.heads .heads s
  let (_, m) ← m.peMapFlush (heads = 0)
  let s ← Ledger.release .heads s
  some (m, s)

/-- `pe_map_destroy` -/
def peMapDestroy (o : Outcomes) (m : RcuHashmap A) (s : Held) : Option (RcuHashmap A × Held) := do
  let (m, s) ← peMapFlush o m s
  m.kmemCacheDestroy
  let s ← Ledger.release .cache s
  let s ← Ledger.release .buckets s
  let s ← Ledger.release .map s
  some (m, s)

/-! ### The entry of `/proc` -/

/-- `enum hello_entry_operation` -/
def helloEntryGet : BitVec 64 := 0

def helloEntryInsert : BitVec 64 := 1

def helloEntryRemove : BitVec 64 := 2

/-- A `read` or `write` of the entry: whether `size` is that of `param`, whether the copies
from and to the user succeed, the `param`, and whether `kmem_cache_alloc` succeeds. -/
structure Call where
  write : Bool
  sized : Bool
  copied : Bool
  copiedBack : Bool
  operation : BitVec 64
  key : BitVec 64
  value : BitVec 64
  alloc : Bool

def entryRead (c : Call) (m : RcuHashmap A) : Option ℤ :=
  if !c.sized then some (-1)
  else if !c.copied then some (-1)
  else if c.operation ≠ helloEntryGet then some (-1)
  else do
    let (ret, _) ← peMapGet c.key c.value m
    if ret < 0 then some (-1)
    else if !c.copiedBack then some (-1)
    else some 0

def entryWrite (c : Call) (new : Option A) (m : RcuHashmap A) : Option (ℤ × RcuHashmap A) :=
  if !c.sized then some (-1, m)
  else if !c.copied then some (-1, m)
  else if c.operation = helloEntryInsert then do
    let (ret, m) ← peMapInsert new c.key c.value m
    some (if ret < 0 then -1 else 0, m)
  else if c.operation = helloEntryRemove then do
    let (ret, m) ← peMapRemove c.key m
    some (if ret < 0 then -1 else 0, m)
  else some (-1, m)

/-- What happens between load and unload: a call, or the callback of the `j`-th pending entry,
if there are so many. -/
inductive Event
  | call (c : Call)
  | callback (j : ℕ)

def serve (al : Allocator A) (i : ℕ) (e : Event) (m : RcuHashmap A) : Option (RcuHashmap A) :=
  match e with
  | .call c =>
    if c.write then (entryWrite c (al.answer i m.hlist.live c.alloc) m).map Prod.snd
    else (entryRead c m).map fun _ => m
  | .callback j => m.runCallback j

/-- The events one after the other, the first of which is the `i`-th. -/
def serveAll (al : Allocator A) : ℕ → List Event → RcuHashmap A → Option (RcuHashmap A)
  | _, [], m => some m
  | i, e :: es, m => do
    let m ← serve al i e m
    serveAll al (i + 1) es m

/-! ### The module -/

/-- `proc_entry_hashmap2_init`; a map is what `hello_map` points to when it has succeeded. -/
def init (o : Outcomes) (mem : RcuHashmap A) (cache : ℕ) (s : Held) :
    Option (Option (RcuHashmap A) × Held) := do
  let (ret, s) ← alloc o.exampleEntry .exampleEntry s
  if ret < 0 then some (none, s)
  else
    let (helloMap, s) ← peMapCreate o mem cache s
    match helloMap with
    | none =>
      let s ← Ledger.release .exampleEntry s
      some (none, s)
    | some m =>
      let (ret, s) ← alloc o.helloEntry .helloEntry s
      if ret < 0 then
        let (_, s) ← peMapDestroy o m s
        let s ← Ledger.release .exampleEntry s
        some (none, s)
      else some (some m, s)

/-- `proc_entry_hashmap2_exit`, with the state that it leaves the map in. -/
def exit (o : Outcomes) (m : RcuHashmap A) (s : Held) : Option (RcuHashmap A × Held) := do
  let s ← Ledger.release .helloEntry s
  let (m, s) ← peMapDestroy o m s
  let s ← Ledger.release .exampleEntry s
  some (m, s)

/-- From the load to the unload, or to the load that failed: the map that is left behind, if
there was one, and what is still held. -/
def lifetime (o : Outcomes) (al : Allocator A) (mem : RcuHashmap A) (cache : ℕ)
    (es : List Event) : Option (Option (RcuHashmap A) × Held) := do
  let (helloMap, s) ← init o mem cache ⟨∅, 0⟩
  match helloMap with
  | none => some (none, s)
  | some m =>
    let m ← serveAll al 0 es m
    let (m, s) ← exit o m s
    some (some m, s)

/-! ### What is obtained and given back -/

theorem acquires_alloc (ok : Bool) (p : Resource) : Acquires Ledger.held {p} (alloc ok p) :=
  Ledger.acquires _ p

theorem alloc_true {p : Resource} {s : Held} (hp : p ∉ s.held) :
    alloc true p s = some (0, ⟨insert p s.held, s.calls + 1⟩) := if_neg hp

theorem alloc_false {p : Resource} {s : Held} (hp : p ∉ s.held) :
    alloc false p s = some (-1, ⟨s.held, s.calls + 1⟩) := if_neg hp

/-- What a map consists of. -/
def mapParts : Finset Resource := {.map} ∪ ({.buckets} ∪ {.cache})

theorem acquires_ladder (o : Outcomes) : Acquires Ledger.held mapParts (ladder o) :=
  (acquires_alloc _ _).initThen
    ((acquires_alloc _ _).initThen (acquires_alloc _ _) (Ledger.releases _) (by decide))
    (Ledger.releases _) (by decide)

theorem fails_alloc (ok : Bool) (p : Resource) : Fails (ok = false) (alloc ok p) := by
  intro s ret s' h
  rw [alloc, Ledger.acquire] at h
  split at h
  · exact absurd h (by simp)
  · obtain ⟨rfl, -⟩ := Prod.mk.inj (Option.some.inj h)
    cases ok <;> simp

/-- One of the three allocations of `pe_map_create` fails. -/
def Outcomes.NoMap (o : Outcomes) : Prop := o.map = false ∨ o.buckets = false ∨ o.cache = false

theorem fails_ladder (o : Outcomes) : Fails o.NoMap (ladder o) :=
  (fails_alloc _ _).initThen ((fails_alloc _ _).initThen (fails_alloc _ _))

variable {o : Outcomes} {mem m : RcuHashmap A} {cache : ℕ} {s : Held} {chain : ℕ → List A}
  {σ : Table}

theorem exists_create (mem : RcuHashmap A) (cache : ℕ) :
    ∃ m, create 16 mem true true (some cache) = some m ∧ Holds m (fun _ => []) Table.empty := by
  obtain ⟨m, hm⟩ : ∃ m, create 16 mem true true (some cache) = some m := ⟨_, rfl⟩
  exact ⟨m, hm, holds_create (by decide) hm⟩

/-- **A map, or `NULL` and nothing held.** -/
theorem peMapCreate_spec (o : Outcomes) (mem : RcuHashmap A) (cache : ℕ)
    (hs : Disjoint mapParts s.held) :
    ∃ p s', peMapCreate o mem cache s = some (p, s') ∧
      (¬ o.NoMap ∧ (∃ m, p = some m ∧ Holds m (fun _ => []) Table.empty) ∧
          s'.held = s.held ∪ mapParts ∨
        o.NoMap ∧ p = none ∧ s'.held = s.held) := by
  obtain ⟨ret, s', heq, hcase⟩ := acquires_ladder o s hs
  have hfails := fails_ladder o s ret s' heq
  obtain ⟨m, hm, hholds⟩ := exists_create mem cache
  refine ⟨if ret < 0 then none else some m, s', ?_, ?_⟩
  · rw [peMapCreate, heq, ← hm]
    rfl
  · rcases hcase with ⟨rfl, hheld⟩ | ⟨hneg, hheld⟩
    · exact Or.inl ⟨hfails.not.mp (lt_irrefl 0), ⟨m, if_neg (lt_irrefl 0), hholds⟩, hheld⟩
    · exact Or.inr ⟨hfails.mp hneg, if_pos hneg, hheld⟩

theorem releases_mapParts : Releases Ledger.held mapParts fun s : Held =>
    ((Ledger.release .cache s).bind (Ledger.release .buckets)).bind (Ledger.release .map) := by
  have h : Releases Ledger.held (({.cache} ∪ {.buckets}) ∪ {.map}) fun s : Held =>
      ((Ledger.release .cache s).bind (Ledger.release .buckets)).bind (Ledger.release .map) :=
    ((Ledger.releases Resource.cache).andThen (Ledger.releases Resource.buckets)
      (by decide)).andThen (Ledger.releases Resource.map) (by decide)
  rwa [show (({.cache} ∪ {.buckets}) ∪ {.map} : Finset Resource) = mapParts by decide] at h

/-- **`pe_map_destroy` with memory for the heads** leaves nothing of the map. -/
theorem peMapDestroy_spec (h : Holds m chain σ) (hheads : o.heads = true)
    (hs : mapParts ⊆ s.held) (hfree : Resource.heads ∉ s.held) :
    ∃ m' s', peMapDestroy o m s = some (m', s') ∧ s'.held = s.held \ mapParts ∧
      m'.hlist.live = ∅ ∧ m'.rcu = [] := by
  obtain ⟨freed, m', hdestroy, -, -, -, -, hlive, hrcu⟩ := RcuHashmap.peMapDestroy_spec h
  obtain ⟨⟨_, _⟩, hflush, hrest⟩ := Option.bind_eq_some_iff.mp hdestroy
  obtain ⟨_, hcache, hrest⟩ := Option.bind_eq_some_iff.mp hrest
  obtain ⟨rfl, rfl⟩ := Prod.mk.inj (Option.some.inj hrest)
  obtain ⟨s', hrel, hheld⟩ := releases_mapParts ⟨s.held, s.calls + 1⟩ hs
  refine ⟨_, s', ?_, hheld, hlive, hrcu⟩
  have herase : Ledger.release Resource.heads ⟨insert .heads s.held, s.calls + 1⟩ =
      some ⟨s.held, s.calls + 1⟩ := by
    rw [Ledger.release, if_pos (Finset.mem_insert_self ..)]
    simp [Finset.erase_insert hfree]
  rw [peMapDestroy, peMapFlush, hheads, alloc_true hfree]
  simp only [Option.bind_eq_bind, Option.bind_some, decide_true, hflush, herase, hcache]
  simp only [Option.bind_eq_some_iff] at hrel ⊢
  obtain ⟨s₂, ⟨s₁, h₁, h₂⟩, h₃⟩ := hrel
  exact ⟨s₁, h₁, s₂, h₂, s', h₃, rfl⟩

/-- **Without memory for the heads** the flush writes to address `0`. -/
theorem peMapDestroy_heads (m : RcuHashmap A) (hheads : o.heads = false)
    (hfree : Resource.heads ∉ s.held) : peMapDestroy o m s = none := by
  rw [peMapDestroy, peMapFlush, hheads, alloc_false hfree]
  rfl

/-! ### Between load and unload -/

theorem insert_holds (h : Holds m chain σ) (al : Allocator A) (i : ℕ) (key value : BitVec 64)
    (ok : Bool) : ∃ ret m' chain' τ,
      peMapInsert (al.answer i m.hlist.live ok) key value m = some (ret, m') ∧ Holds m' chain' τ := by
  obtain ⟨m', chain', heq, h'⟩ := exec_spec h al i ⟨.insert key value, ok⟩
  obtain ⟨⟨ret, _⟩, hins, hpair⟩ := Option.map_eq_some_iff.mp heq
  obtain ⟨-, rfl⟩ := Prod.mk.inj hpair
  exact ⟨ret, _, chain', _, hins, h'⟩

theorem remove_holds (h : Holds m chain σ) (key : BitVec 64) :
    ∃ ret m' chain' τ, peMapRemove key m = some (ret, m') ∧ Holds m' chain' τ := by
  rcases remove_cases h key with ⟨_, _, _, _, _, _, heq, h'⟩ | ⟨_, _, heq⟩
  · exact ⟨_, _, _, _, heq, h'⟩
  · exact ⟨_, _, _, _, heq, h⟩

theorem entryWrite_spec (h : Holds m chain σ) (al : Allocator A) (i : ℕ) (c : Call) :
    ∃ ret m' chain' τ, entryWrite c (al.answer i m.hlist.live c.alloc) m = some (ret, m') ∧
      Holds m' chain' τ := by
  rw [entryWrite]
  split_ifs
  · exact ⟨_, m, chain, σ, rfl, h⟩
  · exact ⟨_, m, chain, σ, rfl, h⟩
  · obtain ⟨ret, m', chain', τ, heq, h'⟩ := insert_holds h al i c.key c.value c.alloc
    exact ⟨_, m', chain', τ, by rw [heq]; rfl, h'⟩
  · obtain ⟨ret, m', chain', τ, heq, h'⟩ := remove_holds h c.key
    exact ⟨_, m', chain', τ, by rw [heq]; rfl, h'⟩
  · exact ⟨_, m, chain, σ, rfl, h⟩

theorem entryRead_isSome (h : Holds m chain σ) (c : Call) : ∃ ret, entryRead c m = some ret := by
  obtain ⟨ret, out, hget⟩ : ∃ ret out, peMapGet c.key c.value m = some (ret, out) := by
    rw [peMapGet_spec h]
    cases σ c.key <;> exact ⟨_, _, rfl⟩
  rw [entryRead, hget]
  simp only [Option.bind_eq_bind, Option.bind_some]
  split_ifs <;> exact ⟨_, rfl⟩

theorem serve_spec (h : Holds m chain σ) (al : Allocator A) (i : ℕ) (e : Event) :
    ∃ m' chain' τ, serve al i e m = some m' ∧ Holds m' chain' τ := by
  cases e with
  | callback j =>
    obtain ⟨m', heq, h'⟩ := runCallback_spec h j
    exact ⟨m', chain, σ, heq, h'⟩
  | call c =>
    rw [serve]
    split
    · obtain ⟨ret, m', chain', τ, heq, h'⟩ := entryWrite_spec h al i c
      exact ⟨m', chain', τ, by rw [heq]; rfl, h'⟩
    · obtain ⟨ret, heq⟩ := entryRead_isSome h c
      exact ⟨m, chain, σ, by rw [heq]; rfl, h⟩

/-- **Every sequence of calls and callbacks** goes through, whatever fails in it. -/
theorem serveAll_spec (al : Allocator A) (es : List Event) : ∀ (i : ℕ) {m : RcuHashmap A}
    {chain : ℕ → List A} {σ : Table}, Holds m chain σ →
      ∃ m' chain' τ, serveAll al i es m = some m' ∧ Holds m' chain' τ := by
  induction es with
  | nil => exact fun i m chain σ h => ⟨m, chain, σ, rfl, h⟩
  | cons e es ih =>
    intro i m chain σ h
    obtain ⟨m₁, chain₁, σ₁, heq, h₁⟩ := serve_spec h al i e
    obtain ⟨m₂, chain₂, σ₂, hrun, h₂⟩ := ih (i + 1) h₁
    refine ⟨m₂, chain₂, σ₂, ?_, h₂⟩
    simp only [serveAll, heq, hrun, Option.bind_eq_bind, Option.bind_some]

/-! ### The whole life -/

/-- `pe_map_flush` is reached, by the exit or by an init that fails behind `pe_map_create`. -/
def Outcomes.Flushes (o : Outcomes) : Prop := o.exampleEntry = true ∧ ¬ o.NoMap

theorem release_of_mem {p : Resource} (hp : p ∈ s.held) :
    Ledger.release p s = some { s with held := s.held.erase p } := if_pos hp

theorem create_of_flushes (h : o.Flushes) (mem : RcuHashmap A) (cache : ℕ) :
    ∃ m s₁, peMapCreate o mem cache ⟨{.exampleEntry}, 1⟩ = some (some m, s₁) ∧
      Holds m (fun _ => []) Table.empty ∧ s₁.held = {.exampleEntry} ∪ mapParts := by
  obtain ⟨_, s₁, heq, ⟨-, ⟨m, rfl, hm⟩, hheld⟩ | ⟨hno, -, -⟩⟩ :=
    peMapCreate_spec o mem cache (s := ⟨{.exampleEntry}, 1⟩) (by decide)
  · exact ⟨m, s₁, heq, hm, hheld⟩
  · exact absurd hno h.2

theorem init_early (h : ¬ o.Flushes) (mem : RcuHashmap A) (cache : ℕ) :
    ∃ s', init o mem cache ⟨∅, 0⟩ = some (none, s') ∧ s'.held = ∅ := by
  rw [init]
  by_cases hex : o.exampleEntry = true
  · have hno : o.NoMap := by
      by_contra hno
      exact h ⟨hex, hno⟩
    rw [hex, alloc_true (Finset.notMem_empty _)]
    obtain ⟨_, s₁, heq, ⟨hmap, -, -⟩ | ⟨-, rfl, hheld⟩⟩ :=
      peMapCreate_spec o mem cache (s := ⟨{.exampleEntry}, 1⟩) (by decide)
    · exact absurd hno hmap
    · have hrel := release_of_mem (p := .exampleEntry) (s := s₁) (by simp [hheld])
      refine ⟨{ s₁ with held := s₁.held.erase .exampleEntry }, ?_, by rw [hheld]; rfl⟩
      simp only [Option.bind_eq_bind, Option.bind_some, lt_irrefl, if_false]
      rw [show insert Resource.exampleEntry (∅ : Finset Resource) = {.exampleEntry} from rfl, heq]
      simp only [Option.bind_some, hrel]
  · have hex : o.exampleEntry = false := Bool.eq_false_iff.mpr hex
    rw [hex, alloc_false (Finset.notMem_empty _)]
    exact ⟨_, rfl, rfl⟩

theorem init_created (h : o.Flushes) (mem : RcuHashmap A) (cache : ℕ) :
    ∃ m s₁, Holds m (fun _ => []) Table.empty ∧ s₁.held = {.exampleEntry} ∪ mapParts ∧
      init o mem cache ⟨∅, 0⟩ = (do
        let (ret, s) ← alloc o.helloEntry .helloEntry s₁
        if ret < 0 then
          let (_, s) ← peMapDestroy o m s
          let s ← Ledger.release .exampleEntry s
          some (none, s)
        else some (some m, s)) := by
  obtain ⟨m, s₁, heq, hm, hheld⟩ := create_of_flushes h mem cache
  refine ⟨m, s₁, hm, hheld, ?_⟩
  rw [init, h.1, alloc_true (Finset.notMem_empty _)]
  simp only [Option.bind_eq_bind, Option.bind_some, lt_irrefl, if_false]
  rw [show insert Resource.exampleEntry (∅ : Finset Resource) = {.exampleEntry} from rfl, heq]
  rfl

/-- `pe_map_destroy` and the removal of the directory behind it. -/
theorem destroy_exampleEntry (h : Holds m chain σ) (hheads : o.heads = true)
    (hs : s.held = {.exampleEntry} ∪ mapParts) :
    ∃ m' s₁, peMapDestroy o m s = some (m', s₁) ∧
      Ledger.release .exampleEntry s₁ = some { s₁ with held := ∅ } ∧ m'.hlist.live = ∅ ∧
      m'.rcu = [] := by
  obtain ⟨m', s₁, heq, hheld, hlive, hrcu⟩ := peMapDestroy_spec h hheads
    (by rw [hs]; exact Finset.subset_union_right) (by rw [hs]; decide)
  have hheld : s₁.held = {.exampleEntry} := by
    rw [hheld, hs]
    decide
  refine ⟨m', s₁, heq, ?_, hlive, hrcu⟩
  rw [release_of_mem (by simp [hheld]), hheld]
  rfl

theorem lifetime_clean (hok : o.Flushes → o.heads = true) (al : Allocator A)
    (mem : RcuHashmap A) (cache : ℕ) (es : List Event) :
    ∃ left s, lifetime o al mem cache es = some (left, s) ∧ s.held = ∅ ∧
      ∀ m ∈ left, m.hlist.live = ∅ ∧ m.rcu = [] := by
  by_cases h : o.Flushes
  · obtain ⟨m, s₁, hm, hheld, hinit⟩ := init_created h mem cache
    have hfree : Resource.helloEntry ∉ s₁.held := by
      rw [hheld]
      decide
    rw [lifetime, hinit]
    cases hhello : o.helloEntry with
    | false =>
      rw [alloc_false hfree]
      obtain ⟨m', s₂, hdestroy, hrel, -, -⟩ :=
        destroy_exampleEntry (s := ⟨s₁.held, s₁.calls + 1⟩) hm (hok h) hheld
      refine ⟨none, { s₂ with held := ∅ }, ?_, rfl, by simp⟩
      simp [hdestroy, hrel]
    | true =>
      rw [alloc_true hfree]
      obtain ⟨m₁, chain, σ, hserve, hm₁⟩ := serveAll_spec al es 0 hm
      obtain ⟨m', s₂, hdestroy, hrel, hlive, hrcu⟩ :=
        destroy_exampleEntry (s := ⟨s₁.held, s₁.calls + 1⟩) hm₁ (hok h) hheld
      have hhelloRel : Ledger.release Resource.helloEntry
          ⟨insert .helloEntry s₁.held, s₁.calls + 1⟩ = some ⟨s₁.held, s₁.calls + 1⟩ := by
        rw [release_of_mem (Finset.mem_insert_self ..)]
        simp [Finset.erase_insert hfree]
      refine ⟨some m', { s₂ with held := ∅ }, ?_, rfl, fun m'' hm'' => ?_⟩
      · simp [hserve, exit, hhelloRel, hdestroy, hrel]
      · obtain rfl := Option.mem_some_iff.mp hm''
        exact ⟨hlive, hrcu⟩
  · obtain ⟨s, hinit, hheld⟩ := init_early h mem cache
    exact ⟨none, s, by rw [lifetime, hinit]; rfl, hheld, by simp⟩

/-- **The life of the module when the heads get no memory**: there is an access to address
`0` at its end. -/
theorem lifetime_heads (h : o.Flushes) (hheads : o.heads = false) (al : Allocator A)
    (mem : RcuHashmap A) (cache : ℕ) (es : List Event) : lifetime o al mem cache es = none := by
  obtain ⟨m, s₁, hm, hheld, hinit⟩ := init_created h mem cache
  have hfree : Resource.helloEntry ∉ s₁.held := by
    rw [hheld]
    decide
  have hnot : Resource.heads ∉ s₁.held := by
    rw [hheld]
    decide
  rw [lifetime, hinit]
  cases hhello : o.helloEntry with
  | false =>
    rw [alloc_false hfree]
    have hdestroy := peMapDestroy_heads (s := ⟨s₁.held, s₁.calls + 1⟩) m hheads hnot
    simp [hdestroy]
  | true =>
    rw [alloc_true hfree]
    obtain ⟨m₁, chain, σ, hserve, hm₁⟩ := serveAll_spec al es 0 hm
    have hdestroy := peMapDestroy_heads (s := ⟨s₁.held, s₁.calls + 1⟩) m₁ hheads hnot
    have hhelloRel : Ledger.release Resource.helloEntry
        ⟨insert .helloEntry s₁.held, s₁.calls + 1⟩ = some ⟨s₁.held, s₁.calls + 1⟩ := by
      rw [release_of_mem (Finset.mem_insert_self ..)]
      simp [Finset.erase_insert hfree]
    simp [hserve, exit, hhelloRel, hdestroy]

/-- `pe_map_create` returns a complete map or `NULL`, and then holds nothing; and the module
goes from its load to its end without a fault and gives back all it has obtained. -/
structure Clean (o : Outcomes) (al : Allocator A) (mem : RcuHashmap A) (cache : ℕ)
    (es : List Event) : Prop where
  create : ∀ s : Held, Disjoint mapParts s.held → ∃ p s', peMapCreate o mem cache s = some (p, s') ∧
    ((∃ m, p = some m ∧ Holds m (fun _ => []) Table.empty) ∧ s'.held = s.held ∪ mapParts ∨
      p = none ∧ s'.held = s.held)
  lifetime : ∃ left s, lifetime o al mem cache es = some (left, s) ∧ s.held = ∅ ∧
    ∀ m ∈ left, m.hlist.live = ∅ ∧ m.rcu = []

/-- **When the module survives its allocations failing**: when the `vmalloc` of `pe_map_flush`
succeeds or is not reached, whatever becomes of the others and whatever is done with the
map meanwhile; and then only. -/
theorem lifetime_iff (o : Outcomes) (al : Allocator A) (mem : RcuHashmap A) (cache : ℕ)
    (es : List Event) : Clean o al mem cache es ↔ (o.Flushes → o.heads = true) := by
  constructor
  · rintro ⟨-, left, s, heq, -⟩ h
    by_contra hheads
    rw [lifetime_heads h (Bool.eq_false_iff.mpr hheads)] at heq
    exact absurd heq (by simp)
  · intro hok
    refine ⟨fun s hs => ?_, lifetime_clean hok al mem cache es⟩
    obtain ⟨p, s', heq, hcase⟩ := peMapCreate_spec o mem cache hs
    exact ⟨p, s', heq, hcase.imp And.right And.right⟩

theorem lifetime_faults : ¬ ∀ (o : Outcomes) (es : List Event),
    Clean o counting ⟨PeHashmap.zeroed, fun _ => 0, []⟩ 0 es := by
  intro hclean
  obtain ⟨-, left, s, heq, -⟩ := hclean ⟨true, true, true, true, true, false⟩ []
  rw [lifetime_heads ⟨rfl, by simp [Outcomes.NoMap]⟩ rfl] at heq
  exact absurd heq (by simp)

end CppProgramming.HashMap.Lifetime
