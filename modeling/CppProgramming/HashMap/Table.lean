import Mathlib.Data.Finset.Lattice.Fold
import Mathlib.Logic.Function.Basic
import Mathlib.Order.Lattice.Nat

/-!
# The key-value map that the hash maps implement

A `Table` is a finite map from keys to values, in its own terms: a function that
is `none` at a key that is not bound.  A `Request` is one call of the interface
with the outcome of the one allocation it may make, and `Table.step` says what it
answers and how it changes the map.
-/

namespace CppProgramming.HashMap

/-- The calls.  `out` is what `*value` holds before a `pe_map_get`. -/
inductive Op
  | insert (key value : BitVec 64)
  | remove (key : BitVec 64)
  | get (key out : BitVec 64)

/-- A call, and whether `kmem_cache_alloc` succeeds in it. -/
structure Request where
  op : Op
  alloc : Bool

/-- What a call returns; `out` is what `*value` holds behind a `pe_map_get`. -/
structure Result where
  ret : ℤ
  out : Option (BitVec 64)
deriving DecidableEq

abbrev Table := BitVec 64 → Option (BitVec 64)

namespace Table

def empty : Table := fun _ => none

def step (σ : Table) (r : Request) : Result × Table :=
  match r.op with
  | .insert key value =>
    if r.alloc then (⟨0, none⟩, Function.update σ key (some value)) else (⟨-1, none⟩, σ)
  | .remove key =>
    match σ key with
    | some _ => (⟨0, none⟩, Function.update σ key none)
    | none => (⟨-1, none⟩, σ)
  | .get key out =>
    match σ key with
    | some value => (⟨0, some value⟩, σ)
    | none => (⟨-1, some out⟩, σ)

def run (σ : Table) : List Request → List Result
  | [] => []
  | r :: rs => (σ.step r).1 :: run (σ.step r).2 rs

example : run empty [⟨.insert 1 5, true⟩, ⟨.insert 1 6, false⟩, ⟨.get 1 0, true⟩, ⟨.remove 2, true⟩] =
    [⟨0, none⟩, ⟨-1, none⟩, ⟨0, some 5⟩, ⟨-1, none⟩] := by decide

end Table

/-- An allocator: the address it hands out for the `i`-th request is one that is not
in use. -/
structure Allocator (A : Type) where
  pick : ℕ → Finset A → A
  fresh : ∀ i s, pick i s ∉ s

/-- What `kmem_cache_alloc` answers to the `i`-th request. -/
def Allocator.answer {A : Type} (al : Allocator A) (i : ℕ) (live : Finset A) (ok : Bool) : Option A :=
  if ok then some (al.pick i live) else none

/-- Addresses are numbers, and one above those in use is handed out. -/
def counting : Allocator ℕ where
  pick _ s := s.sup id + 1
  fresh _ s h := by
    have hle : s.sup id + 1 ≤ s.sup id := Finset.le_sup (f := id) h
    omega

end CppProgramming.HashMap
