import CppProgramming.HashMap.Spinlock
import CppProgramming.HashMap.Rcu

/-!
# The two hash maps are the same map

Whatever addresses the allocator hands out, whichever allocations fail and
whenever the callbacks of the RCU map run, both maps answer every sequence of
calls as the key-value table does (`same_map`).
-/

namespace CppProgramming.HashMap

/-- **One map, twice.** -/
theorem same_map {A B : Type} [DecidableEq A] [DecidableEq B] {bits : ℕ} (hbits : bits < 32)
    (al : Allocator A) (bl : Allocator B) {mem m : PeHashmap A} {rcuMem n : RcuHashmap B}
    {cache rcuCache : Option ℕ}
    (hm : PeHashmap.create bits mem true true cache = some m)
    (hn : RcuHashmap.create bits rcuMem true true rcuCache = some n) (rs : List Request) :
    (∃ m', Spinlock.run al 0 rs m = some (Table.empty.run rs, m')) ∧
      ∀ es, RcuHashmap.requests es = rs →
        ∃ n', RcuHashmap.run bl 0 es n = some (Table.empty.run rs, n') := by
  refine ⟨?_, ?_⟩
  · obtain ⟨hrep, hlive⟩ := PeHashmap.rep_create hbits hm
    refine Spinlock.run_spec al rs 0 (σ := Table.empty) ⟨hrep, fun a => ?_⟩
    simp [hlive, PeHashmap.Linked]
  · rintro es rfl
    obtain ⟨n', _, _, hrun, _⟩ := RcuHashmap.run_spec bl es 0 (RcuHashmap.holds_create hbits hn)
    exact ⟨n', hrun⟩

/-- Three keys in two buckets; the second insert of the key `1` finds no memory. -/
def someRequests : List Request :=
  [⟨.insert 1 5, true⟩, ⟨.insert 3 6, true⟩, ⟨.insert 2 7, true⟩, ⟨.insert 1 8, false⟩,
    ⟨.insert 3 9, true⟩, ⟨.get 1 0, true⟩, ⟨.remove 3, true⟩, ⟨.get 3 0, true⟩]

theorem same_map_someRequests :
    (∃ m', Spinlock.run counting 0 someRequests PeHashmap.twoBuckets =
        some (Table.empty.run someRequests, m')) ∧
      ∀ es, RcuHashmap.requests es = someRequests →
        ∃ n', RcuHashmap.run counting 0 es RcuHashmap.twoRcuBuckets =
          some (Table.empty.run someRequests, n') :=
  same_map (by decide) counting counting (Option.some_get _).symm (Option.some_get _).symm
    someRequests

end CppProgramming.HashMap
