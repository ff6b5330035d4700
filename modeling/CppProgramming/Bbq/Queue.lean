import CppProgramming.Lib.SemQueue

/-!
# `BoundedBlockingQueue`

`bbq_init`, `bbq_put` and `bbq_take` of `bounded_blocking_queue.cpp`, for any number
of processes that share one queue.  A step is one `sem_wait`, one `sem_post` or one
access to the shared memory: `bbq->p++` is a load and a store, and `memcpy` copies
byte by byte.

The buffer is the memory around `bbq->que`, by the distance from it.  `int`s wrap
around at 32 bits; that is what the index arithmetic of the slots rests on.  Where it
goes wrong an item is stored in front of `bbq->que`, and there `bbq->p` is hit as well;
here the fields are kept apart from the buffer.

`History` is not in the code.  It records which item each `bbq_put` brought into its
critical section, and which `bbq_take` returned what.
-/

namespace CppProgramming.Bbq

open CppProgramming.Lib

/-- The value of an `int` expression whose exact value is `x`. -/
@[irreducible] def wrapInt (x : ℤ) : ℤ := Int.bmod x (2 ^ 32)

theorem wrapInt_eq {x : ℤ} (h₀ : 0 ≤ x) (h : x < 2 ^ 31) : wrapInt x = x := by
  unfold wrapInt
  rw [Int.bmod_eq_of_le] <;> omega

/-- The bytes at an address. -/
abbrev Item := ℕ → UInt8

structure BoundedBlockingQueue where
  mutex : ℕ
  empty : ℕ
  full : ℕ
  itemSize : ℕ
  queueSize : ℕ
  f : ℤ
  p : ℤ
  que : ℤ → UInt8

/-- `bbq_init`; `bbq` is what the memory happens to hold. -/
def bbqInit (bbq : BoundedBlockingQueue) (itemSize queueSize : ℕ) : BoundedBlockingQueue :=
  { bbq with
    f := 0, p := 0, itemSize := itemSize, queueSize := queueSize, mutex := 1, empty := queueSize,
    full := 0 }

/-- `bbq->item_size * (index % bbq->queue_size)` -/
def BoundedBlockingQueue.offset (bbq : BoundedBlockingQueue) (index : ℤ) : ℤ :=
  wrapInt (bbq.itemSize * index.tmod bbq.queueSize)

/-- Where a process is: the call it is in, and the next step of it. -/
inductive Pc
  | idle
  | putEmpty (item : Item)
  | putMutex (item : Item)
  | putRead (item : Item)
  | putWrite (item : Item) (p : ℤ)
  | putCopy (item : Item) (pointer : ℤ) (i : ℕ)
  | putFull
  | takeFull (item : Item)
  | takeMutex (item : Item)
  | takeRead (item : Item)
  | takeWrite (item : Item) (f : ℤ)
  | takeCopy (item : Item) (pointer : ℤ) (i : ℕ)
  | takeEmpty (item : Item)
  | ret (taken : Option Item)

/-- The next step of `bbq_put` and `bbq_take`. -/
def advance (bbq : BoundedBlockingQueue) : Pc → Option (BoundedBlockingQueue × Pc)
  | .putEmpty item => (SemQueue.wait bbq.empty).map fun n => ({ bbq with empty := n }, .putMutex item)
  | .putMutex item => (SemQueue.wait bbq.mutex).map fun n => ({ bbq with mutex := n }, .putRead item)
  | .putRead item => some (bbq, .putWrite item bbq.p)
  | .putWrite item p => some ({ bbq with p := wrapInt (p + 1) }, .putCopy item (bbq.offset p) 0)
  | .putCopy item pointer i =>
    if i < bbq.itemSize then
      some ({ bbq with que := Function.update bbq.que (pointer + i) (item i) },
        .putCopy item pointer (i + 1))
    else some ({ bbq with mutex := bbq.mutex + 1 }, .putFull)
  | .putFull => some ({ bbq with full := bbq.full + 1 }, .ret none)
  | .takeFull item => (SemQueue.wait bbq.full).map fun n => ({ bbq with full := n }, .takeMutex item)
  | .takeMutex item => (SemQueue.wait bbq.mutex).map fun n => ({ bbq with mutex := n }, .takeRead item)
  | .takeRead item => some (bbq, .takeWrite item bbq.f)
  | .takeWrite item f => some ({ bbq with f := wrapInt (f + 1) }, .takeCopy item (bbq.offset f) 0)
  | .takeCopy item pointer i =>
    if i < bbq.itemSize then
      some (bbq, .takeCopy (Function.update item i (bbq.que (pointer + i))) pointer (i + 1))
    else some ({ bbq with mutex := bbq.mutex + 1 }, .takeEmpty item)
  | .takeEmpty item => some ({ bbq with empty := bbq.empty + 1 }, .ret (some item))
  | .idle | .ret _ => none

variable {Pid : Type} [DecidableEq Pid]

/-- What has happened: `puts` are the items of the `bbq_put`s in the order in which they
entered, `stored` of which are in their slots; `takes` `bbq_take`s have entered, `fetched`
of which have copied their item; `ticket` numbers the takes as they enter, and `received`
is what was returned under which number. -/
structure History (Pid : Type) where
  puts : List Item
  stored : ℕ
  takes : ℕ
  fetched : ℕ
  ticket : Pid → ℕ
  received : List (ℕ × Item)

/-- The step of `q` at `c` is recorded. -/
def History.record (h : History Pid) (itemSize : ℕ) (q : Pid) : Pc → History Pid
  | .putMutex item => { h with puts := h.puts ++ [item] }
  | .putCopy _ _ i => if i + 1 = itemSize then { h with stored := h.stored + 1 } else h
  | .takeMutex _ =>
    { h with takes := h.takes + 1, ticket := Function.update h.ticket q h.takes }
  | .takeCopy _ _ i => if i + 1 = itemSize then { h with fetched := h.fetched + 1 } else h
  | .takeEmpty item => { h with received := h.received ++ [(h.ticket q, item)] }
  | _ => h

structure State (Pid : Type) where
  bbq : BoundedBlockingQueue
  pc : Pid → Pc
  history : History Pid

/-- A process calls, makes a step of its call, or goes on behind it.  `item` is the
caller's item, which `bbq_take` overwrites. -/
inductive Label (Pid : Type)
  | put (q : Pid) (item : Item)
  | take (q : Pid) (item : Item)
  | step (q : Pid)
  | ret (q : Pid)

/-- A queue of `queueSize` items of `itemSize` bytes, and the processes that use it. -/
def system (itemSize queueSize : ℕ) : System (State Pid) (Label Pid) where
  init s := (∃ mem, s.bbq = bbqInit mem itemSize queueSize) ∧ (∀ q, s.pc q = .idle) ∧
    s.history.puts = [] ∧ s.history.stored = 0 ∧ s.history.takes = 0 ∧ s.history.fetched = 0 ∧
    s.history.received = []
  step s l t :=
    match l with
    | .put q item => s.pc q = .idle ∧
        t = { s with pc := Function.update s.pc q (.putEmpty item) }
    | .take q item => s.pc q = .idle ∧
        t = { s with pc := Function.update s.pc q (.takeFull item) }
    | .step q => ∃ bbq c, advance s.bbq (s.pc q) = some (bbq, c) ∧
        t = { bbq := bbq, pc := Function.update s.pc q c,
              history := s.history.record s.bbq.itemSize q (s.pc q) }
    | .ret q => ∃ r, s.pc q = .ret r ∧ t = { s with pc := Function.update s.pc q .idle }

/-- Between `sem_wait(&bbq->mutex)` and `sem_post(&bbq->mutex)`. -/
def Pc.inside : Pc → Bool
  | .putRead _ | .putWrite _ _ | .putCopy _ _ _ => true
  | .takeRead _ | .takeWrite _ _ | .takeCopy _ _ _ => true
  | _ => false

/-- Reading a slot. -/
def Pc.reading : Pc → Bool
  | .takeCopy _ _ _ => true
  | _ => false

/-- **What the queue promises**: one process at a time is in its critical section; the
indices stay within the queue; what is stored and not yet fetched is in its slot; no slot
is read before it is filled; and the `k`-th `bbq_take` to enter returns the item of the
`k`-th `bbq_put` to enter. -/
structure Fifo (s : State Pid) : Prop where
  exclusive : ∀ q r, (s.pc q).inside = true → (s.pc r).inside = true → q = r
  nonneg : 0 ≤ s.bbq.p - s.bbq.f
  le : s.bbq.p - s.bbq.f ≤ s.bbq.queueSize
  kept : ∀ k, s.history.fetched ≤ k → k < s.history.stored →
    ∃ item, s.history.puts[k]? = some item ∧
      ∀ j < s.bbq.itemSize, s.bbq.que (s.bbq.offset k + j) = item j
  filled : ∀ q, (s.pc q).reading = true → s.history.ticket q < s.history.stored
  fifo : ∀ k item, (k, item) ∈ s.history.received →
    ∃ item', s.history.puts[k]? = some item' ∧ ∀ j < s.bbq.itemSize, item j = item' j

end CppProgramming.Bbq
