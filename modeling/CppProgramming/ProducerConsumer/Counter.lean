import CppProgramming.Bbq.Queue
import Mathlib.Algebra.BigOperators.Fin
import Mathlib.Data.Fintype.Sum
import Mathlib.Data.Nat.ModEq

/-!
# Shutdown by a counter

`producer_proc` and `consumer_proc` of
`bounded_blocking_queue_semaphore_mmap_unnamed0/main.cpp`, for `n` producers, `n`
consumers and any `QUEUE_LEN` (`Q`) and `TOTAL_LEN` (`T`).  Each process stops behind the
first of its own accesses that finds the shared counter beyond `TOTAL_LEN`, so that all of
them overshoot it.

A side overshoots by as many accesses as it has processes that have stopped, or are about
to (`Tally.stops`).  When all have, both sides have made the same number of accesses; and
as long as one has not, it is not the one that is missing: a producer that waits for room
finds the queue full and so a consumer running, and a consumer that waits for an item
finds it empty and so a producer running (`exited_of_stuck`).

The semaphores are those of the queue of `Lib.SemQueue`: `abs` forgets the items, and the
counts are kept by the library's rule.
-/

namespace CppProgramming.ProducerConsumer.Counter

open CppProgramming.Lib CppProgramming.Bbq

structure Node where
  id : ℤ
  author : ℤ
  value : ℤ

/-- The next step of a process: the test of the loop, the first semaphore, the mutex, the
access to the slot, the counter, its test, and the two posts. -/
inductive Pc
  | loop
  | slot
  | lock
  | access
  | count
  | test
  | unlock
  | announce
  | exited
deriving DecidableEq

structure Proc where
  pc : Pc
  flag : Bool
  tmp : Node

def Proc.goto (pc : Pc) (c : Proc) : Proc := { c with pc := pc }

/-- `struct Shared`, with the history of the queue. -/
structure Shared where
  queue : ℤ → Node
  f : ℤ
  p : ℤ
  mutex : ℕ
  empty : ℕ
  full : ℕ
  put : List Node
  taken : List Node

def producerProc (Q T : ℕ) (pid value : ℤ) (m : Shared) (c : Proc) : Option (Shared × Proc) :=
  match c.pc with
  | .loop =>
    if c.flag then some (m, ⟨.slot, c.flag, { c.tmp with author := pid, value := value }⟩)
    else some (m, c.goto .exited)
  | .slot => (SemQueue.wait m.empty).map fun k => ({ m with empty := k }, c.goto .lock)
  | .lock => (SemQueue.wait m.mutex).map fun k => ({ m with mutex := k }, c.goto .access)
  | .access =>
    let addr := m.p.tmod Q
    let tmp := { c.tmp with id := m.p }
    some ({ m with queue := Function.update m.queue addr tmp, put := m.put ++ [tmp] },
      ⟨.count, c.flag, tmp⟩)
  | .count => some ({ m with p := wrapInt (m.p + 1) }, c.goto .test)
  | .test => some (m, ⟨.unlock, if m.p > T then false else c.flag, c.tmp⟩)
  | .unlock => some ({ m with mutex := m.mutex + 1 }, c.goto .announce)
  | .announce => some ({ m with full := m.full + 1 }, c.goto .loop)
  | .exited => none

def consumerProc (Q T : ℕ) (m : Shared) (c : Proc) : Option (Shared × Proc) :=
  match c.pc with
  | .loop => if c.flag then some (m, c.goto .slot) else some (m, c.goto .exited)
  | .slot => (SemQueue.wait m.full).map fun k => ({ m with full := k }, c.goto .lock)
  | .lock => (SemQueue.wait m.mutex).map fun k => ({ m with mutex := k }, c.goto .access)
  | .access =>
    let addr := m.f.tmod Q
    let tmp := m.queue addr
    some ({ m with taken := m.taken ++ [tmp] }, ⟨.count, c.flag, tmp⟩)
  | .count => some ({ m with f := wrapInt (m.f + 1) }, c.goto .test)
  | .test => some (m, ⟨.unlock, if m.f > T then false else c.flag, c.tmp⟩)
  | .unlock => some ({ m with mutex := m.mutex + 1 }, c.goto .announce)
  | .announce => some ({ m with empty := m.empty + 1 }, c.goto .loop)
  | .exited => none

/-- The producers, then the consumers. -/
abbrev Pid (n : ℕ) := Fin n ⊕ Fin n

structure State (n : ℕ) where
  shared : Shared
  proc : Pid n → Proc

/-- A step of a process, and what `rand` answers a producer that begins a round. -/
structure Label (n : ℕ) where
  q : Pid n
  value : ℤ

variable {n : ℕ}

def procStep (Q T : ℕ) (pid : Pid n → ℤ) (l : Label n) (m : Shared) (c : Proc) :
    Option (Shared × Proc) :=
  match l.q with
  | .inl _ => producerProc Q T (pid l.q) l.value m c
  | .inr _ => consumerProc Q T m c

def State.next (Q T : ℕ) (pid : Pid n → ℤ) (s : State n) (l : Label n) : Option (State n) :=
  (procStep Q T pid l s.shared (s.proc l.q)).map fun r => ⟨r.1, Function.update s.proc l.q r.2⟩

/-- The program behind `main`'s `fork`s; neither the file behind the queue nor the `tmp`s are
initialised.  `main` does not look whether `sem_init` refuses `QUEUE_LEN`, and `empty` then holds
what is in the file. -/
def start (Q : ℕ) (queue : ℤ → Node) (empty : ℕ) (tmp : Pid n → Node) : State n where
  shared := ⟨queue, 0, 0, 1, if Q ≤ SemQueue.semValueMax then Q else empty, 0, [], []⟩
  proc q := ⟨.loop, true, tmp q⟩

def system (n Q T : ℕ) (pid : Pid n → ℤ) : System (State n) (Label n) :=
  System.ofStep (fun s => ∃ queue empty tmp, s = start Q queue empty tmp) (State.next Q T pid)

/-! ### The semaphores -/

/-- The place of a producer in the queue of the library. -/
def producerPc : Pc → SemQueue.Pc Unit
  | .loop | .exited => .idle
  | .slot => .putEmpty ()
  | .lock => .putMutex ()
  | .access => .putIn ()
  | .count | .test | .unlock => .putPushed
  | .announce => .putFull

def consumerPc : Pc → SemQueue.Pc Unit
  | .loop | .exited => .idle
  | .slot => .takeFull
  | .lock => .takeMutex
  | .access => .takeIn
  | .count | .test | .unlock => .takePopped ()
  | .announce => .takeEmpty ()

def absPc (q : Pid n) (c : Proc) : SemQueue.Pc Unit :=
  match q with
  | .inl _ => producerPc c.pc
  | .inr _ => consumerPc c.pc

/-- The queue without the items. -/
def absShared (m : Shared) : SemQueue.Shared Unit :=
  ⟨m.mutex, m.empty, m.full, List.replicate m.put.length (), m.taken.length⟩

def abs (s : State n) : SemQueue.State (Pid n) Unit Unit :=
  ⟨absShared s.shared, fun q => absPc q (s.proc q), fun _ => ()⟩

theorem abs_update (s : State n) (m : Shared) (q : Pid n) (c : Proc) :
    abs ⟨m, Function.update s.proc q c⟩ =
      ⟨absShared m, Function.update (abs s).pc q (absPc q c), fun _ => ()⟩ := by
  have hpc : (fun r => absPc r (Function.update s.proc q c r)) =
      Function.update (abs s).pc q (absPc q c) := by
    funext r
    by_cases hr : r = q
    · subst hr
      rw [Function.update_self, Function.update_self]
    · rw [Function.update_of_ne hr, Function.update_of_ne hr]
      rfl
  rw [abs, hpc]

variable {Q T : ℕ} {pid : Pid n → ℤ} {s t : State n} {m m' : Shared} {c c' : Proc} {l : Label n}
  {q : Pid n}

theorem procStep_counts (h : procStep Q T pid l m c = some (m', c')) :
    m'.mutex + (absPc l.q c').inside = m.mutex + (absPc l.q c).inside ∧
    m'.full + (absPc l.q c').item + m'.taken.length + m.put.length =
      m.full + (absPc l.q c).item + m.taken.length + m'.put.length ∧
    m'.empty + (absPc l.q c').room + m'.put.length + m.taken.length =
      m.empty + (absPc l.q c).room + m.put.length + m'.taken.length := by
  obtain ⟨q, value⟩ := l
  obtain ⟨pc, flag, tmp⟩ := c
  cases q with
  | inl i =>
    cases pc with
    | exited => exact absurd h (by simp [procStep, producerProc])
    | loop =>
      cases flag <;> obtain ⟨rfl, rfl⟩ := Prod.mk.inj (Option.some.inj h) <;> exact ⟨rfl, rfl, rfl⟩
    | slot | lock =>
      obtain ⟨k, hk, heq⟩ := Option.map_eq_some_iff.mp h
      obtain ⟨rfl, rfl⟩ := Prod.mk.inj heq
      have hsem := SemQueue.wait_eq_some hk
      refine ⟨?_, ?_, ?_⟩ <;> simp +arith only [hsem, absPc, producerPc, Proc.goto,
        SemQueue.Pc.inside, SemQueue.Pc.item, SemQueue.Pc.room]
    | access | count | test | unlock | announce =>
      obtain ⟨rfl, rfl⟩ := Prod.mk.inj (Option.some.inj h)
      refine ⟨?_, ?_, ?_⟩ <;> simp +arith only [absPc, producerPc, Proc.goto,
        SemQueue.Pc.inside, SemQueue.Pc.item, SemQueue.Pc.room, List.length_append,
        List.length_singleton]
  | inr i =>
    cases pc with
    | exited => exact absurd h (by simp [procStep, consumerProc])
    | loop =>
      cases flag <;> obtain ⟨rfl, rfl⟩ := Prod.mk.inj (Option.some.inj h) <;> exact ⟨rfl, rfl, rfl⟩
    | slot | lock =>
      obtain ⟨k, hk, heq⟩ := Option.map_eq_some_iff.mp h
      obtain ⟨rfl, rfl⟩ := Prod.mk.inj heq
      have hsem := SemQueue.wait_eq_some hk
      refine ⟨?_, ?_, ?_⟩ <;> simp +arith only [hsem, absPc, consumerPc, Proc.goto,
        SemQueue.Pc.inside, SemQueue.Pc.item, SemQueue.Pc.room]
    | access | count | test | unlock | announce =>
      obtain ⟨rfl, rfl⟩ := Prod.mk.inj (Option.some.inj h)
      refine ⟨?_, ?_, ?_⟩ <;> simp +arith only [absPc, consumerPc, Proc.goto,
        SemQueue.Pc.inside, SemQueue.Pc.item, SemQueue.Pc.room, List.length_append,
        List.length_singleton]

theorem next_eq_some (h : s.next Q T pid l = some t) : ∃ m' c',
    procStep Q T pid l s.shared (s.proc l.q) = some (m', c') ∧
      t = ⟨m', Function.update s.proc l.q c'⟩ := by
  obtain ⟨⟨m', c'⟩, hstep, rfl⟩ := Option.map_eq_some_iff.mp h
  exact ⟨m', c', hstep, rfl⟩

/-- **A step of one side**, which has the counter `x` and made `N` accesses so far: what the
loops of the producers and the consumers have in common. -/
inductive SideStep (T : ℕ) : ℤ → ℕ → Proc → ℤ → ℕ → Proc → Prop
  | again {x : ℤ} {N : ℕ} {c : Proc} (tmp : Node) (hpc : c.pc = .loop) (hflag : c.flag = true) :
    SideStep T x N c x N ⟨.slot, c.flag, tmp⟩
  | finish {x : ℤ} {N : ℕ} {c : Proc} (hpc : c.pc = .loop) (hflag : c.flag = false) :
    SideStep T x N c x N (c.goto .exited)
  | pass {x : ℤ} {N : ℕ} {c : Proc} {p : Pc}
    (hpc : c.pc = .slot ∧ p = .lock ∨ c.pc = .lock ∧ p = .access ∨
      c.pc = .unlock ∧ p = .announce ∨ c.pc = .announce ∧ p = .loop) :
    SideStep T x N c x N (c.goto p)
  | access {x : ℤ} {N : ℕ} {c : Proc} (tmp : Node) (hpc : c.pc = .access) :
    SideStep T x N c x (N + 1) ⟨.count, c.flag, tmp⟩
  | count {x : ℤ} {N : ℕ} {c : Proc} (hpc : c.pc = .count) :
    SideStep T x N c (wrapInt (x + 1)) N (c.goto .test)
  | test {x : ℤ} {N : ℕ} {c : Proc} (hpc : c.pc = .test) :
    SideStep T x N c x N ⟨.unlock, if x > T then false else c.flag, c.tmp⟩

theorem producerProc_side {i value : ℤ} (h : producerProc Q T i value m c = some (m', c')) :
    SideStep T m.p m.put.length c m'.p m'.put.length c' ∧ m'.f = m.f ∧ m'.taken = m.taken ∧
      (c.pc = .access ∨ m'.queue = m.queue ∧ m'.put = m.put) := by
  cases hpc : c.pc with
  | exited => exact absurd h (by simp [producerProc, hpc])
  | loop =>
    rw [producerProc, hpc] at h
    dsimp only at h
    split at h
    · obtain ⟨rfl, rfl⟩ := Prod.mk.inj (Option.some.inj h)
      exact ⟨.again _ hpc ‹_›, rfl, rfl, Or.inr ⟨rfl, rfl⟩⟩
    · obtain ⟨rfl, rfl⟩ := Prod.mk.inj (Option.some.inj h)
      exact ⟨.finish hpc (Bool.eq_false_iff.mpr ‹_›), rfl, rfl, Or.inr ⟨rfl, rfl⟩⟩
  | slot =>
    rw [producerProc, hpc] at h
    obtain ⟨k, -, heq⟩ := Option.map_eq_some_iff.mp h
    obtain ⟨rfl, rfl⟩ := Prod.mk.inj heq
    exact ⟨.pass (Or.inl ⟨hpc, rfl⟩), rfl, rfl, Or.inr ⟨rfl, rfl⟩⟩
  | lock =>
    rw [producerProc, hpc] at h
    obtain ⟨k, -, heq⟩ := Option.map_eq_some_iff.mp h
    obtain ⟨rfl, rfl⟩ := Prod.mk.inj heq
    exact ⟨.pass (Or.inr (Or.inl ⟨hpc, rfl⟩)), rfl, rfl, Or.inr ⟨rfl, rfl⟩⟩
  | access =>
    rw [producerProc, hpc] at h
    obtain ⟨rfl, rfl⟩ := Prod.mk.inj (Option.some.inj h)
    refine ⟨?_, rfl, rfl, Or.inl rfl⟩
    rw [List.length_append, List.length_singleton]
    exact .access _ hpc
  | count =>
    rw [producerProc, hpc] at h
    obtain ⟨rfl, rfl⟩ := Prod.mk.inj (Option.some.inj h)
    exact ⟨.count hpc, rfl, rfl, Or.inr ⟨rfl, rfl⟩⟩
  | test =>
    rw [producerProc, hpc] at h
    obtain ⟨rfl, rfl⟩ := Prod.mk.inj (Option.some.inj h)
    exact ⟨.test hpc, rfl, rfl, Or.inr ⟨rfl, rfl⟩⟩
  | unlock =>
    rw [producerProc, hpc] at h
    obtain ⟨rfl, rfl⟩ := Prod.mk.inj (Option.some.inj h)
    exact ⟨.pass (Or.inr (Or.inr (Or.inl ⟨hpc, rfl⟩))), rfl, rfl, Or.inr ⟨rfl, rfl⟩⟩
  | announce =>
    rw [producerProc, hpc] at h
    obtain ⟨rfl, rfl⟩ := Prod.mk.inj (Option.some.inj h)
    exact ⟨.pass (Or.inr (Or.inr (Or.inr ⟨hpc, rfl⟩))), rfl, rfl, Or.inr ⟨rfl, rfl⟩⟩

theorem consumerProc_side (h : consumerProc Q T m c = some (m', c')) :
    SideStep T m.f m.taken.length c m'.f m'.taken.length c' ∧ m'.p = m.p ∧ m'.put = m.put ∧
      m'.queue = m.queue ∧ (c.pc = .access ∨ m'.taken = m.taken) := by
  cases hpc : c.pc with
  | exited => exact absurd h (by simp [consumerProc, hpc])
  | loop =>
    rw [consumerProc, hpc] at h
    dsimp only at h
    split at h
    · obtain ⟨rfl, rfl⟩ := Prod.mk.inj (Option.some.inj h)
      exact ⟨.again _ hpc ‹_›, rfl, rfl, rfl, Or.inr rfl⟩
    · obtain ⟨rfl, rfl⟩ := Prod.mk.inj (Option.some.inj h)
      exact ⟨.finish hpc (Bool.eq_false_iff.mpr ‹_›), rfl, rfl, rfl, Or.inr rfl⟩
  | slot =>
    rw [consumerProc, hpc] at h
    obtain ⟨k, -, heq⟩ := Option.map_eq_some_iff.mp h
    obtain ⟨rfl, rfl⟩ := Prod.mk.inj heq
    exact ⟨.pass (Or.inl ⟨hpc, rfl⟩), rfl, rfl, rfl, Or.inr rfl⟩
  | lock =>
    rw [consumerProc, hpc] at h
    obtain ⟨k, -, heq⟩ := Option.map_eq_some_iff.mp h
    obtain ⟨rfl, rfl⟩ := Prod.mk.inj heq
    exact ⟨.pass (Or.inr (Or.inl ⟨hpc, rfl⟩)), rfl, rfl, rfl, Or.inr rfl⟩
  | access =>
    rw [consumerProc, hpc] at h
    obtain ⟨rfl, rfl⟩ := Prod.mk.inj (Option.some.inj h)
    refine ⟨?_, rfl, rfl, rfl, Or.inl rfl⟩
    rw [List.length_append, List.length_singleton]
    exact .access _ hpc
  | count =>
    rw [consumerProc, hpc] at h
    obtain ⟨rfl, rfl⟩ := Prod.mk.inj (Option.some.inj h)
    exact ⟨.count hpc, rfl, rfl, rfl, Or.inr rfl⟩
  | test =>
    rw [consumerProc, hpc] at h
    obtain ⟨rfl, rfl⟩ := Prod.mk.inj (Option.some.inj h)
    exact ⟨.test hpc, rfl, rfl, rfl, Or.inr rfl⟩
  | unlock =>
    rw [consumerProc, hpc] at h
    obtain ⟨rfl, rfl⟩ := Prod.mk.inj (Option.some.inj h)
    exact ⟨.pass (Or.inr (Or.inr (Or.inl ⟨hpc, rfl⟩))), rfl, rfl, rfl, Or.inr rfl⟩
  | announce =>
    rw [consumerProc, hpc] at h
    obtain ⟨rfl, rfl⟩ := Prod.mk.inj (Option.some.inj h)
    exact ⟨.pass (Or.inr (Or.inr (Or.inr ⟨hpc, rfl⟩))), rfl, rfl, rfl, Or.inr rfl⟩

theorem counts_start (hQ : Q ≤ SemQueue.semValueMax) (queue : ℤ → Node) (empty : ℕ)
    (tmp : Pid n → Node) : SemQueue.Counts (some Q) (abs (start Q queue empty tmp)) := by
  refine ⟨?_, ?_, fun k hk => ?_, fun h => absurd h (by simp)⟩
  · simp [SemQueue.Pc.inside, abs, absShared, start, absPc, producerPc, consumerPc]
  · simp [SemQueue.Pc.item, abs, absShared, start, absPc, producerPc, consumerPc]
  · obtain rfl := Option.some.inj hk
    simp [SemQueue.Pc.room, abs, absShared, start, absPc, producerPc, consumerPc, hQ]

theorem counts_step (h : SemQueue.Counts (some Q) (abs s)) (ht : s.next Q T pid l = some t) :
    SemQueue.Counts (some Q) (abs t) := by
  obtain ⟨m', c', hstep, rfl⟩ := next_eq_some ht
  obtain ⟨hmutex, hitems, hroom⟩ := procStep_counts hstep
  rw [abs_update]
  refine h.goto ⟨hmutex, ?_, fun _ => ?_⟩ fun hnone => absurd hnone (by simp)
  · simpa [abs, absShared] using hitems
  · simpa [abs, absShared] using hroom

theorem alone (h : SemQueue.Counts (some Q) (abs s)) {r : Pid n}
    (hq : (absPc q (s.proc q)).inside = 1) (hr : r ≠ q) : (absPc r (s.proc r)).inside = 0 :=
  h.alone hq hr

/-! ### One side -/

/-- The critical section. -/
def Pc.inside (pc : Pc) : Prop := pc = .access ∨ pc = .count ∨ pc = .test ∨ pc = .unlock

/-- Between its access and the counter. -/
def Proc.counting (c : Proc) : ℕ := if c.pc = .count then 1 else 0

/-- Stopped, or about to when the counter is over the limit. -/
def Proc.stopping (past : Bool) (c : Proc) : ℕ :=
  if c.flag = false then 1
  else if past = true ∧ (c.pc = .count ∨ c.pc = .test) then 1
  else 0

/-- A process that has stopped makes no access any more. -/
structure Proc.Sound (c : Proc) : Prop where
  running : c.flag = false → c.pc = .unlock ∨ c.pc = .announce ∨ c.pc = .loop ∨ c.pc = .exited
  exited : c.pc = .exited → c.flag = false

theorem Proc.Sound.busy (h : c.Sound)
    (hpc : c.pc = .slot ∨ c.pc = .lock ∨ c.pc = .access ∨ c.pc = .count ∨ c.pc = .test) :
    c.flag = true := by
  by_contra hne
  have hrest := h.running (by simpa using hne)
  rcases hpc with hpc | hpc | hpc | hpc | hpc <;> simp [hpc] at hrest

/-- **The tally of a side** with the counter `x` and `N` accesses so far: the counter is at most
one process behind, and as many processes have stopped as there were accesses beyond the
limit. -/
structure Tally (T : ℕ) (x : ℤ) (N : ℕ) (g : Fin n → Proc) : Prop where
  nonneg : 0 ≤ x
  value : x + (∑ i, (g i).counting : ℕ) = N
  stops : ∑ i, (g i).stopping (decide (T < N)) = N - T
  sound : ∀ i, (g i).Sound

namespace Tally

variable {x : ℤ} {N : ℕ} {g : Fin n → Proc} {i : Fin n}

theorem sound_update (h : Tally T x N g) (hc : c.Sound) (j : Fin n) :
    (Function.update g i c j).Sound := by
  by_cases hj : j = i
  · subst hj
    rwa [Function.update_self]
  · rw [Function.update_of_ne hj]
    exact h.sound j

theorem goto (h : Tally T x N g) (hcount : c.counting = (g i).counting)
    (hstop : c.stopping (decide (T < N)) = (g i).stopping (decide (T < N))) (hc : c.Sound) :
    Tally T x N (Function.update g i c) := by
  refine ⟨h.nonneg, ?_, ?_, h.sound_update hc⟩
  · have hsum := sum_update Proc.counting g i c
    have := h.value
    omega
  · have hsum := sum_update (Proc.stopping (decide (T < N))) g i c
    have := h.stops
    omega

theorem init (tmp : Fin n → Node) : Tally T 0 0 fun i => ⟨.loop, true, tmp i⟩ where
  nonneg := le_rfl
  value := by simp [Proc.counting]
  stops := by simp [Proc.stopping]
  sound i := ⟨fun hf => by simp at hf, fun hexit => by simp at hexit⟩

theorem pass (h : Tally T x N g) {p : Pc}
    (hpc : (g i).pc = .slot ∧ p = .lock ∨ (g i).pc = .lock ∧ p = .access ∨
      (g i).pc = .unlock ∧ p = .announce ∨ (g i).pc = .announce ∧ p = .loop) :
    Tally T x N (Function.update g i ((g i).goto p)) := by
  have hsound := h.sound i
  rcases hpc with ⟨hpc, rfl⟩ | ⟨hpc, rfl⟩ | ⟨hpc, rfl⟩ | ⟨hpc, rfl⟩
  · have hflag := hsound.busy (Or.inl hpc)
    refine h.goto ?_ ?_ ⟨fun hf => ?_, fun hexit => by simp [Proc.goto] at hexit⟩
    · simp [Proc.counting, Proc.goto, hpc]
    · simp [Proc.stopping, Proc.goto, hpc]
    · exact absurd hf (by simp [Proc.goto, hflag])
  · have hflag := hsound.busy (Or.inr (Or.inl hpc))
    refine h.goto ?_ ?_ ⟨fun hf => ?_, fun hexit => by simp [Proc.goto] at hexit⟩
    · simp [Proc.counting, Proc.goto, hpc]
    · simp [Proc.stopping, Proc.goto, hpc]
    · exact absurd hf (by simp [Proc.goto, hflag])
  · refine h.goto ?_ ?_ ⟨fun _ => Or.inr (Or.inl rfl), fun hexit => by simp [Proc.goto] at hexit⟩
    · simp [Proc.counting, Proc.goto, hpc]
    · simp [Proc.stopping, Proc.goto, hpc]
  · refine h.goto ?_ ?_ ⟨fun _ => Or.inr (Or.inr (Or.inl rfl)),
      fun hexit => by simp [Proc.goto] at hexit⟩
    · simp [Proc.counting, Proc.goto, hpc]
    · simp [Proc.stopping, Proc.goto, hpc]

theorem again (h : Tally T x N g) (hpc : (g i).pc = .loop) (hflag : (g i).flag = true)
    (tmp : Node) : Tally T x N (Function.update g i ⟨.slot, (g i).flag, tmp⟩) := by
  refine h.goto ?_ ?_ ⟨fun hf => ?_, fun hexit => by simp at hexit⟩
  · simp [Proc.counting, hpc]
  · simp [Proc.stopping, hpc]
  · exact absurd hf (by simp [hflag])

theorem finish (h : Tally T x N g) (hpc : (g i).pc = .loop) (hflag : (g i).flag = false) :
    Tally T x N (Function.update g i ((g i).goto .exited)) := by
  refine h.goto ?_ ?_ ⟨fun _ => Or.inr (Or.inr (Or.inr rfl)), fun _ => hflag⟩
  · simp [Proc.counting, Proc.goto, hpc]
  · simp [Proc.stopping, Proc.goto, hpc]

theorem value_eq (h : Tally T x N g) (hcount : ∀ j, (g j).pc ≠ .count) : x = N := by
  have hzero : ∑ j, (g j).counting = 0 :=
    Finset.sum_eq_zero fun j _ => by rw [Proc.counting, if_neg (hcount j)]
  have := h.value
  omega

/-- **No side makes more than `T + n` accesses.** -/
theorem le (h : Tally T x N g) : N ≤ T + n := by
  have hle : ∑ j, (g j).stopping (decide (T < N)) ≤ ∑ _j : Fin n, 1 := by
    refine Finset.sum_le_sum fun j _ => ?_
    rw [Proc.stopping]
    split
    · exact le_rfl
    · split
      · exact le_rfl
      · exact Nat.zero_le 1
  have := h.stops
  simp only [Finset.sum_const, Finset.card_univ, Fintype.card_fin, smul_eq_mul, mul_one] at hle
  omega

theorem access (h : Tally T x N g) (hpc : (g i).pc = .access)
    (hothers : ∀ j, j ≠ i → (g j).pc ≠ .count ∧ (g j).pc ≠ .test) (tmp : Node) :
    Tally T x (N + 1) (Function.update g i ⟨.count, (g i).flag, tmp⟩) := by
  have hflag := (h.sound i).busy (by simp [hpc])
  refine ⟨h.nonneg, ?_, ?_, h.sound_update ⟨fun hf => ?_, fun hexit => by simp at hexit⟩⟩
  · have hsum := sum_update Proc.counting g i ⟨.count, (g i).flag, tmp⟩
    have hbefore : (g i).counting = 0 := by simp [Proc.counting, hpc]
    have hafter : (⟨.count, (g i).flag, tmp⟩ : Proc).counting = 1 := rfl
    have := h.value
    omega
  · have hsame : ∀ j, j ≠ i → (g j).stopping (decide (T < N + 1)) =
        (g j).stopping (decide (T < N)) := by
      intro j hj
      simp [Proc.stopping, hothers j hj]
    have hsum := sum_add_eq (fun j => (g j).stopping (decide (T < N)))
      (fun j => (Function.update g i ⟨.count, (g i).flag, tmp⟩ j).stopping (decide (T < N + 1))) i
      fun j hj => by rw [Function.update_of_ne hj, hsame j hj]
    have hbefore : (g i).stopping (decide (T < N)) = 0 := by simp [Proc.stopping, hflag, hpc]
    have hafter : (⟨.count, (g i).flag, tmp⟩ : Proc).stopping (decide (T < N + 1)) =
        if T < N + 1 then 1 else 0 := by simp [Proc.stopping, hflag]
    rw [Function.update_self, hbefore, hafter] at hsum
    have := h.stops
    split at hsum <;> omega
  · exact absurd hf (by simp [hflag])

theorem count (h : Tally T x N g) (hpc : (g i).pc = .count) :
    Tally T (x + 1) N (Function.update g i ((g i).goto .test)) := by
  have hflag := (h.sound i).busy (by simp [hpc])
  have hnonneg := h.nonneg
  refine ⟨by omega, ?_, ?_,
    h.sound_update ⟨fun hf => ?_, fun hexit => by simp [Proc.goto] at hexit⟩⟩
  · have hsum := sum_update Proc.counting g i ((g i).goto .test)
    have hbefore : (g i).counting = 1 := by simp [Proc.counting, hpc]
    have hafter : ((g i).goto .test).counting = 0 := rfl
    have := h.value
    omega
  · have hsum := sum_update (Proc.stopping (decide (T < N))) g i ((g i).goto .test)
    have hsame : ((g i).goto .test).stopping (decide (T < N)) =
        (g i).stopping (decide (T < N)) := by simp [Proc.stopping, Proc.goto, hpc]
    have := h.stops
    omega
  · exact absurd hf (by simp [Proc.goto, hflag])

/-- The test of the counter stops a process exactly beyond the limit. -/
theorem test (h : Tally T x N g) (hpc : (g i).pc = .test) (hx : x = N) :
    Tally T x N (Function.update g i ⟨.unlock, if x > T then false else (g i).flag, (g i).tmp⟩) := by
  have hflag := (h.sound i).busy (by simp [hpc])
  refine h.goto ?_ ?_ ⟨fun _ => Or.inl rfl, fun hexit => by simp at hexit⟩
  · simp [Proc.counting, hpc]
  · by_cases hT : T < N
    · have hgt : x > T := by omega
      simp [Proc.stopping, hflag, hpc, hT, hgt]
    · have hgt : ¬ x > T := by omega
      simp [Proc.stopping, hflag, hT, hgt]

/-- **Every step of a side keeps its tally.** -/
theorem step (h : Tally T x N g) (hT : T + n < 2 ^ 31) {x' : ℤ} {N' : ℕ}
    (hstep : SideStep T x N (g i) x' N' c)
    (hothers : (g i).pc.inside → ∀ j, j ≠ i → (g j).pc ≠ .count ∧ (g j).pc ≠ .test) :
    Tally T x' N' (Function.update g i c) := by
  cases hstep with
  | again tmp hpc hflag => exact h.again hpc hflag tmp
  | finish hpc hflag => exact h.finish hpc hflag
  | pass hpc => exact h.pass hpc
  | access tmp hpc => exact h.access hpc (hothers (Or.inl hpc)) tmp
  | count hpc =>
    have hcount := h.count hpc
    have hnonneg := hcount.nonneg
    have hvalue := hcount.value
    have hle := h.le
    rwa [wrapInt_eq hnonneg (by omega)]
  | test hpc =>
    refine h.test hpc (h.value_eq fun j => ?_)
    by_cases hj : j = i
    · rw [hj, hpc]
      simp
    · exact (hothers (Or.inr (Or.inr (Or.inl hpc))) j hj).1

end Tally

/-! ### The history -/

/-- **What the slots hold**: the items are numbered in the order of the puts, those that are not
taken are in their slots, and those that are taken were taken in order. -/
structure History (Q : ℕ) (m : Shared) : Prop where
  ids : ∀ (i : ℕ) (node : Node), m.put[i]? = some node → node.id = i
  slots : ∀ i : ℕ, m.taken.length ≤ i → i < m.put.length →
    m.put[i]? = some (m.queue ((i % Q : ℕ) : ℤ))
  taken : m.taken = m.put.take m.taken.length

namespace History

theorem put (h : History Q m) (hle : m.taken.length ≤ m.put.length)
    (hroom : m.put.length < Q + m.taken.length) {node : Node} (hid : node.id = m.put.length) :
    History Q { m with
      queue := Function.update m.queue ((m.put.length % Q : ℕ) : ℤ) node
      put := m.put ++ [node] } where
  ids i v hv := by
    by_cases hi : i < m.put.length
    · rw [List.getElem?_append_left hi] at hv
      exact h.ids i v hv
    · rw [List.getElem?_append_right (Nat.le_of_not_lt hi)] at hv
      obtain ⟨hlen, hv⟩ := List.getElem?_eq_some_iff.mp hv
      have hi : i = m.put.length := by
        simp only [List.length_singleton] at hlen
        omega
      subst hi
      simp only [Nat.sub_self, List.getElem_singleton] at hv
      rw [← hv, hid]
  slots i hi hlt := by
    by_cases hilt : i < m.put.length
    · have hne : ((i % Q : ℕ) : ℤ) ≠ ((m.put.length % Q : ℕ) : ℤ) := by
        intro heq
        have hmod : i ≡ m.put.length [MOD Q] := Int.ofNat.inj heq
        have hdvd := (Nat.modEq_iff_dvd' hilt.le).mp hmod
        have hle := Nat.le_of_dvd (by omega) hdvd
        have hi : m.taken.length ≤ i := hi
        omega
      show (m.put ++ [node])[i]? = some (Function.update m.queue _ node _)
      rw [List.getElem?_append_left hilt, Function.update_of_ne hne]
      exact h.slots i hi hilt
    · have hi : i = m.put.length := by
        simp only [List.length_append, List.length_singleton] at hlt
        omega
      subst hi
      show (m.put ++ [node])[m.put.length]? = some (Function.update m.queue _ node _)
      rw [Function.update_self, List.getElem?_concat_length]
  taken := by
    show m.taken = (m.put ++ [node]).take m.taken.length
    rw [List.take_append_of_le_length hle]
    exact h.taken

theorem take (h : History Q m) (hlt : m.taken.length < m.put.length) :
    History Q { m with
      taken := m.taken ++ [m.queue ((m.taken.length % Q : ℕ) : ℤ)] } where
  ids := h.ids
  slots i hi hilt := by
    have hi : m.taken.length ≤ i := by
      simp only [List.length_append, List.length_singleton] at hi
      omega
    exact h.slots i hi hilt
  taken := by
    show m.taken ++ [_] = m.put.take (m.taken ++ [_]).length
    rw [List.length_append, List.length_singleton, List.take_add_one,
      h.slots m.taken.length le_rfl hlt, ← h.taken]
    rfl

end History

/-! ### The invariant -/

structure Inv (Q T : ℕ) (s : State n) : Prop where
  counts : SemQueue.Counts (some Q) (abs s)
  producers : Tally T s.shared.p s.shared.put.length (s.proc ∘ Sum.inl)
  consumers : Tally T s.shared.f s.shared.taken.length (s.proc ∘ Sum.inr)
  history : History Q s.shared

theorem inside_absPc : (absPc q c).inside = 1 ↔ c.pc.inside := by
  obtain ⟨pc, flag, tmp⟩ := c
  cases q <;> cases pc <;> simp [absPc, producerPc, consumerPc, SemQueue.Pc.inside, Pc.inside]

theorem inside_absPc_of_not (h : ¬ c.pc.inside) : (absPc q c).inside = 0 := by
  obtain ⟨pc, flag, tmp⟩ := c
  cases q <;> cases pc <;> simp_all [absPc, producerPc, consumerPc, SemQueue.Pc.inside, Pc.inside]

namespace Inv

variable {i : Fin n}

/-- While a process is inside no other counts or tests. -/
theorem others (h : Inv Q T s) (hq : (s.proc q).pc.inside) {r : Pid n} (hr : r ≠ q) :
    (s.proc r).pc ≠ .count ∧ (s.proc r).pc ≠ .test := by
  have hzero := alone h.counts (inside_absPc.mpr hq) hr
  refine ⟨fun hpc => ?_, fun hpc => ?_⟩
  · have hin : (absPc r (s.proc r)).inside = 1 := inside_absPc.mpr (Or.inr (Or.inl hpc))
    omega
  · have hin : (absPc r (s.proc r)).inside = 1 :=
      inside_absPc.mpr (Or.inr (Or.inr (Or.inl hpc)))
    omega

theorem p_eq (h : Inv Q T s) (hq : (s.proc (.inl i)).pc.inside)
    (hcount : (s.proc (.inl i)).pc ≠ .count) : s.shared.p = s.shared.put.length := by
  refine h.producers.value_eq fun j => ?_
  by_cases hj : j = i
  · subst hj
    exact hcount
  · exact (h.others hq (r := .inl j) (by simpa using hj)).1

theorem f_eq (h : Inv Q T s) (hq : (s.proc (.inr i)).pc.inside)
    (hcount : (s.proc (.inr i)).pc ≠ .count) : s.shared.f = s.shared.taken.length := by
  refine h.consumers.value_eq fun j => ?_
  by_cases hj : j = i
  · subst hj
    exact hcount
  · exact (h.others hq (r := .inr j) (by simpa using hj)).1

theorem taken_le (h : Inv Q T s) : s.shared.taken.length ≤ s.shared.put.length := by
  have hle := h.counts.popped_le
  simpa [abs, absShared] using hle

theorem producer (h : Inv Q T s) (hcounts : SemQueue.Counts (some Q)
      (abs ⟨m', Function.update s.proc (.inl i) c'⟩))
    (htally : Tally T m'.p m'.put.length (Function.update (s.proc ∘ Sum.inl) i c'))
    (hf : m'.f = s.shared.f) (htaken : m'.taken = s.shared.taken) (hhistory : History Q m') :
    Inv Q T ⟨m', Function.update s.proc (.inl i) c'⟩ := by
  refine ⟨hcounts, ?_, ?_, hhistory⟩
  · rw [Sum.update_inl_comp_inl]
    exact htally
  · rw [Sum.update_inl_comp_inr, hf, htaken]
    exact h.consumers

theorem consumer (h : Inv Q T s) (hcounts : SemQueue.Counts (some Q)
      (abs ⟨m', Function.update s.proc (.inr i) c'⟩))
    (htally : Tally T m'.f m'.taken.length (Function.update (s.proc ∘ Sum.inr) i c'))
    (hp : m'.p = s.shared.p) (hput : m'.put = s.shared.put) (hhistory : History Q m') :
    Inv Q T ⟨m', Function.update s.proc (.inr i) c'⟩ := by
  refine ⟨hcounts, ?_, ?_, hhistory⟩
  · rw [Sum.update_inr_comp_inl, hp, hput]
    exact h.producers
  · rw [Sum.update_inr_comp_inr]
    exact htally

theorem history_of (h : Inv Q T s) (hqueue : m'.queue = s.shared.queue)
    (hput : m'.put = s.shared.put) (htaken : m'.taken = s.shared.taken) : History Q m' := by
  obtain ⟨hids, hslots, htake⟩ := h.history
  refine ⟨?_, ?_, ?_⟩
  · rw [hput]
    exact hids
  · rw [hput, htaken, hqueue]
    exact hslots
  · rw [hput, htaken]
    exact htake

variable {value : ℤ}

theorem history_producer (h : Inv Q T s)
    (hstep : producerProc Q T (pid (.inl i)) value s.shared (s.proc (.inl i)) = some (m', c')) :
    History Q m' := by
  obtain ⟨-, -, htaken, hpc | ⟨hqueue, hput⟩⟩ := producerProc_side hstep
  · have hp := h.p_eq (Or.inl hpc) (by simp [hpc])
    have haddr : s.shared.p.tmod (Q : ℤ) = ((s.shared.put.length % Q : ℕ) : ℤ) := by
      rw [hp, Int.tmod_eq_emod_of_nonneg (Int.natCast_nonneg _), Int.natCast_mod]
    have hroom := h.counts.length_lt rfl (q := .inl i) (by
      show (absPc (.inl i) (s.proc (.inl i))).room = 1
      rw [absPc, hpc]
      rfl)
    have hroom : s.shared.put.length < Q + s.shared.taken.length := by
      simpa [abs, absShared] using hroom
    rw [producerProc, hpc] at hstep
    obtain ⟨rfl, rfl⟩ := Prod.mk.inj (Option.some.inj hstep)
    rw [haddr]
    exact h.history.put h.taken_le hroom hp
  · exact h.history_of hqueue hput htaken

theorem history_consumer (h : Inv Q T s)
    (hstep : consumerProc Q T s.shared (s.proc (.inr i)) = some (m', c')) : History Q m' := by
  obtain ⟨-, -, hput, hqueue, hpc | htaken⟩ := consumerProc_side hstep
  · have hf := h.f_eq (Or.inl hpc) (by simp [hpc])
    have haddr : s.shared.f.tmod (Q : ℤ) = ((s.shared.taken.length % Q : ℕ) : ℤ) := by
      rw [hf, Int.tmod_eq_emod_of_nonneg (Int.natCast_nonneg _), Int.natCast_mod]
    have hitem := h.counts.popped_lt (q := .inr i) (by
      show absPc (.inr i) (s.proc (.inr i)) = .takeIn
      rw [absPc, hpc]
      rfl)
    have hlt : s.shared.taken.length < s.shared.put.length := by
      simpa [abs, absShared] using hitem
    rw [consumerProc, hpc] at hstep
    obtain ⟨rfl, rfl⟩ := Prod.mk.inj (Option.some.inj hstep)
    rw [haddr]
    exact h.history.take hlt
  · exact h.history_of hqueue hput htaken

theorem step_producer (hT : T + n < 2 ^ 31) (h : Inv Q T s)
    (hstep : producerProc Q T (pid (.inl i)) value s.shared (s.proc (.inl i)) = some (m', c'))
    (hcounts : SemQueue.Counts (some Q) (abs ⟨m', Function.update s.proc (.inl i) c'⟩)) :
    Inv Q T ⟨m', Function.update s.proc (.inl i) c'⟩ := by
  obtain ⟨hside, hf, htaken, -⟩ := producerProc_side hstep
  refine h.producer hcounts (h.producers.step hT hside fun hin j hj => ?_) hf htaken
    (h.history_producer hstep)
  exact h.others hin (r := .inl j) (by simpa using hj)

theorem step_consumer (hT : T + n < 2 ^ 31) (h : Inv Q T s)
    (hstep : consumerProc Q T s.shared (s.proc (.inr i)) = some (m', c'))
    (hcounts : SemQueue.Counts (some Q) (abs ⟨m', Function.update s.proc (.inr i) c'⟩)) :
    Inv Q T ⟨m', Function.update s.proc (.inr i) c'⟩ := by
  obtain ⟨hside, hp, hput, -⟩ := consumerProc_side hstep
  refine h.consumer hcounts (h.consumers.step hT hside fun hin j hj => ?_) hp hput
    (h.history_consumer hstep)
  exact h.others hin (r := .inr j) (by simpa using hj)

theorem step (hT : T + n < 2 ^ 31) (h : Inv Q T s) (ht : s.next Q T pid l = some t) :
    Inv Q T t := by
  have hcounts := counts_step h.counts ht
  obtain ⟨m', c', hstep, rfl⟩ := next_eq_some ht
  obtain ⟨q, value⟩ := l
  cases q with
  | inl i => exact h.step_producer hT hstep hcounts
  | inr i => exact h.step_consumer hT hstep hcounts

theorem of_reachable (hQ : Q ≤ SemQueue.semValueMax) (hT : T + n < 2 ^ 31)
    (h : (system n Q T pid).Reachable s) : Inv Q T s := by
  refine h.invariant ?_ fun s l t _ hs ht => hs.step hT ht
  rintro _ ⟨queue, empty, tmp, rfl⟩
  refine ⟨counts_start hQ queue empty tmp, Tally.init _, Tally.init _, ⟨?_, ?_, rfl⟩⟩
  · intro i node h
    simp [start] at h
  · intro i _ h
    simp [start] at h

end Inv

/-! ### The end -/

/-- A process has returned. -/
def Exited (s : State n) (q : Pid n) : Prop := (s.proc q).pc = .exited

instance (s : State n) (q : Pid n) : Decidable (Exited s q) :=
  inferInstanceAs (Decidable ((s.proc q).pc = .exited))

theorem Tally.all_exited {x : ℤ} {N : ℕ} {g : Fin n → Proc} (h : Tally T x N g) (hn : 0 < n)
    (hexited : ∀ i, (g i).pc = .exited) : N = T + n := by
  have hall : ∑ i, (g i).stopping (decide (T < N)) = ∑ _i : Fin n, 1 :=
    Finset.sum_congr rfl fun i _ => by
      rw [Proc.stopping, if_pos ((h.sound i).exited (hexited i))]
  have hstops := h.stops
  rw [hall] at hstops
  simp only [Finset.sum_const, Finset.card_univ, Fintype.card_fin, smul_eq_mul, mul_one] at hstops
  omega

theorem Tally.lt {x : ℤ} {N : ℕ} {g : Fin n → Proc} (h : Tally T x N g) {i : Fin n}
    (hpc : (g i).pc = .slot) : N < T + n := by
  have hflag := (h.sound i).busy (Or.inl hpc)
  have hlt : ∑ j, (g j).stopping (decide (T < N)) < ∑ _j : Fin n, 1 := by
    refine Finset.sum_lt_sum (fun j _ => ?_) ⟨i, Finset.mem_univ i, ?_⟩
    · rw [Proc.stopping]
      split
      · exact le_rfl
      · split
        · exact le_rfl
        · exact Nat.zero_le 1
    · simp [Proc.stopping, hflag, hpc]
  have hstops := h.stops
  simp only [Finset.sum_const, Finset.card_univ, Fintype.card_fin, smul_eq_mul, mul_one] at hlt
  omega

/-- A process that cannot go on has returned or waits for a semaphore. -/
theorem blocked (hstuck : (system n Q T pid).Stuck s) (q : Pid n) :
    Exited s q ∨ ((s.proc q).pc = .slot ∧
        ((∃ i, q = .inl i) ∧ s.shared.empty = 0 ∨ (∃ i, q = .inr i) ∧ s.shared.full = 0)) ∨
      (s.proc q).pc = .lock ∧ s.shared.mutex = 0 := by
  have hnone : procStep Q T pid ⟨q, 0⟩ s.shared (s.proc q) = none := by
    by_contra hne
    obtain ⟨⟨m', c'⟩, hstep⟩ := Option.ne_none_iff_exists'.mp hne
    refine hstuck ⟨q, 0⟩ ⟨m', Function.update s.proc q c'⟩ ?_
    show s.next Q T pid ⟨q, 0⟩ = _
    rw [State.next, hstep]
    rfl
  cases q with
  | inl i =>
    cases hpc : (s.proc (.inl i)).pc with
    | exited => exact Or.inl hpc
    | slot =>
      simp only [procStep, producerProc, hpc, Option.map_eq_none_iff] at hnone
      exact Or.inr (Or.inl ⟨rfl, Or.inl ⟨⟨i, rfl⟩, SemQueue.wait_eq_none hnone⟩⟩)
    | lock =>
      simp only [procStep, producerProc, hpc, Option.map_eq_none_iff] at hnone
      exact Or.inr (Or.inr ⟨rfl, SemQueue.wait_eq_none hnone⟩)
    | loop =>
      simp only [procStep, producerProc, hpc] at hnone
      split at hnone <;> exact absurd hnone (by simp)
    | access | count | test | unlock | announce => simp [procStep, producerProc, hpc] at hnone
  | inr i =>
    cases hpc : (s.proc (.inr i)).pc with
    | exited => exact Or.inl hpc
    | slot =>
      simp only [procStep, consumerProc, hpc, Option.map_eq_none_iff] at hnone
      exact Or.inr (Or.inl ⟨rfl, Or.inr ⟨⟨i, rfl⟩, SemQueue.wait_eq_none hnone⟩⟩)
    | lock =>
      simp only [procStep, consumerProc, hpc, Option.map_eq_none_iff] at hnone
      exact Or.inr (Or.inr ⟨rfl, SemQueue.wait_eq_none hnone⟩)
    | loop =>
      simp only [procStep, consumerProc, hpc] at hnone
      split at hnone <;> exact absurd hnone (by simp)
    | access | count | test | unlock | announce => simp [procStep, consumerProc, hpc] at hnone

/-- In a stuck state every process has returned or waits for its first semaphore, and all the
room and all the items are in the semaphores. -/
theorem settled (h : Inv Q T s) (hstuck : (system n Q T pid).Stuck s) :
    (∀ q, Exited s q ∨ (s.proc q).pc = .slot ∧
      ((∃ i, q = .inl i) ∧ s.shared.empty = 0 ∨ (∃ i, q = .inr i) ∧ s.shared.full = 0)) ∧
    s.shared.full + s.shared.taken.length = s.shared.put.length ∧
    s.shared.empty + s.shared.put.length = Q + s.shared.taken.length := by
  have hinside : ∀ q, ((abs s).pc q).inside = 0 := by
    intro q
    refine inside_absPc_of_not ?_
    rcases blocked hstuck q with hq | ⟨hq, -⟩ | ⟨hq, -⟩
    · have hq : (s.proc q).pc = .exited := hq
      simp [Pc.inside, hq]
    · simp [Pc.inside, hq]
    · simp [Pc.inside, hq]
  have hmutex : s.shared.mutex = 1 := h.counts.mutex_eq hinside
  have hcases : ∀ q, Exited s q ∨ (s.proc q).pc = .slot ∧
      ((∃ i, q = .inl i) ∧ s.shared.empty = 0 ∨ (∃ i, q = .inr i) ∧ s.shared.full = 0) := by
    intro q
    rcases blocked hstuck q with hq | hq | ⟨-, hzero⟩
    · exact Or.inl hq
    · exact Or.inr hq
    · omega
  have hsettled := h.counts.settled fun q => ?_
  · refine ⟨hcases, ?_, ?_⟩
    · simpa [abs, absShared] using hsettled.1
    · simpa [abs, absShared] using hsettled.2 Q rfl
  · rcases hcases q with hq | ⟨hq, ⟨⟨i, rfl⟩, -⟩ | ⟨⟨i, rfl⟩, -⟩⟩
    · have hq : (s.proc q).pc = .exited := hq
      refine Or.inl ?_
      show absPc q (s.proc q) = .idle
      cases q <;> rw [absPc, hq] <;> rfl
    · refine Or.inr (Or.inl ⟨(), ?_⟩)
      show absPc (.inl i) (s.proc (.inl i)) = _
      rw [absPc, hq]
      rfl
    · refine Or.inr (Or.inr ?_)
      show absPc (.inr i) (s.proc (.inr i)) = _
      rw [absPc, hq]
      rfl

/-- **The counter reaches everybody**: a stuck state is the end. -/
theorem exited_of_stuck (hQ : 0 < Q) (h : Inv Q T s) (hstuck : (system n Q T pid).Stuck s)
    (q : Pid n) : Exited s q := by
  obtain ⟨hcases, hfull, hempty⟩ := settled h hstuck
  have hproducers : ∀ i, Exited s (.inl i) := by
    intro i
    rcases hcases (.inl i) with hi | ⟨hslot, ⟨-, hzero⟩ | ⟨⟨j, hj⟩, -⟩⟩
    · exact hi
    -- the queue is full, so that every consumer has returned
    · have hconsumers : ∀ j, Exited s (.inr j) := by
        intro j
        rcases hcases (.inr j) with hj | ⟨-, ⟨⟨k, hk⟩, -⟩ | ⟨-, hzero'⟩⟩
        · exact hj
        · exact absurd hk (by simp)
        · omega
      have htaken := h.consumers.all_exited i.pos hconsumers
      have hput := h.producers.lt (i := i) hslot
      omega
    · exact absurd hj (by simp)
  cases q with
  | inl i => exact hproducers i
  | inr i =>
    rcases hcases (.inr i) with hi | ⟨hslot, ⟨⟨j, hj⟩, -⟩ | ⟨-, hzero⟩⟩
    · exact hi
    · exact absurd hj (by simp)
    -- the queue is empty, and everything is put
    · have hput := h.producers.all_exited i.pos hproducers
      have htaken := h.consumers.lt (i := i) hslot
      omega

/-! ### The length of a run -/

/-- How many steps of its round a process has made, from the counter on. -/
def Pc.offset : Pc → ℕ
  | .count => 0
  | .test => 1
  | .unlock => 2
  | .announce => 3
  | .loop => 4
  | .slot => 5
  | .lock => 6
  | .access => 7
  | .exited => 5

theorem SideStep.offset {x x' : ℤ} {N N' : ℕ} (h : SideStep T x N c x' N' c') :
    8 * N' + c'.pc.offset = 8 * N + c.pc.offset + 1 := by
  cases h with
  | again tmp hpc hflag =>
    rw [hpc]
    rfl
  | finish hpc hflag =>
    rw [hpc]
    rfl
  | pass hpc =>
    rcases hpc with ⟨hpc, rfl⟩ | ⟨hpc, rfl⟩ | ⟨hpc, rfl⟩ | ⟨hpc, rfl⟩
    · rw [hpc]
      rfl
    · rw [hpc]
      rfl
    · rw [hpc]
      rfl
    · rw [hpc]
      rfl
  | access tmp hpc =>
    rw [hpc]
    rfl
  | count hpc =>
    rw [hpc]
    rfl
  | test hpc =>
    rw [hpc]
    rfl

theorem procStep_offset (h : procStep Q T pid l m c = some (m', c')) :
    8 * (m'.put.length + m'.taken.length) + c'.pc.offset =
      8 * (m.put.length + m.taken.length) + c.pc.offset + 1 := by
  obtain ⟨q, value⟩ := l
  cases q with
  | inl i =>
    obtain ⟨hside, -, htaken, -⟩ := producerProc_side h
    have hoffset := hside.offset
    rw [htaken]
    omega
  | inr i =>
    obtain ⟨hside, -, hput, -⟩ := consumerProc_side h
    have hoffset := hside.offset
    rw [hput]
    omega

variable {ls : List (Label n)} {queue : ℤ → Node} {empty : ℕ} {tmp : Pid n → Node}

theorem run_length (h : (system n Q T pid).Run (start Q queue empty tmp) ls s) :
    ls.length + 8 * n = 8 * (s.shared.put.length + s.shared.taken.length) +
      ∑ q, (s.proc q).pc.offset := by
  induction h with
  | nil =>
    simp [start, Pc.offset]
    omega
  | @snoc s t ls l _ hstep ih =>
    obtain ⟨m', c', hproc, rfl⟩ := next_eq_some hstep
    have hoffset := procStep_offset hproc
    have hsum := sum_update (fun c : Proc => c.pc.offset) s.proc l.q c'
    rw [List.length_append, List.length_singleton]
    dsimp only
    omega

/-! ### The shutdown -/

/-- **What the program promises** of a state it reaches: it is not stuck unless every process
has returned; then `T + n` items have been put and as many taken, and never more; and the
items are taken in the order of their ids. -/
structure ShutsDown (Q T : ℕ) (pid : Pid n → ℤ) (s : State n) : Prop where
  exited : (system n Q T pid).Stuck s → ∀ q, Exited s q
  total : (∀ q, Exited s q) → s.shared.put.length = T + n ∧ s.shared.taken.length = T + n
  put_le : s.shared.put.length ≤ T + n
  taken_le : s.shared.taken.length ≤ T + n
  ids : ∀ (i : ℕ) (node : Node), s.shared.taken[i]? = some node → node.id = i

/-- **The shutdown by the counter**, when an `int` can count the items and a semaphore the room:
the program keeps its promise in every state, every run ends, and no `sem_post` fails. -/
theorem counter_shutdown (hn : 0 < n) (hQ : 0 < Q) (hQ' : Q < 2 ^ 31) (hT : T + n < 2 ^ 31)
    (h : (system n Q T pid).Run (start Q queue empty tmp) ls s) :
    ShutsDown Q T pid s ∧ ls.length ≤ 16 * T + 22 * n ∧ s.shared.mutex ≤ 1 ∧
      s.shared.empty ≤ SemQueue.semValueMax ∧ s.shared.full ≤ SemQueue.semValueMax := by
  have hmax : Q ≤ SemQueue.semValueMax := Nat.le_pred_of_lt hQ'
  have hinv := Inv.of_reachable hmax hT ⟨_, _, ⟨queue, empty, tmp, rfl⟩, h⟩
  have hput := hinv.producers.le
  have htaken := hinv.consumers.le
  obtain ⟨hmutex, hempty, hfull⟩ := hinv.counts.semaphores_le rfl
  refine ⟨⟨exited_of_stuck hQ hinv, fun hexited => ⟨?_, ?_⟩, hput, htaken, ?_⟩, ?_, hmutex,
    hempty.trans hmax, hfull.trans hmax⟩
  · exact hinv.producers.all_exited hn fun i => hexited (.inl i)
  · exact hinv.consumers.all_exited hn fun i => hexited (.inr i)
  · intro i node hnode
    rw [hinv.history.taken, List.getElem?_take] at hnode
    split at hnode
    · exact hinv.history.ids i node hnode
    · exact absurd hnode (by simp)
  · have hlength := run_length h
    have hle : ∑ q, (s.proc q).pc.offset ≤ ∑ _q : Pid n, 7 := by
      refine Finset.sum_le_sum fun q _ => ?_
      cases (s.proc q).pc <;> decide
    simp only [Finset.sum_const, Finset.card_univ, Fintype.card_sum, Fintype.card_fin,
      smul_eq_mul] at hle
    omega

/-- A round of a producer or a consumer. -/
def round (q : Pid 2) : List (Label 2) := List.replicate 8 ⟨q, 0⟩

/-- Two producers and two consumers with room for one item: the items are passed on one by one,
and the second producer stops behind the first one's first. -/
def schedule (i j : Fin 2) : List (Label 2) :=
  round (.inl i) ++ round (.inr i) ++ round (.inl j) ++ round (.inr j) ++ round (.inl i) ++
    round (.inr i) ++ [⟨.inl i, 0⟩, ⟨.inl j, 0⟩, ⟨.inr i, 0⟩, ⟨.inr j, 0⟩]

theorem counter_shutdown_schedule : ∃ s : State 2,
    (system 2 1 1 fun _ => 0).Run (start 1 (fun _ => ⟨0, 0, 0⟩) 0 fun _ => ⟨0, 0, 0⟩)
        (schedule 0 1) s ∧
      (∀ q, Exited s q) ∧ s.shared.put.length = 3 ∧ s.shared.taken.length = 3 := by
  have hrun : ((schedule 0 1).foldlM (State.next 1 1 fun _ => 0)
      (start 1 (fun _ => ⟨0, 0, 0⟩) 0 fun _ => ⟨0, 0, 0⟩)).map
        (fun s => decide (∀ q, Exited s q)) = some true := by decide +kernel
  obtain ⟨s, hs, hexited⟩ := Option.map_eq_some_iff.mp hrun
  replace hexited := of_decide_eq_true hexited
  have hrun : (system 2 1 1 fun _ => 0).Run _ (schedule 0 1) s := System.run_ofStep hs
  have h := counter_shutdown (by decide) (by decide) (by decide) (by decide) hrun
  exact ⟨s, hrun, hexited, h.1.total hexited⟩

/-! ### Beyond `int` -/

/-- One producer and one consumer. -/
def pair (m : Shared) (a b : Proc) : State 1 := ⟨m, Sum.elim (fun _ => a) fun _ => b⟩

section Overflow

variable {pid : Pid 1 → ℤ} {a a' b b' : Proc}

theorem reachable_inl (h : (system 1 Q T pid).Reachable (pair m a b))
    (hstep : producerProc Q T (pid (.inl 0)) 0 m a = some (m', a')) :
    (system 1 Q T pid).Reachable (pair m' a' b) := by
  refine h.step (l := ⟨.inl 0, 0⟩) ?_
  have hproc : procStep Q T pid ⟨.inl 0, 0⟩ m a = some (m', a') := hstep
  have hpair : Function.update (pair m a b).proc (.inl 0) a' = (pair m' a' b).proc := by
    funext q
    rcases q with i | i
    · obtain rfl := Subsingleton.elim i 0
      exact Function.update_self ..
    · rfl
  show (procStep Q T pid ⟨.inl 0, 0⟩ m a).map _ = _
  rw [hproc, Option.map_some, hpair]
  rfl

theorem reachable_inr (h : (system 1 Q T pid).Reachable (pair m a b))
    (hstep : consumerProc Q T m b = some (m', b')) :
    (system 1 Q T pid).Reachable (pair m' a b') := by
  refine h.step (l := ⟨.inr 0, 0⟩) ?_
  have hproc : procStep Q T pid ⟨.inr 0, 0⟩ m b = some (m', b') := hstep
  have hpair : Function.update (pair m a b).proc (.inr 0) b' = (pair m' a b').proc := by
    funext q
    rcases q with i | i
    · rfl
    · obtain rfl := Subsingleton.elim i 0
      exact Function.update_self ..
  show (procStep Q T pid ⟨.inr 0, 0⟩ m b).map _ = _
  rw [hproc, Option.map_some, hpair]
  rfl

/-- No `int` is beyond the largest. -/
theorem not_over (x : ℤ) : ¬ wrapInt x > ((2 ^ 31 - 1 : ℕ) : ℤ) := by
  have hlt : Int.bmod x (2 ^ 32) < ((2 ^ 32 : ℕ) + 1) / 2 := Int.bmod_lt (by decide)
  unfold wrapInt
  omega

variable {queue : ℤ → Node} {f p : ℤ} {put taken : List Node} {tmp : Node}

/-- The counter of the producers goes through `wrapInt` right before their test. -/
theorem test_producer (x i : ℤ) {k l r : ℕ} :
    producerProc 1 (2 ^ 31 - 1) i 0 ⟨queue, f, wrapInt x, k, l, r, put, taken⟩ ⟨.test, true, tmp⟩ =
      some (⟨queue, f, wrapInt x, k, l, r, put, taken⟩, ⟨.unlock, true, tmp⟩) := by
  show some (_, Proc.mk _ (if _ then _ else _) _) = _
  rw [if_neg (not_over x)]

theorem test_consumer (x : ℤ) {k l r : ℕ} :
    consumerProc 1 (2 ^ 31 - 1) ⟨queue, wrapInt x, p, k, l, r, put, taken⟩ ⟨.test, true, tmp⟩ =
      some (⟨queue, wrapInt x, p, k, l, r, put, taken⟩, ⟨.unlock, true, tmp⟩) := by
  show some (_, Proc.mk _ (if _ then _ else _) _) = _
  rw [if_neg (not_over x)]

theorem round_producer (h : (system 1 1 (2 ^ 31 - 1) pid).Reachable
      (pair ⟨queue, f, p, 1, 1, 0, put, taken⟩ ⟨.loop, true, tmp⟩ b)) :
    ∃ queue' node, (system 1 1 (2 ^ 31 - 1) pid).Reachable
      (pair ⟨queue', f, wrapInt (p + 1), 1, 0, 1, put ++ [node], taken⟩ ⟨.loop, true, node⟩ b) := by
  have hslot := reachable_inl h rfl
  have hlock := reachable_inl hslot rfl
  have haccess := reachable_inl hlock rfl
  have hcount := reachable_inl haccess rfl
  have htest := reachable_inl hcount rfl
  have hunlock := reachable_inl htest (test_producer _ _)
  have hannounce := reachable_inl hunlock rfl
  exact ⟨_, _, reachable_inl hannounce rfl⟩

theorem round_consumer (h : (system 1 1 (2 ^ 31 - 1) pid).Reachable
      (pair ⟨queue, f, p, 1, 0, 1, put, taken⟩ a ⟨.loop, true, tmp⟩)) :
    ∃ node, (system 1 1 (2 ^ 31 - 1) pid).Reachable
      (pair ⟨queue, wrapInt (f + 1), p, 1, 1, 0, put, taken ++ [node]⟩ a ⟨.loop, true, node⟩) := by
  have hslot := reachable_inr h rfl
  have hlock := reachable_inr hslot rfl
  have haccess := reachable_inr hlock rfl
  have hcount := reachable_inr haccess rfl
  have htest := reachable_inr hcount rfl
  have hunlock := reachable_inr htest (test_consumer _)
  have hannounce := reachable_inr hunlock rfl
  exact ⟨_, reachable_inr hannounce rfl⟩

/-- **A limit of `2 ^ 31 - 1` is never passed**: the two go on and on. -/
theorem rounds (pid : Pid 1 → ℤ) (k : ℕ) : ∃ queue f p put taken tmp tmp', put.length = k ∧
    (system 1 1 (2 ^ 31 - 1) pid).Reachable
      (pair ⟨queue, f, p, 1, 1, 0, put, taken⟩ ⟨.loop, true, tmp⟩ ⟨.loop, true, tmp'⟩) := by
  induction k with
  | zero =>
    refine ⟨fun _ => ⟨0, 0, 0⟩, 0, 0, [], [], ⟨0, 0, 0⟩, ⟨0, 0, 0⟩, rfl, .of_init ?_⟩
    refine ⟨fun _ => ⟨0, 0, 0⟩, 0, fun _ => ⟨0, 0, 0⟩, ?_⟩
    rw [pair, start, if_pos (by decide)]
    congr 1
    funext q
    cases q <;> rfl
  | succ k ih =>
    obtain ⟨queue, f, p, put, taken, tmp, tmp', hk, h⟩ := ih
    obtain ⟨queue', node, h⟩ := round_producer h
    obtain ⟨node', h⟩ := round_consumer h
    refine ⟨queue', _, _, put ++ [node], _, _, _, ?_, h⟩
    rw [List.length_append, hk, List.length_singleton]

end Overflow

/-- With a `QUEUE_LEN` that no semaphore takes everybody may wait for room at once. -/
theorem starved (pid : Pid 1 → ℤ) : ∃ s : State 1, (system 1 (2 ^ 31) 0 pid).Reachable s ∧
    (system 1 (2 ^ 31) 0 pid).Stuck s ∧ ¬ Exited s (.inl 0) := by
  have hstart : (system 1 (2 ^ 31) 0 pid).Reachable
      (pair ⟨fun _ => ⟨0, 0, 0⟩, 0, 0, 1, 0, 0, [], []⟩ ⟨.loop, true, ⟨0, 0, 0⟩⟩
        ⟨.loop, true, ⟨0, 0, 0⟩⟩) := by
    refine .of_init ⟨fun _ => ⟨0, 0, 0⟩, 0, fun _ => ⟨0, 0, 0⟩, ?_⟩
    rw [pair, start, if_neg (by decide)]
    congr 1
    funext q
    cases q <;> rfl
  refine ⟨_, reachable_inr (reachable_inl hstart rfl) rfl, ?_, by simp [Exited, pair, Proc.goto]⟩
  rintro ⟨q, value⟩ t ht
  obtain ⟨m', c', hstep, -⟩ := next_eq_some ht
  cases q with
  | inl i => exact absurd hstep (by simp [procStep, pair, producerProc, SemQueue.wait])
  | inr i => exact absurd hstep (by simp [procStep, pair, Proc.goto, consumerProc, SemQueue.wait])

/-- The promise is not kept where an `int` cannot count the items, nor without processes, nor
where a semaphore cannot hold the room. -/
theorem counter_overflows :
    (¬ ∀ (pid : Pid 1 → ℤ) (s : State 1), (system 1 1 (2 ^ 31 - 1) pid).Reachable s →
      ShutsDown 1 (2 ^ 31 - 1) pid s) ∧
    (¬ ∀ (pid : Pid 0 → ℤ) (s : State 0), (system 0 1 1 pid).Reachable s → ShutsDown 1 1 pid s) ∧
    ¬ ∀ (pid : Pid 1 → ℤ) (s : State 1), (system 1 (2 ^ 31) 0 pid).Reachable s →
      ShutsDown (2 ^ 31) 0 pid s := by
  refine ⟨fun hall => ?_, fun hall => ?_, fun hall => ?_⟩
  · obtain ⟨queue, f, p, put, taken, tmp, tmp', hk, h⟩ := rounds (fun _ => 0) (2 ^ 31 + 1)
    have hle : put.length ≤ 2 ^ 31 - 1 + 1 := (hall _ _ h).put_le
    omega
  · have h := hall (fun _ => 0) (start 1 (fun _ => ⟨0, 0, 0⟩) 0 fun _ => ⟨0, 0, 0⟩)
      (.of_init ⟨_, _, _, rfl⟩)
    have hnone : ∀ q : Pid 0, Exited (start 1 (fun _ => ⟨0, 0, 0⟩) 0 fun _ => ⟨0, 0, 0⟩) q := by
      rintro (i | i) <;> exact i.elim0
    exact absurd (h.total hnone).1 (by simp [start])
  · obtain ⟨s, hs, hstuck, hrunning⟩ := starved fun _ => 0
    exact hrunning ((hall _ s hs).exited hstuck _)

end CppProgramming.ProducerConsumer.Counter
