import CppProgramming.Lib.Counting
import CppProgramming.Lib.Transition
import Mathlib.Data.Fintype.Basic

/-!
# `BlockingQueue` over a condition variable

`put` and `take` of `blocking_queue_condvar.h`: `put` signals `not_empty` behind the mutex,
and `take` waits for it in a loop that tests the queue again.  Each call of the library is a
step, and so is what stands between two of them; the mutex keeps everybody else out of the
queue meanwhile (`Inv.alone`).  A signal wakes at least one of the threads that wait, if there
are any, and any thread may be woken spuriously.

A thread that never waited may take the item that another was woken for, and a signal may go
to a thread that finds nothing.  What is kept is an inequality (`Inv.owed`): while somebody
waits, the queue is no longer than the number of threads that have yet to signal or, woken,
yet to test again.
-/

namespace CppProgramming.ProducerConsumer.BlockingQueueCond

open CppProgramming.Lib

variable {Pid V : Type*}

/-- The next step of a thread.  `waiting` is blocked in `pthread_cond_wait`, and `woken` is on
its way back to the mutex. -/
inductive Pc (V : Type*)
  | idle
  | putLock (item : V)
  | putPush (item : V)
  | putUnlock
  | putSignal
  | takeLock
  | takeTest
  | waiting
  | woken
  | takeRetest
  | takeUnlock (item : V)
  | ret (item : Option V)
  | undefined
deriving DecidableEq

def Pc.waits : Pc V → Bool
  | .waiting => true
  | _ => false

structure State (Pid V : Type*) where
  queue : List V
  mutex : Bool
  pc : Pid → Pc V

inductive Label (Pid V : Type*)
  | put (q : Pid) (item : V)
  | take (q : Pid)
  | step (q : Pid)
  | signal (q : Pid) (woken : Finset Pid)
  | wake (q : Pid)
  | ret (q : Pid)

variable [DecidableEq Pid]

namespace State

def goto (s : State Pid V) (q : Pid) (c : Pc V) : State Pid V :=
  { s with pc := Function.update s.pc q c }

/-- `pthread_mutex_lock` -/
def lock (s : State Pid V) (q : Pid) (c : Pc V) : Option (State Pid V) :=
  if s.mutex then none else some ({ s with mutex := true }.goto q c)

/-- `pthread_mutex_unlock` -/
def unlock (s : State Pid V) (q : Pid) (c : Pc V) : State Pid V :=
  { s with mutex := false }.goto q c

/-- `void* item = queue.front(); queue.pop();` -/
def popFront (s : State Pid V) (q : Pid) : State Pid V :=
  match s.queue with
  | [] => s.goto q .undefined
  | item :: rest => { s with queue := rest }.goto q (.takeUnlock item)

/-- The test of the loop, and `pthread_cond_wait` or what stands behind the loop. -/
def test (s : State Pid V) (q : Pid) : State Pid V :=
  if s.queue.isEmpty then s.unlock q .waiting else s.popFront q

/-- A step of `put` or `take`, but for the signal. -/
def step (s : State Pid V) (q : Pid) : Option (State Pid V) :=
  match s.pc q with
  | .putLock item => s.lock q (.putPush item)
  | .putPush item => some ({ s with queue := s.queue ++ [item] }.goto q .putUnlock)
  | .putUnlock => some (s.unlock q .putSignal)
  | .takeLock => s.lock q .takeTest
  | .takeTest => some (s.test q)
  | .woken => s.lock q .takeRetest
  | .takeRetest => some (s.test q)
  | .takeUnlock item => some (s.unlock q (.ret (some item)))
  | .idle | .putSignal | .waiting | .ret _ | .undefined => none

/-- The threads in `woken` are woken, and `q` is back from its signal. -/
def signalled (s : State Pid V) (q : Pid) (woken : Finset Pid) : State Pid V :=
  { s with pc := fun r => if r = q then .ret none else if r ∈ woken then .woken else s.pc r }

variable [Fintype Pid]

def waiters (s : State Pid V) : Finset Pid := Finset.univ.filter fun q => (s.pc q).waits

def next (s : State Pid V) : Label Pid V → Option (State Pid V)
  | .put q item => match s.pc q with
    | .idle => some (s.goto q (.putLock item))
    | _ => none
  | .take q => match s.pc q with
    | .idle => some (s.goto q .takeLock)
    | _ => none
  | .step q => s.step q
  | .signal q woken => match s.pc q with
    | .putSignal =>
      if woken ⊆ s.waiters ∧ (woken = ∅ → s.waiters = ∅) then some (s.signalled q woken) else none
    | _ => none
  | .wake q => match s.pc q with
    | .waiting => some (s.goto q .woken)
    | _ => none
  | .ret q => match s.pc q with
    | .ret _ => some (s.goto q .idle)
    | _ => none

/-- The thread has pushed, and has yet to signal. -/
def YetToSignal (s : State Pid V) (q : Pid) : Prop := s.pc q = .putUnlock ∨ s.pc q = .putSignal

/-- The thread was woken, and has yet to test the queue again. -/
def YetToRetest (s : State Pid V) (q : Pid) : Prop := s.pc q = .woken ∨ s.pc q = .takeRetest

end State

/-- `BlockingQueue()`, with any threads that call `put` and `take` whenever they like. -/
def initial : State Pid V := ⟨[], false, fun _ => .idle⟩

variable [Fintype Pid]

def system : System (State Pid V) (Label Pid V) := System.ofStep (· = initial) State.next

/-! ### What is counted -/

/-- Holding the mutex. -/
def Pc.inside : Pc V → ℕ
  | .putPush _ | .putUnlock | .takeTest | .takeRetest | .takeUnlock _ => 1
  | _ => 0

/-- Yet to signal, or woken and yet to test again. -/
def Pc.owes : Pc V → ℕ
  | .putUnlock | .putSignal | .woken | .takeRetest => 1
  | _ => 0

namespace State

variable {s t : State Pid V} {l : Label Pid V} {q r : Pid} {c : Pc V}

/-- One thread is inside, nobody has read an empty queue, and while somebody waits, each item
has somebody who will see to it. -/
structure Inv (s : State Pid V) : Prop where
  mutex : ∑ q, (s.pc q).inside = s.mutex.toNat
  defined : ∀ q, s.pc q ≠ .undefined
  owed : ∀ q, s.pc q = .waiting → s.queue.length ≤ ∑ r, (s.pc r).owes

section

omit [DecidableEq Pid]

theorem Inv.initial : (initial : State Pid V).Inv where
  mutex := by simp [BlockingQueueCond.initial, Pc.inside]
  defined q := by simp [BlockingQueueCond.initial]
  owed q hq := by simp [BlockingQueueCond.initial] at hq

/-- **Mutual exclusion.** -/
theorem Inv.alone (h : s.Inv) (hq : (s.pc q).inside = 1) (hrq : r ≠ q) : (s.pc r).inside = 0 := by
  have hle := add_weight_le_sum Pc.inside s.pc hrq.symm
  have hmutex := h.mutex
  have hheld := Bool.toNat_le s.mutex
  omega

theorem Inv.held (h : s.Inv) (hq : (s.pc q).inside = 1) : s.mutex = true := by
  have hle := weight_le_sum Pc.inside s.pc q
  have hmutex := h.mutex
  rw [hq] at hle
  by_contra hfree
  rw [Bool.eq_false_iff.mpr hfree] at hmutex
  exact absurd (hle.trans_eq hmutex) (by simp)

end

/-- **What one thread may do**, from its place to `c`: it takes the mutex or leaves it as
counted, and unless the queue is empty behind it, it owes no less and does not wait. -/
theorem Inv.goto (h : s.Inv) (hpc : t.pc = s.pc)
    (hmutex : t.mutex.toNat + (s.pc q).inside = s.mutex.toNat + c.inside)
    (hdefined : c ≠ .undefined) (howes : t.queue = [] ∨
      c ≠ .waiting ∧ t.queue.length + (s.pc q).owes ≤ s.queue.length + c.owes) :
    (t.goto q c).Inv := by
  refine ⟨?_, fun r => ?_, fun r hr => ?_⟩
  · have hsum := sum_update Pc.inside s.pc q c
    have := h.mutex
    simp only [State.goto, hpc]
    omega
  · by_cases hrq : r = q
    · subst hrq
      simpa [State.goto] using hdefined
    · simpa [State.goto, hrq, hpc] using h.defined r
  · rcases howes with hnil | ⟨hwaiting, hle⟩
    · simp [State.goto, hnil]
    · have hr' : s.pc r = .waiting := by
        by_cases hrq : r = q
        · subst hrq
          exact absurd (by simpa [State.goto] using hr) hwaiting
        · simpa [State.goto, hrq, hpc] using hr
      have hsum := sum_update Pc.owes s.pc q c
      have := h.owed r hr'
      simp only [State.goto, hpc]
      omega

/-! ### One step -/

theorem Inv.lock (h : s.Inv) (hout : (s.pc q).inside = 0) (hin : c.inside = 1)
    (howes : (s.pc q).owes = c.owes) (hwaiting : c ≠ .waiting) (hdefined : c ≠ .undefined)
    (ht : s.lock q c = some t) : t.Inv := by
  rw [State.lock] at ht
  split at ht
  · exact absurd ht (by simp)
  · rename_i hfree
    obtain rfl := Option.some.inj ht
    refine h.goto rfl ?_ hdefined (Or.inr ⟨hwaiting, by rw [howes]⟩)
    rw [hout, hin, Bool.eq_false_iff.mpr hfree]
    rfl

theorem Inv.unlock (h : s.Inv) (hin : (s.pc q).inside = 1) (hout : c.inside = 0)
    (howes : s.queue = [] ∨ c ≠ .waiting ∧ (s.pc q).owes ≤ c.owes) (hdefined : c ≠ .undefined) :
    (s.unlock q c).Inv := by
  refine h.goto rfl ?_ hdefined (howes.imp_right fun ⟨hwaiting, hle⟩ => ⟨hwaiting, by simpa⟩)
  rw [hin, hout, h.held hin]
  rfl

/-- Whoever tests the queue waits in front of an empty one, or takes an item away. -/
theorem Inv.test (h : s.Inv) (hin : (s.pc q).inside = 1) (howes : (s.pc q).owes ≤ 1) :
    (s.test q).Inv := by
  rw [State.test]
  split
  · rename_i hempty
    exact h.unlock hin rfl (Or.inl (List.isEmpty_iff.mp hempty)) (by simp)
  · rename_i hempty
    have hne : s.queue ≠ [] := by simpa using hempty
    obtain ⟨item, rest, hqueue⟩ := List.exists_cons_of_ne_nil hne
    simp only [popFront, hqueue]
    refine h.goto rfl (by rw [hin]; rfl) (by simp) (Or.inr ⟨by simp, ?_⟩)
    simp only [hqueue, List.length_cons]
    omega

theorem Inv.step (h : s.Inv) (ht : s.step q = some t) : t.Inv := by
  cases hq : s.pc q with
  | idle | putSignal | waiting | ret item | undefined =>
    exact absurd ht (by simp [State.step, hq])
  | putLock item | takeLock | woken =>
    simp only [State.step, hq] at ht
    exact h.lock (by rw [hq]; rfl) rfl (by rw [hq]; rfl) (by simp) (by simp) ht
  | putPush item =>
    simp only [State.step, hq] at ht
    obtain rfl := Option.some.inj ht
    refine h.goto rfl (by rw [hq]; rfl) (by simp) (Or.inr ⟨by simp, ?_⟩)
    simp [hq, Pc.owes]
  | putUnlock =>
    simp only [State.step, hq] at ht
    obtain rfl := Option.some.inj ht
    exact h.unlock (by rw [hq]; rfl) rfl (Or.inr ⟨by simp, by rw [hq]; exact le_rfl⟩) (by simp)
  | takeTest | takeRetest =>
    simp only [State.step, hq] at ht
    obtain rfl := Option.some.inj ht
    exact h.test (by rw [hq]; rfl) (by simp [hq, Pc.owes])
  | takeUnlock item =>
    simp only [State.step, hq] at ht
    obtain rfl := Option.some.inj ht
    exact h.unlock (by rw [hq]; rfl) rfl (Or.inr ⟨by simp, by rw [hq]; exact le_rfl⟩) (by simp)

omit [DecidableEq Pid] in
theorem mem_waiters : q ∈ s.waiters ↔ s.pc q = .waiting := by
  simp only [waiters, Finset.mem_filter, Finset.mem_univ, true_and]
  cases s.pc q <;> simp [Pc.waits]

/-- **A signal is passed on**: who is woken owes what the signaller has owed. -/
theorem Inv.signalled {woken : Finset Pid} (h : s.Inv) (hq : s.pc q = .putSignal)
    (hsub : woken ⊆ s.waiters) (hnone : woken = ∅ → s.waiters = ∅) : (s.signalled q woken).Inv := by
  have hwoken : ∀ r, r ∈ woken → s.pc r = .waiting := fun r hr => mem_waiters.mp (hsub hr)
  refine ⟨?_, fun r => ?_, fun r hr => ?_⟩
  · refine Eq.trans (Finset.sum_congr rfl fun r _ => ?_) h.mutex
    simp only [State.signalled]
    split
    · subst r
      rw [hq]
      rfl
    · split
      · rw [hwoken r ‹_›]
        rfl
      · rfl
  · simp only [State.signalled]
    split
    · simp
    · split
      · simp
      · exact h.defined r
  · have hwaiting : s.pc r = .waiting := by
      simp only [State.signalled] at hr
      split at hr
      · exact absurd hr (by simp)
      · split at hr
        · exact absurd hr (by simp)
        · exact hr
    refine (h.owed r hwaiting).trans ?_
    obtain ⟨r', hr'⟩ : woken.Nonempty := by
      rw [Finset.nonempty_iff_ne_empty]
      intro hempty
      have hmem := mem_waiters.mpr hwaiting
      rw [hnone hempty] at hmem
      exact absurd hmem (Finset.notMem_empty r)
    have hne : r' ≠ q := by
      rintro rfl
      exact absurd (hq.symm.trans (hwoken r' hr')) (by simp)
    refine sum_le_of_transfer Pc.owes s.pc (s.signalled q woken).pc hne (d := 1) ?_ ?_ fun p hpq => ?_
    · rw [hq]
      exact Nat.le_add_left ..
    · simp only [State.signalled, if_neg hne, if_pos hr', hwoken r' hr']
      exact le_rfl
    · simp only [State.signalled, if_neg hpq]
      split
      · rw [hwoken p ‹_›]
        exact Nat.zero_le _
      · exact le_rfl

theorem Inv.next (h : s.Inv) (ht : s.next l = some t) : t.Inv := by
  cases l with
  | put q item | take q | wake q | ret q =>
    simp only [State.next] at ht
    split at ht
    · obtain rfl := Option.some.inj ht
      exact h.goto rfl (by rw [‹s.pc q = _›]; rfl) (by simp)
        (Or.inr ⟨by simp, Nat.add_le_add_left (by simp [‹s.pc q = _›, Pc.owes]) _⟩)
    · exact absurd ht (by simp)
  | step q => exact h.step ht
  | signal q woken =>
    simp only [State.next] at ht
    split at ht
    · split at ht
      · obtain rfl := Option.some.inj ht
        obtain ⟨hsub, hnone⟩ := ‹_ ∧ _›
        exact h.signalled ‹_› hsub hnone
      · exact absurd ht (by simp)
    · exact absurd ht (by simp)

theorem Inv.of_reachable (h : system.Reachable s) : s.Inv := by
  refine h.invariant (fun s hs => ?_) fun s l t _ hs ht => hs.next ht
  obtain rfl := hs
  exact .initial

omit [DecidableEq Pid] in
theorem exists_of_owes (h : 0 < ∑ r, (s.pc r).owes) : ∃ r, s.YetToSignal r ∨ s.YetToRetest r := by
  obtain ⟨r, -, hr⟩ := Finset.exists_ne_zero_of_sum_ne_zero h.ne'
  refine ⟨r, ?_⟩
  cases hc : s.pc r <;> simp [hc, Pc.owes] at hr <;> simp [YetToSignal, YetToRetest, hc]

end State

/-- **No lost wake-up**, in any state that any number of threads reach: when there is an item
and somebody waits for one, somebody has yet to signal, or was woken and has yet to test the
queue again.  And nobody pops an empty queue. -/
theorem blockingQueue_condvar (s : State Pid V) (hs : system.Reachable s) :
    ¬ (s.queue ≠ [] ∧ (∃ q, s.pc q = .waiting) ∧ (¬ ∃ q, s.YetToRetest q) ∧
      ¬ ∃ q, s.YetToSignal q) ∧
    ∀ q, s.pc q ≠ .undefined := by
  have hinv := State.Inv.of_reachable hs
  refine ⟨?_, hinv.defined⟩
  rintro ⟨hqueue, ⟨q, hq⟩, hretest, hsignal⟩
  have hpos := List.length_pos_iff.mpr hqueue
  obtain ⟨r, hr | hr⟩ := State.exists_of_owes (Nat.lt_of_lt_of_le hpos (hinv.owed q hq))
  · exact hsignal ⟨r, hr⟩
  · exact hretest ⟨r, hr⟩

/-- The signal wakes one of two that wait, and the mutex is free for the next. -/
theorem blockingQueue_condvar_signal : ∃ s : State (Fin 3) ℕ, system.Reachable s ∧
    s.queue = [7] ∧ s.pc 0 = .waiting ∧ s.pc 1 = .woken ∧ ¬ ((∃ q, s.pc q = .waiting) ∧
      (¬ ∃ q, s.YetToRetest q) ∧ ¬ ∃ q, s.YetToSignal q) := by
  have hrun : ([Label.take 0, .take 1, .step 0, .step 0, .step 1, .step 1, .put 2 7, .step 2,
      .step 2, .step 2, .signal 2 {1}].foldlM State.next (initial : State (Fin 3) ℕ)).any
      (fun s => s.queue = [7] ∧ s.pc 0 = .waiting ∧ s.pc 1 = .woken) = true := by decide +kernel
  obtain ⟨s, hs, hs'⟩ := (Option.any_eq_true _ _).mp hrun
  obtain ⟨hqueue, hwaiting, hwoken⟩ := of_decide_eq_true hs'
  have hreach : system.Reachable s := ⟨_, _, rfl, System.run_ofStep hs⟩
  refine ⟨s, hreach, hqueue, hwaiting, hwoken, fun h => ?_⟩
  exact (blockingQueue_condvar s hreach).1 ⟨by simp [hqueue], h⟩

end CppProgramming.ProducerConsumer.BlockingQueueCond
