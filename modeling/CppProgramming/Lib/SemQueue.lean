import CppProgramming.Lib.Transition
import CppProgramming.Lib.Counting
import Mathlib.Algebra.Order.BigOperators.Group.Finset
import Mathlib.Data.Multiset.AddSub

/-!
# A queue guarded by semaphores

A queue that any number of processes put into and take from, with a semaphore
`mutex` around each access, one (`full`) that counts what may be taken, and, when
the queue is bounded, one (`empty`) that counts the room.  The queue is kept with
its history: `log` is all that was ever put, and the first `popped` of it have
been taken.

Each semaphore operation and each access to the queue is one step of the process
that makes it.  What the processes do between their calls is a parameter, the
`Client`.

All there is to know about the semaphores is three equations between them, the
length of the queue and the numbers of processes that stand at certain points
(`Counts`).  Each is kept by a step because the step changes one summand only
(`sum_update`), so `advance_counts`, which compares a process before and after its
step, is the whole proof.  From the equations follow mutual exclusion
(`Counts.alone`), that a process that may pop finds an item, and what a stuck state
looks like (`Counts.stuck`).
-/

namespace CppProgramming.Lib

namespace SemQueue

variable {V : Type*}

/-- `SEM_VALUE_MAX`: `sem_init` refuses a value beyond it, and `sem_post` fails there. -/
def semValueMax : ℕ := 2 ^ 31 - 1

/-! ### The processes -/

inductive Op (V : Type*)
  | put (v : V)
  | take

/-- Where a process is: between its calls, at a step of a call, or back from one with
what it took. -/
inductive Pc (V : Type*)
  | idle
  | putEmpty (v : V)
  | putMutex (v : V)
  | putIn (v : V)
  | putPushed
  | putFull
  | takeFull
  | takeMutex
  | takeIn
  | takePopped (v : V)
  | takeEmpty (v : V)
  | ret (taken : Option V)

structure Shared (V : Type*) where
  mutex : ℕ
  empty : ℕ
  full : ℕ
  log : List V
  popped : ℕ

/-- What is in the queue. -/
def Shared.queue (m : Shared V) : List V := m.log.drop m.popped

/-- A semaphore is waited for. -/
def wait (sem : ℕ) : Option ℕ := if 0 < sem then some (sem - 1) else none

/-- The first step of a call, for a queue with or without a bound. -/
def Op.enter (cap : Option ℕ) : Op V → Pc V
  | .put v => if cap.isSome then .putEmpty v else .putMutex v
  | .take => .takeFull

/-- The next step of a process in a call. -/
def advance (cap : Option ℕ) (m : Shared V) : Pc V → Option (Shared V × Pc V)
  | .putEmpty v => (wait m.empty).map fun empty => ({ m with empty := empty }, .putMutex v)
  | .putMutex v => (wait m.mutex).map fun mutex => ({ m with mutex := mutex }, .putIn v)
  | .putIn v => some ({ m with log := m.log ++ [v] }, .putPushed)
  | .putPushed => some ({ m with mutex := m.mutex + 1 }, .putFull)
  | .putFull => some ({ m with full := m.full + 1 }, .ret none)
  | .takeFull => (wait m.full).map fun full => ({ m with full := full }, .takeMutex)
  | .takeMutex => (wait m.mutex).map fun mutex => ({ m with mutex := mutex }, .takeIn)
  | .takeIn => m.log[m.popped]?.map fun v => ({ m with popped := m.popped + 1 }, .takePopped v)
  | .takePopped v =>
    some ({ m with mutex := m.mutex + 1 }, if cap.isSome then .takeEmpty v else .ret (some v))
  | .takeEmpty v => some ({ m with empty := m.empty + 1 }, .ret (some v))
  | .idle | .ret _ => none

/-- What the processes do between their calls: the calls they may make, and how what a
call returns changes their own state. -/
structure Client (Pid V L : Type*) where
  init : Pid → L
  calls : Pid → L → Op V → Prop
  after : Pid → L → Option V → L

structure State (Pid V L : Type*) where
  shared : Shared V
  pc : Pid → Pc V
  loc : Pid → L

inductive Label (Pid V : Type*)
  | call (q : Pid) (op : Op V)
  | step (q : Pid)
  | ret (q : Pid)

variable {Pid L : Type*} [DecidableEq Pid]

/-- The queue, bounded by `cap` or not, with its processes. -/
def system (cap : Option ℕ) (C : Client Pid V L) : System (State Pid V L) (Label Pid V) where
  init s := s.shared = ⟨1, cap.getD 0, 0, [], 0⟩ ∧ (∀ q, s.pc q = .idle) ∧ s.loc = C.init
  step s l t :=
    match l with
    | .call q op => s.pc q = .idle ∧ C.calls q (s.loc q) op ∧
        t = { s with pc := Function.update s.pc q (op.enter cap) }
    | .step q => ∃ m c, advance cap s.shared (s.pc q) = some (m, c) ∧
        t = { s with shared := m, pc := Function.update s.pc q c }
    | .ret q => ∃ r, s.pc q = .ret r ∧
        t = { s with
          pc := Function.update s.pc q .idle
          loc := Function.update s.loc q (C.after q (s.loc q) r) }

/-! ### What is counted -/

/-- In the critical section. -/
def Pc.inside : Pc V → ℕ
  | .putIn _ | .putPushed | .takeIn | .takePopped _ => 1
  | _ => 0

/-- Holding room that the queue does not have any more, or not yet. -/
def Pc.room : Pc V → ℕ
  | .putMutex _ | .putIn _ | .takePopped _ | .takeEmpty _ => 1
  | _ => 0

/-- Holding the right to an item: one that was put and is not announced, or one that is
still in the queue. -/
def Pc.item : Pc V → ℕ
  | .putPushed | .putFull | .takeMutex | .takeIn => 1
  | _ => 0

/-- What a process is about to put. -/
def Pc.toPut : Pc V → Multiset V
  | .putEmpty v | .putMutex v | .putIn v => {v}
  | _ => 0

/-- What a process took and has not got back yet. -/
def Pc.carried : Pc V → Multiset V
  | .takePopped v | .takeEmpty v | .ret (some v) => {v}
  | _ => 0

theorem wait_eq_some {sem n : ℕ} (h : wait sem = some n) : sem = n + 1 := by
  unfold wait at h
  split at h
  · obtain rfl := Option.some.inj h
    omega
  · exact absurd h (by simp)

theorem wait_eq_none {sem : ℕ} (h : wait sem = none) : sem = 0 := by
  unfold wait at h
  split at h
  · exact absurd h (by simp)
  · omega

variable {cap : Option ℕ} {m m' : Shared V} {c c' : Pc V}

/-- **What a step does to the counts.** -/
theorem advance_counts (h : advance cap m c = some (m', c')) :
    m'.mutex + c'.inside = m.mutex + c.inside ∧
    m'.full + c'.item + m'.popped + m.log.length = m.full + c.item + m.popped + m'.log.length ∧
    (cap.isSome → m'.empty + c'.room + m'.log.length + m.popped =
      m.empty + c.room + m.log.length + m'.popped) := by
  cases c with
  | idle | ret r => exact absurd h (by simp [advance])
  | putEmpty v | putMutex v | takeFull | takeMutex =>
    obtain ⟨n, hn, heq⟩ := Option.map_eq_some_iff.mp h
    obtain ⟨rfl, rfl⟩ := Prod.mk.inj heq
    have hsem := wait_eq_some hn
    refine ⟨?_, ?_, fun _ => ?_⟩ <;> simp +arith only [hsem, Pc.inside, Pc.item, Pc.room]
  | putIn v | putPushed | putFull | takeEmpty v =>
    obtain ⟨rfl, rfl⟩ := Prod.mk.inj (Option.some.inj h)
    refine ⟨?_, ?_, fun _ => ?_⟩ <;> simp +arith only [Pc.inside, Pc.item, Pc.room,
      List.length_append, List.length_singleton]
  | takeIn =>
    obtain ⟨v, -, heq⟩ := Option.map_eq_some_iff.mp h
    obtain ⟨rfl, rfl⟩ := Prod.mk.inj heq
    refine ⟨?_, ?_, fun _ => ?_⟩ <;> simp +arith only [Pc.inside, Pc.item, Pc.room]
  | takePopped v =>
    obtain ⟨rfl, rfl⟩ := Prod.mk.inj (Option.some.inj h)
    by_cases hcap : cap.isSome
    · refine ⟨?_, ?_, fun _ => ?_⟩ <;> simp +arith only [hcap, if_true, Pc.inside, Pc.item, Pc.room]
    · simp [hcap, Pc.inside, Pc.item]

/-- **Where the items are.**  What is put goes into the log, and what is popped is carried
by a process. -/
theorem advance_items (h : advance cap m c = some (m', c')) (hle : m.popped ≤ m.log.length) :
    (m'.log : Multiset V) + c'.toPut = m.log + c.toPut ∧
    ((m'.log.take m'.popped : List V) : Multiset V) + c.carried =
      ((m.log.take m.popped : List V) : Multiset V) + c'.carried := by
  cases c with
  | idle => exact absurd h (by simp [advance])
  | ret r => exact absurd h (by simp [advance])
  | putEmpty v | putMutex v | takeFull | takeMutex =>
    obtain ⟨n, hn, heq⟩ := Option.map_eq_some_iff.mp h
    obtain ⟨rfl, rfl⟩ := Prod.mk.inj heq
    exact ⟨rfl, rfl⟩
  | putPushed | putFull | takeEmpty v =>
    obtain ⟨rfl, rfl⟩ := Prod.mk.inj (Option.some.inj h)
    exact ⟨rfl, rfl⟩
  | putIn v =>
    obtain ⟨rfl, rfl⟩ := Prod.mk.inj (Option.some.inj h)
    refine ⟨?_, ?_⟩
    · rw [← Multiset.coe_add]
      exact add_zero _
    · rw [List.take_append_of_le_length hle]
      rfl
  | takeIn =>
    obtain ⟨v, hv, heq⟩ := Option.map_eq_some_iff.mp h
    obtain ⟨rfl, rfl⟩ := Prod.mk.inj heq
    refine ⟨rfl, ?_⟩
    rw [List.take_add_one, hv, ← Multiset.coe_add]
    exact add_zero _
  | takePopped v =>
    obtain ⟨rfl, rfl⟩ := Prod.mk.inj (Option.some.inj h)
    by_cases hcap : cap.isSome <;> simp [hcap, Pc.toPut, Pc.carried]

/-- **Only a process inside puts an item into the queue.** -/
theorem advance_log (h : advance cap m c = some (m', c')) :
    m'.log = m.log ∨ ∃ v, c = .putIn v ∧ c' = .putPushed ∧ m'.log = m.log ++ [v] := by
  cases c with
  | idle => exact absurd h (by simp [advance])
  | ret r => exact absurd h (by simp [advance])
  | putEmpty v | putMutex v | takeFull | takeMutex | takeIn =>
    obtain ⟨n, -, heq⟩ := Option.map_eq_some_iff.mp h
    obtain ⟨rfl, rfl⟩ := Prod.mk.inj heq
    exact Or.inl rfl
  | putPushed | putFull | takePopped v | takeEmpty v =>
    obtain ⟨rfl, rfl⟩ := Prod.mk.inj (Option.some.inj h)
    exact Or.inl rfl
  | putIn v =>
    obtain ⟨rfl, rfl⟩ := Prod.mk.inj (Option.some.inj h)
    exact Or.inr ⟨v, rfl, rfl, rfl⟩

/-! ### The invariant -/

variable [Fintype Pid] {C : Client Pid V L} {s t : State Pid V L} {l : Label Pid V} {q r : Pid}
  {op : Op V}

/-- **The counts**: one process may be inside, the room is in the semaphore or held, and
the items are in the semaphore or held. -/
structure Counts (cap : Option ℕ) (s : State Pid V L) : Prop where
  mutex : s.shared.mutex + ∑ q, (s.pc q).inside = 1
  items : s.shared.full + ∑ q, (s.pc q).item + s.shared.popped = s.shared.log.length
  room : ∀ n, cap = some n →
    s.shared.empty + ∑ q, (s.pc q).room + s.shared.log.length = n + s.shared.popped
  bounded : cap = none → ∀ q v, s.pc q ≠ .putEmpty v

theorem Counts.init (hs : (system cap C).init s) : Counts cap s := by
  obtain ⟨hshared, hpc, -⟩ := hs
  refine ⟨?_, ?_, fun n hn => ?_, fun _ q v => by simp [hpc]⟩
  · simp [hshared, hpc, Pc.inside]
  · simp [hshared, hpc, Pc.item]
  · simp [hshared, hpc, Pc.room, hn]

/-- **The rule for the counts**: one process goes on to `c`, and the shared part with it. -/
theorem Counts.goto (h : Counts cap s) {loc : Pid → L}
    (hcounts : m'.mutex + c.inside = s.shared.mutex + (s.pc q).inside ∧
      m'.full + c.item + m'.popped + s.shared.log.length =
        s.shared.full + (s.pc q).item + s.shared.popped + m'.log.length ∧
      (cap.isSome → m'.empty + c.room + m'.log.length + s.shared.popped =
        s.shared.empty + (s.pc q).room + s.shared.log.length + m'.popped))
    (hbounded : cap = none → ∀ v, c ≠ .putEmpty v) :
    Counts cap { shared := m', pc := Function.update s.pc q c, loc := loc } := by
  obtain ⟨hmutex, hitems, hroom⟩ := hcounts
  refine ⟨?_, ?_, fun n hn => ?_, fun hcap r v => ?_⟩
  · have hsum := sum_update Pc.inside s.pc q c
    have := h.mutex
    dsimp only
    omega
  · have hsum := sum_update Pc.item s.pc q c
    have := h.items
    dsimp only
    omega
  · have hsum := sum_update Pc.room s.pc q c
    have := h.room n hn
    have := hroom (by simp [hn])
    dsimp only
    omega
  · by_cases hrq : r = q
    · subst hrq
      dsimp only
      rw [Function.update_self]
      exact hbounded hcap v
    · dsimp only
      rw [Function.update_of_ne hrq]
      exact h.bounded hcap r v

theorem advance_ne_putEmpty (h : advance cap m c = some (m', c')) (v : V) : c' ≠ .putEmpty v := by
  rintro rfl
  cases c with
  | takePopped v => by_cases hcap : cap.isSome <;> simp [advance, hcap] at h
  | _ => simp [advance] at h

theorem Counts.step (h : Counts cap s) (ht : (system cap C).step s l t) : Counts cap t := by
  cases l with
  | call q op =>
    obtain ⟨hq, -, rfl⟩ := ht
    refine h.goto ?_ fun hcap v => ?_
    · rw [hq]
      cases op with
      | take => exact ⟨rfl, rfl, fun _ => rfl⟩
      | put v => by_cases hcap : cap.isSome <;> simp [Op.enter, hcap, Pc.inside, Pc.item, Pc.room]
    · cases op <;> simp [Op.enter, hcap]
  | step q =>
    obtain ⟨m', c', hadv, rfl⟩ := ht
    exact h.goto (advance_counts hadv) fun _ => advance_ne_putEmpty hadv
  | ret q =>
    obtain ⟨r, hq, rfl⟩ := ht
    refine h.goto ?_ fun _ _ => by simp
    rw [hq]
    exact ⟨rfl, rfl, fun _ => rfl⟩

theorem Counts.of_reachable (h : (system cap C).Reachable s) : Counts cap s :=
  h.invariant (fun _ => Counts.init) fun _ _ _ _ hs ht => hs.step ht

/-! ### What follows from the counts -/

section

omit [DecidableEq Pid]

/-- **Mutual exclusion.** -/
theorem Counts.alone (h : Counts cap s) (hq : (s.pc q).inside = 1) (hrq : r ≠ q) :
    (s.pc r).inside = 0 := by
  have hle := add_weight_le_sum Pc.inside s.pc hrq.symm
  have := h.mutex
  omega

theorem Counts.outside (h : Counts cap s) (hmutex : 0 < s.shared.mutex) (q : Pid) :
    (s.pc q).inside = 0 := by
  have hle := weight_le_sum Pc.inside s.pc q
  have := h.mutex
  omega

theorem Counts.popped_le (h : Counts cap s) : s.shared.popped ≤ s.shared.log.length := by
  have := h.items
  omega

/-- A process with the right to an item finds one. -/
theorem Counts.popped_lt (h : Counts cap s) (hq : s.pc q = .takeIn) :
    s.shared.popped < s.shared.log.length := by
  have hle := weight_le_sum Pc.item s.pc q
  rw [hq] at hle
  have := h.items
  simp only [show (Pc.takeIn : Pc V).item = 1 from rfl] at hle
  omega

/-- A process that holds room leaves the queue less than full. -/
theorem Counts.length_lt (h : Counts cap s) {n : ℕ} (hn : cap = some n)
    (hq : (s.pc q).room = 1) : s.shared.log.length < n + s.shared.popped := by
  have hle := weight_le_sum Pc.room s.pc q
  have := h.room n hn
  omega

theorem Counts.length_le (h : Counts cap s) {n : ℕ} (hn : cap = some n) :
    s.shared.log.length ≤ n + s.shared.popped := by
  have := h.room n hn
  omega

/-- No semaphore holds more than the queue has room, so that no `sem_post` fails where
`SEM_VALUE_MAX` is not below the bound. -/
theorem Counts.semaphores_le (h : Counts cap s) {n : ℕ} (hn : cap = some n) :
    s.shared.mutex ≤ 1 ∧ s.shared.empty ≤ n ∧ s.shared.full ≤ n := by
  have hmutex := h.mutex
  have hitems := h.items
  have hroom := h.room n hn
  exact ⟨by omega, by omega, by omega⟩

/-- A process that cannot go on waits for a semaphore. -/
theorem Counts.advance_none (h : Counts cap s) (hadv : advance cap s.shared (s.pc q) = none) :
    s.pc q = .idle ∨ (∃ r, s.pc q = .ret r) ∨ (∃ v, s.pc q = .putEmpty v ∧ s.shared.empty = 0) ∨
      s.pc q = .takeFull ∧ s.shared.full = 0 ∨
      (s.pc q = .takeMutex ∨ ∃ v, s.pc q = .putMutex v) ∧ s.shared.mutex = 0 := by
  cases hq : s.pc q with
  | idle => exact Or.inl rfl
  | ret r => exact Or.inr (Or.inl ⟨r, rfl⟩)
  | putEmpty v =>
    rw [hq] at hadv
    exact Or.inr (Or.inr (Or.inl ⟨v, rfl, wait_eq_none (Option.map_eq_none_iff.mp hadv)⟩))
  | takeFull =>
    rw [hq] at hadv
    have hfull := wait_eq_none (Option.map_eq_none_iff.mp hadv)
    exact Or.inr (Or.inr (Or.inr (Or.inl ⟨rfl, hfull⟩)))
  | takeMutex =>
    rw [hq] at hadv
    have hmutex := wait_eq_none (Option.map_eq_none_iff.mp hadv)
    exact Or.inr (Or.inr (Or.inr (Or.inr ⟨Or.inl rfl, hmutex⟩)))
  | putMutex v =>
    rw [hq] at hadv
    have hmutex := wait_eq_none (Option.map_eq_none_iff.mp hadv)
    exact Or.inr (Or.inr (Or.inr (Or.inr ⟨Or.inr ⟨v, rfl⟩, hmutex⟩)))
  | takeIn =>
    rw [hq] at hadv
    have hlt := h.popped_lt hq
    have hnone := Option.map_eq_none_iff.mp hadv
    exact absurd (List.getElem?_eq_none_iff.mp hnone) (by omega)
  | _ =>
    rw [hq] at hadv
    simp [advance] at hadv

theorem Counts.mutex_eq (h : Counts cap s) (hinside : ∀ q, (s.pc q).inside = 0) :
    s.shared.mutex = 1 := by
  have hsum := h.mutex
  rwa [Finset.sum_eq_zero fun q _ => hinside q] at hsum

/-- When every process is between its calls or at the first step of one, all the items are in
the semaphore, and all the room. -/
theorem Counts.settled (h : Counts cap s)
    (hcases : ∀ q, s.pc q = .idle ∨ (∃ v, s.pc q = .putEmpty v) ∨ s.pc q = .takeFull) :
    s.shared.full + s.shared.popped = s.shared.log.length ∧
      ∀ n, cap = some n → s.shared.empty + s.shared.log.length = n + s.shared.popped := by
  have hitem : ∀ q, (s.pc q).item = 0 := by
    intro q
    rcases hcases q with hq | ⟨v, hq⟩ | hq <;> rw [hq] <;> rfl
  have hroom : ∀ q, (s.pc q).room = 0 := by
    intro q
    rcases hcases q with hq | ⟨v, hq⟩ | hq <;> rw [hq] <;> rfl
  refine ⟨?_, fun n hn => ?_⟩
  · have hsum := h.items
    rwa [Finset.sum_eq_zero fun q _ => hitem q] at hsum
  · have hsum := h.room n hn
    rwa [Finset.sum_eq_zero fun q _ => hroom q] at hsum

end

/-- **A stuck state**: every process is between its calls and makes none, or waits for
room or for an item; then all the items are in the semaphore, and all the room. -/
theorem Counts.stuck (h : Counts cap s) (hstuck : (system cap C).Stuck s) :
    (∀ q, (s.pc q = .idle ∧ ∀ op, ¬ C.calls q (s.loc q) op) ∨
      (∃ v, s.pc q = .putEmpty v ∧ s.shared.empty = 0) ∨ s.pc q = .takeFull ∧ s.shared.full = 0) ∧
    s.shared.full + s.shared.popped = s.shared.log.length ∧
    ∀ n, cap = some n → s.shared.empty + s.shared.log.length = n + s.shared.popped := by
  have hnone : ∀ q, advance cap s.shared (s.pc q) = none := by
    intro q
    by_contra hne
    obtain ⟨⟨m', c'⟩, hadv⟩ := Option.ne_none_iff_exists'.mp hne
    exact hstuck (.step q) _ ⟨m', c', hadv, rfl⟩
  have hret : ∀ q r, s.pc q ≠ .ret r := fun q r hq => hstuck (.ret q) _ ⟨r, hq, rfl⟩
  have hinside : ∀ q, (s.pc q).inside = 0 := by
    intro q
    rcases h.advance_none (hnone q) with hq | ⟨r, hq⟩ | ⟨v, hq, _⟩ | ⟨hq, _⟩ | ⟨hq | ⟨v, hq⟩, _⟩ <;>
      rw [hq] <;> rfl
  have hmutex := h.mutex_eq hinside
  have hcases : ∀ q, (s.pc q = .idle ∧ ∀ op, ¬ C.calls q (s.loc q) op) ∨
      (∃ v, s.pc q = .putEmpty v ∧ s.shared.empty = 0) ∨ s.pc q = .takeFull ∧ s.shared.full = 0 := by
    intro q
    rcases h.advance_none (hnone q) with hq | ⟨r, hq⟩ | hq | hq | ⟨_, h0⟩
    · exact Or.inl ⟨hq, fun op hop => hstuck (.call q op) _ ⟨hq, hop, rfl⟩⟩
    · exact absurd hq (hret q r)
    · exact Or.inr (Or.inl hq)
    · exact Or.inr (Or.inr hq)
    · omega
  refine ⟨hcases, h.settled fun q => ?_⟩
  rcases hcases q with ⟨hq, -⟩ | ⟨v, hq, -⟩ | ⟨hq, -⟩
  · exact Or.inl hq
  · exact Or.inr (Or.inl ⟨v, hq⟩)
  · exact Or.inr (Or.inr hq)

/-! ### What the calls do -/

/-- The points of a call. -/
inductive Op.Within : Op V → Pc V → Prop
  | putEmpty (v : V) : Within (.put v) (.putEmpty v)
  | putMutex (v : V) : Within (.put v) (.putMutex v)
  | putIn (v : V) : Within (.put v) (.putIn v)
  | putPushed (v : V) : Within (.put v) .putPushed
  | putFull (v : V) : Within (.put v) .putFull
  | putRet (v : V) : Within (.put v) (.ret none)
  | takeFull : Within .take .takeFull
  | takeMutex : Within .take .takeMutex
  | takeIn : Within .take .takeIn
  | takePopped (v : V) : Within .take (.takePopped v)
  | takeEmpty (v : V) : Within .take (.takeEmpty v)
  | takeRet (v : V) : Within .take (.ret (some v))

theorem Op.within_enter (op : Op V) : op.Within (op.enter cap) := by
  cases op with
  | take => exact .takeFull
  | put v =>
    rw [Op.enter]
    split
    · exact .putEmpty v
    · exact .putMutex v

theorem Op.Within.advance (hc : op.Within c)
    (h : advance cap m c = some (m', c')) : op.Within c' := by
  cases hc with
  | putRet v | takeRet v => exact absurd h (by simp [SemQueue.advance])
  | putEmpty v =>
    obtain ⟨n, -, heq⟩ := Option.map_eq_some_iff.mp h
    obtain ⟨-, rfl⟩ := Prod.mk.inj heq
    exact .putMutex v
  | putMutex v =>
    obtain ⟨n, -, heq⟩ := Option.map_eq_some_iff.mp h
    obtain ⟨-, rfl⟩ := Prod.mk.inj heq
    exact .putIn v
  | putIn v =>
    obtain ⟨-, rfl⟩ := Prod.mk.inj (Option.some.inj h)
    exact .putPushed v
  | putPushed v =>
    obtain ⟨-, rfl⟩ := Prod.mk.inj (Option.some.inj h)
    exact .putFull v
  | putFull v =>
    obtain ⟨-, rfl⟩ := Prod.mk.inj (Option.some.inj h)
    exact .putRet v
  | takeFull =>
    obtain ⟨n, -, heq⟩ := Option.map_eq_some_iff.mp h
    obtain ⟨-, rfl⟩ := Prod.mk.inj heq
    exact .takeMutex
  | takeMutex =>
    obtain ⟨n, -, heq⟩ := Option.map_eq_some_iff.mp h
    obtain ⟨-, rfl⟩ := Prod.mk.inj heq
    exact .takeIn
  | takeIn =>
    obtain ⟨v, -, heq⟩ := Option.map_eq_some_iff.mp h
    obtain ⟨-, rfl⟩ := Prod.mk.inj heq
    exact .takePopped v
  | takePopped v =>
    obtain ⟨-, rfl⟩ := Prod.mk.inj (Option.some.inj h)
    split
    · exact .takeEmpty v
    · exact .takeRet v
  | takeEmpty v =>
    obtain ⟨-, rfl⟩ := Prod.mk.inj (Option.some.inj h)
    exact .takeRet v

omit [Fintype Pid] in
/-- **A process in a call** is in one that it may make. -/
theorem calling (h : (system cap C).Reachable s) (q : Pid) :
    s.pc q = .idle ∨ ∃ op, C.calls q (s.loc q) op ∧ op.Within (s.pc q) := by
  refine h.invariant
    (P := fun s => ∀ q, s.pc q = .idle ∨ ∃ op, C.calls q (s.loc q) op ∧ op.Within (s.pc q))
    (fun s hinit q => ?_) (fun s l t _ hs ht p => ?_) q
  · obtain ⟨-, hpc, -⟩ := hinit
    exact Or.inl (hpc q)
  cases l with
  | call q op =>
    obtain ⟨hq, hcall, rfl⟩ := ht
    by_cases hpq : p = q
    · subst hpq
      exact Or.inr ⟨op, hcall, by simpa using op.within_enter⟩
    · simpa only [Function.update_of_ne hpq] using hs p
  | step q =>
    obtain ⟨m', c', hadv, rfl⟩ := ht
    by_cases hpq : p = q
    · subst hpq
      rcases hs p with hidle | ⟨op, hcall, hop⟩
      · rw [hidle] at hadv
        exact absurd hadv (by simp [advance])
      · exact Or.inr ⟨op, hcall, by simpa using hop.advance hadv⟩
    · simpa only [Function.update_of_ne hpq] using hs p
  | ret q =>
    obtain ⟨r, -, rfl⟩ := ht
    by_cases hpq : p = q
    · subst hpq
      exact Or.inl (by simp)
    · simpa only [Function.update_of_ne hpq] using hs p

omit [Fintype Pid] in
/-- **The rule for the processes' own states**: what holds at first and is kept by what
calls return. -/
theorem locals {P : Pid → L → Prop} (hinit : ∀ q, P q (C.init q))
    (hput : ∀ q l v, P q l → C.calls q l (.put v) → P q (C.after q l none))
    (htake : ∀ q l v, P q l → C.calls q l .take → P q (C.after q l (some v)))
    (h : (system cap C).Reachable s) (q : Pid) : P q (s.loc q) := by
  refine h.invariant (P := fun s => ∀ q, P q (s.loc q)) (fun s hs q => ?_)
    (fun s l t hs hp ht p => ?_) q
  · obtain ⟨-, -, hloc⟩ := hs
    rw [hloc]
    exact hinit q
  · cases l with
    | call q op =>
      obtain ⟨-, -, rfl⟩ := ht
      exact hp p
    | step q =>
      obtain ⟨m', c', -, rfl⟩ := ht
      exact hp p
    | ret q =>
      obtain ⟨r, hq, rfl⟩ := ht
      by_cases hpq : p = q
      · subst hpq
        have hcalling := calling hs p
        rw [hq] at hcalling
        rcases hcalling with hidle | ⟨op, hcall, hop⟩
        · exact absurd hidle (by simp)
        · dsimp only
          rw [Function.update_self]
          cases hop with
          | putRet v => exact hput p _ v (hp p) hcall
          | takeRet v => exact htake p _ v (hp p) hcall
      · simpa only [Function.update_of_ne hpq] using hp p

/-! ### Accounts -/

/-- In a `put`. -/
def Pc.putting : Pc V → Bool
  | .putEmpty _ | .putMutex _ | .putIn _ | .putPushed | .putFull | .ret none => true
  | _ => false

/-- A call of `put`. -/
def Op.isPut : Op V → Bool
  | .put _ => true
  | .take => false

theorem Op.Within.putting (hc : op.Within c) : c.putting = op.isPut := by
  cases hc <;> rfl

/-- **Books of the clients**: what a process has yet to put, and what it has taken, changes
as its calls say. -/
structure Accounts (C : Client Pid V L) (rest taken : Pid → L → Multiset V) : Prop where
  start : ∀ q, taken q (C.init q) = 0
  put : ∀ q l v, C.calls q l (.put v) →
    rest q l = {v} + rest q (C.after q l none) ∧ taken q (C.after q l none) = taken q l
  take : ∀ q l v, C.calls q l .take →
    rest q (C.after q l (some v)) = rest q l ∧ taken q (C.after q l (some v)) = {v} + taken q l

/-- What a process at `c` has yet to put. -/
def pending (C : Client Pid V L) (rest : Pid → L → Multiset V) (q : Pid) (l : L) (c : Pc V) :
    Multiset V :=
  c.toPut + rest q (if c.putting then C.after q l none else l)

/-- What a process at `c` has taken. -/
def received (taken : Pid → L → Multiset V) (q : Pid) (l : L) (c : Pc V) : Multiset V :=
  c.carried + taken q l

variable {rest taken : Pid → L → Multiset V}

/-- **The books balance**: what was put and what is yet to be put are everything; what was
popped is with the processes. -/
structure Balanced (C : Client Pid V L) (rest taken : Pid → L → Multiset V)
    (s : State Pid V L) : Prop where
  put : (s.shared.log : Multiset V) + ∑ q, pending C rest q (s.loc q) (s.pc q) =
    ∑ q, rest q (C.init q)
  popped : ((s.shared.log.take s.shared.popped : List V) : Multiset V) =
    ∑ q, received taken q (s.loc q) (s.pc q)

/-- **The rule for the books**: one process goes on, and the shared part with it. -/
theorem Balanced.goto (h : Balanced C rest taken s) {l' : L}
    (hput : (m'.log : Multiset V) + pending C rest q l' c =
      s.shared.log + pending C rest q (s.loc q) (s.pc q))
    (hpopped : ((m'.log.take m'.popped : List V) : Multiset V) +
        received taken q (s.loc q) (s.pc q) =
      ((s.shared.log.take s.shared.popped : List V) : Multiset V) + received taken q l' c) :
    Balanced C rest taken
      ⟨m', Function.update s.pc q c, Function.update s.loc q l'⟩ := by
  refine ⟨?_, ?_⟩
  · have hsum := sum_add_eq (fun r => pending C rest r (s.loc r) (s.pc r))
      (fun r => pending C rest r (Function.update s.loc q l' r) (Function.update s.pc q c r)) q
      fun r hr => by rw [Function.update_of_ne hr, Function.update_of_ne hr]
    rw [Function.update_self, Function.update_self] at hsum
    refine add_right_cancel (b := pending C rest q (s.loc q) (s.pc q)) ?_
    rw [add_assoc, hsum, ← h.put, add_left_comm, hput]
    rw [add_left_comm, add_assoc]
  · have hsum := sum_add_eq (fun r => received taken r (s.loc r) (s.pc r))
      (fun r => received taken r (Function.update s.loc q l' r) (Function.update s.pc q c r)) q
      fun r hr => by rw [Function.update_of_ne hr, Function.update_of_ne hr]
    rw [Function.update_self, Function.update_self] at hsum
    refine add_right_cancel (b := received taken q (s.loc q) (s.pc q)) ?_
    rw [hpopped, hsum, h.popped]

theorem advance_putting (hc : op.Within c) (h : advance cap m c = some (m', c')) :
    c'.putting = c.putting := by
  rw [hc.putting, (hc.advance h).putting]

omit [DecidableEq Pid] [Fintype Pid] in
theorem pending_enter (hacc : Accounts C rest taken) {l : L} (hcall : C.calls q l op) :
    pending C rest q l (op.enter cap) = rest q l := by
  cases op with
  | take => exact zero_add _
  | put v =>
    rw [(hacc.put q l v hcall).1, Op.enter]
    split <;> rfl

theorem carried_enter : (op.enter cap).carried = 0 := by
  cases op with
  | take => rfl
  | put v =>
    rw [Op.enter]
    split <;> rfl

theorem Balanced.of_reachable (hacc : Accounts C rest taken) (h : (system cap C).Reachable s) :
    Balanced C rest taken s := by
  refine h.invariant (fun s hinit => ?_) (fun s l t hs hb ht => ?_)
  · obtain ⟨hshared, hpc, hloc⟩ := hinit
    refine ⟨?_, ?_⟩
    · simp [hshared, hpc, hloc, pending, Pc.toPut, Pc.putting]
    · simp [hshared, hpc, hloc, received, Pc.carried, hacc.start]
  · cases l with
    | call q op =>
      obtain ⟨hq, hcall, rfl⟩ := ht
      rw [← Function.update_eq_self q s.loc]
      refine hb.goto ?_ ?_
      · rw [pending_enter hacc hcall, hq]
        exact congrArg _ (zero_add _).symm
      · rw [hq, received, received, carried_enter]
        rfl
    | step q =>
      obtain ⟨m', c', hadv, rfl⟩ := ht
      obtain ⟨hlog, htaken⟩ := advance_items hadv (Counts.of_reachable hs).popped_le
      rw [← Function.update_eq_self q s.loc]
      refine hb.goto ?_ ?_
      · have hputting : c'.putting = (s.pc q).putting := by
          rcases calling hs q with hidle | ⟨op, -, hop⟩
          · rw [hidle] at hadv
            exact absurd hadv (by simp [advance])
          · exact advance_putting hop hadv
        rw [pending, pending, hputting, ← add_assoc, hlog, add_assoc]
      · rw [received, received, ← add_assoc, htaken, add_assoc]
    | ret q =>
      obtain ⟨r, hq, rfl⟩ := ht
      have hcalling := calling hs q
      rw [hq] at hcalling
      rcases hcalling with hidle | ⟨op, hcall, hop⟩
      · exact absurd hidle (by simp)
      · refine hb.goto ?_ ?_
        · rw [hq]
          cases hop with
          | putRet v => rfl
          | takeRet v =>
            show _ + (0 + rest q _) = _ + (0 + rest q _)
            rw [if_neg (by simp [Pc.putting]), if_neg (by simp [Pc.putting]),
              (hacc.take q _ v hcall).1]
        · rw [hq]
          cases hop with
          | putRet v =>
            show _ + (0 + taken q _) = _ + (0 + taken q _)
            rw [(hacc.put q _ v hcall).2]
          | takeRet v =>
            show _ + ({v} + taken q _) = _ + (0 + taken q _)
            rw [(hacc.take q _ v hcall).2, zero_add]

/-! ### How long runs are -/

/-- How far a process is in a round of seven steps; a round begins behind an access to the
queue. -/
def Pc.offset : Pc V → ℕ
  | .putPushed | .takePopped _ => 0
  | .putFull | .takeEmpty _ => 1
  | .ret _ => 2
  | .idle => 3
  | .putEmpty _ | .takeFull => 4
  | .putMutex _ | .takeMutex => 5
  | .putIn _ | .takeIn => 6

theorem Pc.offset_le (c : Pc V) : c.offset ≤ 6 := by
  cases c <;> simp [offset]

theorem advance_offset (h : advance cap m c = some (m', c')) :
    7 * (m.log.length + m.popped) + c.offset < 7 * (m'.log.length + m'.popped) + c'.offset := by
  cases c with
  | idle | ret r => exact absurd h (by simp [advance])
  | putEmpty v | putMutex v | takeFull | takeMutex | takeIn =>
    obtain ⟨n, -, heq⟩ := Option.map_eq_some_iff.mp h
    obtain ⟨rfl, rfl⟩ := Prod.mk.inj heq
    simp +arith only [Pc.offset]
  | putIn v | putPushed | putFull | takeEmpty v =>
    obtain ⟨rfl, rfl⟩ := Prod.mk.inj (Option.some.inj h)
    simp +arith only [Pc.offset, List.length_append, List.length_singleton]
  | takePopped v =>
    obtain ⟨rfl, rfl⟩ := Prod.mk.inj (Option.some.inj h)
    by_cases hcap : cap.isSome <;> simp [hcap, Pc.offset]

/-- The work done so far. -/
def State.work (s : State Pid V L) : ℕ :=
  7 * (s.shared.log.length + s.shared.popped) + ∑ q, (s.pc q).offset

/-- One process goes on to `c`, and the shared part with it. -/
theorem work_goto {loc : Pid → L}
    (hoffset : 7 * (s.shared.log.length + s.shared.popped) + (s.pc q).offset <
      7 * (m'.log.length + m'.popped) + c.offset) :
    s.work < State.work { shared := m', pc := Function.update s.pc q c, loc := loc } := by
  have hsum := sum_update Pc.offset s.pc q c
  rw [State.work, State.work]
  dsimp only
  omega

theorem work_lt (ht : (system cap C).step s l t) : s.work < t.work := by
  cases l with
  | call q op =>
    obtain ⟨hq, -, rfl⟩ := ht
    refine work_goto ?_
    rw [hq]
    cases op with
    | take => simp [Op.enter, Pc.offset]
    | put v => by_cases hcap : cap.isSome <;> simp [Op.enter, hcap, Pc.offset]
  | step q =>
    obtain ⟨m', c', hadv, rfl⟩ := ht
    exact work_goto (advance_offset hadv)
  | ret q =>
    obtain ⟨r, hq, rfl⟩ := ht
    refine work_goto ?_
    rw [hq]
    exact Nat.lt_succ_self _

/-- **A run is no longer than the work that it does.** -/
theorem length_le_work {ls : List (Label Pid V)} (h : (system cap C).Run s ls t) :
    ls.length + s.work ≤ t.work := by
  induction h with
  | nil => exact (Nat.zero_add _).le
  | snoc _ hstep ih =>
    have hlt := work_lt hstep
    rw [List.length_append, List.length_singleton]
    omega

theorem work_of_reachable (h : (system cap C).Reachable s) : 3 * Fintype.card Pid ≤ s.work := by
  obtain ⟨s₀, ls, ⟨hshared, hpc, -⟩, hrun⟩ := h
  have hle := length_le_work hrun
  have hstart : s₀.work = 3 * Fintype.card Pid := by
    simp [State.work, hshared, hpc, Pc.offset, mul_comm]
  omega

/-- The work by the number of items. -/
theorem work_le (h : (system cap C).Reachable s) :
    s.work ≤ 14 * s.shared.log.length + 6 * Fintype.card Pid := by
  have hpopped := (Counts.of_reachable h).popped_le
  have hsum : ∑ q, (s.pc q).offset ≤ ∑ _q : Pid, 6 :=
    Finset.sum_le_sum fun q _ => (s.pc q).offset_le
  have hcard : ∑ _q : Pid, 6 = 6 * Fintype.card Pid := by simp [mul_comm]
  rw [State.work]
  omega

/-! ### Runs, computed -/

section Next

variable [∀ q l op, Decidable (C.calls q l op)]

def next (cap : Option ℕ) (C : Client Pid V L) [∀ q l op, Decidable (C.calls q l op)]
    (s : State Pid V L) : Label Pid V → Option (State Pid V L)
  | .call q op =>
    match s.pc q with
    | .idle =>
      if C.calls q (s.loc q) op then
        some { s with pc := Function.update s.pc q (op.enter cap) }
      else none
    | _ => none
  | .step q => (advance cap s.shared (s.pc q)).map fun r =>
      { s with shared := r.1, pc := Function.update s.pc q r.2 }
  | .ret q =>
    match s.pc q with
    | .ret r => some { s with
        pc := Function.update s.pc q .idle
        loc := Function.update s.loc q (C.after q (s.loc q) r) }
    | _ => none

omit [Fintype Pid] in
theorem step_of_next (h : next cap C s l = some t) : (system cap C).step s l t := by
  cases l with
  | call q op =>
    simp only [next] at h
    split at h
    · obtain ⟨hcall, ht⟩ := Option.ite_none_right_eq_some.mp h
      exact ⟨‹_›, hcall, (Option.some.inj ht).symm⟩
    · exact absurd h (by simp)
  | step q =>
    obtain ⟨⟨m', c'⟩, hadv, rfl⟩ := Option.map_eq_some_iff.mp h
    exact ⟨m', c', hadv, rfl⟩
  | ret q =>
    simp only [next] at h
    split at h
    · exact ⟨_, ‹_›, (Option.some.inj h).symm⟩
    · exact absurd h (by simp)

omit [Fintype Pid] in
theorem run_of_next {ls : List (Label Pid V)} (h : ls.foldlM (next cap C) s = some t) :
    (system cap C).Run s ls t :=
  .of_foldlM (fun _ _ _ => step_of_next) h

/-- The labels of a whole call, for a queue with a bound. -/
def wholeCall (q : Pid) (op : Op V) : List (Label Pid V) :=
  .call q op :: List.replicate 5 (.step q) ++ [.ret q]

end Next

end SemQueue

end CppProgramming.Lib
