import CppProgramming.Lib.Counting
import CppProgramming.Lib.Transition
import Mathlib.Algebra.BigOperators.Group.Finset.Piecewise
import Mathlib.Algebra.Group.Action.Defs
import Mathlib.Algebra.Order.BigOperators.Group.Finset

/-!
# A queue guarded by a mutex and condition variables

A queue that any number of threads put into and take from.  A mutex guards every
access.  A thread that finds nothing to take, or in a bounded queue no room to put,
waits on a condition variable, in a loop that tests again after each wake-up; a thread
that has accessed the queue signals the other side after it has released the mutex.

A signal wakes at least one of the threads that wait for it, if there are any, and any
thread may be woken spuriously.  What the threads do between their calls, and whoever
else takes part, is a parameter, the `Client`.

What there is to know is `Guarded`: the threads inside are counted by the mutex, the
queue keeps its bound, who is about to access it may, and no wake-up is lost.  The last
is an inequality: while somebody waits for an item, every item in the queue has somebody
who is on his way to take it or about to announce it (`Pc.toItems`), and the same holds of
the room (`Pc.toRoom`).
-/

namespace CppProgramming.Lib.CondQueue

variable {V : Type*}

/-! ### The threads -/

inductive Op (V : Type*)
  | put (v : V)
  | take
  deriving DecidableEq

/-- What a call has done to the queue. -/
inductive Done (V : Type*)
  | put
  | took (v : V)
  deriving DecidableEq

/-- Where a thread is: between its calls, at a step of a call, waiting, woken and on its way
back to the mutex, or back from a call. -/
inductive Pc (V : Type*)
  | idle
  | lock (op : Op V)
  | test (op : Op V)
  | waiting (op : Op V)
  | woken (op : Op V)
  | access (op : Op V)
  | unlock (done : Done V)
  | signal (done : Done V)
  | ret (done : Done V)
  deriving DecidableEq

structure Shared (V : Type*) where
  held : Bool
  queue : List V
  deriving DecidableEq

/-- The condition of the loop around the wait. -/
def Op.mustWait (cap : Option ℕ) (m : Shared V) : Op V → Bool
  | .put _ => cap = some m.queue.length
  | .take => m.queue.length = 0

/-- Only in a bounded queue anybody waits for room. -/
def Done.signals (cap : Option ℕ) : Done V → Bool
  | .put => true
  | .took _ => cap.isSome

/-- The next step of a thread in a call, but for its signal. -/
def advance (cap : Option ℕ) (m : Shared V) : Pc V → Option (Shared V × Pc V)
  | .lock op | .woken op => if m.held then none else some ({ m with held := true }, .test op)
  | .test op =>
    if op.mustWait cap m then some ({ m with held := false }, .waiting op)
    else some (m, .access op)
  | .access (.put v) => some ({ m with queue := m.queue ++ [v] }, .unlock .put)
  | .access .take =>
    match m.queue with
    | [] => none
    | v :: rest => some ({ m with queue := rest }, .unlock (.took v))
  | .unlock done =>
    some ({ m with held := false }, if done.signals cap then .signal done else .ret done)
  | .idle | .waiting _ | .signal _ | .ret _ => none

/-- Waiting for the signal of a call that has done `done`. -/
def Pc.waitsFor : Done V → Pc V → Bool
  | .put, .waiting .take | .took _, .waiting (.put _) => true
  | _, _ => false

def Pc.wake : Pc V → Pc V
  | .waiting op => .woken op
  | c => c

/-- What goes on outside the calls: which calls a thread makes and what it does when one
is back, the steps of its own that it makes between its calls, and the steps of others. -/
structure Client (Pid V G A : Type*) where
  init : G → Prop
  call : G → Pid → Op V → Option G
  ret : G → Pid → Done V → Option G
  between : G → Pid → Option G
  act : G → A → Option G

structure State (Pid V G : Type*) where
  shared : Shared V
  pc : Pid → Pc V
  client : G

inductive Label (Pid V A : Type*)
  | call (q : Pid) (op : Op V)
  | step (q : Pid)
  | signal (q : Pid) (woken : Finset Pid)
  | wake (q : Pid)
  | ret (q : Pid)
  | between (q : Pid)
  | act (a : A)

variable {Pid G A : Type*} [DecidableEq Pid] [Fintype Pid]

def State.waiters (s : State Pid V G) (done : Done V) : Finset Pid :=
  Finset.univ.filter fun q => (s.pc q).waitsFor done

/-- One thread goes on to `c`. -/
def State.goto (s : State Pid V G) (q : Pid) (c : Pc V) : State Pid V G :=
  { s with pc := Function.update s.pc q c }

/-- The threads in `woken` are woken, and `q` is back from its signal. -/
def State.signalled (s : State Pid V G) (q : Pid) (done : Done V) (woken : Finset Pid) :
    State Pid V G :=
  { s with pc := fun r => if r = q then .ret done else if r ∈ woken then (s.pc r).wake else s.pc r }

def State.next (cap : Option ℕ) (C : Client Pid V G A) (s : State Pid V G) :
    Label Pid V A → Option (State Pid V G)
  | .call q op =>
    match s.pc q with
    | .idle => (C.call s.client q op).map fun g => { s.goto q (.lock op) with client := g }
    | _ => none
  | .step q =>
    (advance cap s.shared (s.pc q)).map fun r => { s.goto q r.2 with shared := r.1 }
  | .signal q woken =>
    match s.pc q with
    | .signal done =>
      if woken ⊆ s.waiters done ∧ (woken = ∅ → s.waiters done = ∅) then
        some (s.signalled q done woken)
      else none
    | _ => none
  | .wake q =>
    match s.pc q with
    | .waiting op => some (s.goto q (.woken op))
    | _ => none
  | .ret q =>
    match s.pc q with
    | .ret done => (C.ret s.client q done).map fun g => { s.goto q .idle with client := g }
    | _ => none
  | .between q =>
    match s.pc q with
    | .idle => (C.between s.client q).map fun g => { s with client := g }
    | _ => none
  | .act a => (C.act s.client a).map fun g => { s with client := g }

/-- The queue, bounded by `cap` or not, with its threads. -/
def system (cap : Option ℕ) (C : Client Pid V G A) : System (State Pid V G) (Label Pid V A) :=
  System.ofStep (fun s => s.shared = ⟨false, []⟩ ∧ (∀ q, s.pc q = .idle) ∧ C.init s.client)
    (State.next cap C)

variable {cap : Option ℕ} {C : Client Pid V G A} {s t : State Pid V G} {l : Label Pid V A}
  {m m' : Shared V} {c c' : Pc V} {q r : Pid} {op : Op V} {done : Done V}

/-- What each step does. -/
theorem next_cases (h : s.next cap C l = some t) :
    match l with
    | .call q op => s.pc q = .idle ∧
        ∃ g, C.call s.client q op = some g ∧ t = { s.goto q (.lock op) with client := g }
    | .step q => ∃ m c, advance cap s.shared (s.pc q) = some (m, c) ∧
        t = { s.goto q c with shared := m }
    | .signal q woken => ∃ done, s.pc q = .signal done ∧ woken ⊆ s.waiters done ∧
        (woken = ∅ → s.waiters done = ∅) ∧ t = s.signalled q done woken
    | .wake q => ∃ op, s.pc q = .waiting op ∧ t = s.goto q (.woken op)
    | .ret q => ∃ done g, s.pc q = .ret done ∧ C.ret s.client q done = some g ∧
        t = { s.goto q .idle with client := g }
    | .between q => s.pc q = .idle ∧ ∃ g, C.between s.client q = some g ∧ t = { s with client := g }
    | .act a => ∃ g, C.act s.client a = some g ∧ t = { s with client := g } := by
  cases l with
  | call q op =>
    simp only [State.next] at h
    split at h
    · obtain ⟨g, hg, rfl⟩ := Option.map_eq_some_iff.mp h
      exact ⟨‹_›, g, hg, rfl⟩
    · exact absurd h (by simp)
  | step q =>
    obtain ⟨⟨m, c⟩, hadv, rfl⟩ := Option.map_eq_some_iff.mp h
    exact ⟨m, c, hadv, rfl⟩
  | signal q woken =>
    simp only [State.next] at h
    split at h
    · split at h
      · obtain ⟨hsub, hnone⟩ := ‹_ ∧ _›
        exact ⟨_, ‹_›, hsub, hnone, (Option.some.inj h).symm⟩
      · exact absurd h (by simp)
    · exact absurd h (by simp)
  | wake q =>
    simp only [State.next] at h
    split at h
    · exact ⟨_, ‹_›, (Option.some.inj h).symm⟩
    · exact absurd h (by simp)
  | ret q =>
    simp only [State.next] at h
    split at h
    · obtain ⟨g, hg, rfl⟩ := Option.map_eq_some_iff.mp h
      exact ⟨_, g, ‹_›, hg, rfl⟩
    · exact absurd h (by simp)
  | between q =>
    simp only [State.next] at h
    split at h
    · obtain ⟨g, hg, rfl⟩ := Option.map_eq_some_iff.mp h
      exact ⟨‹_›, g, hg, rfl⟩
    · exact absurd h (by simp)
  | act a =>
    obtain ⟨g, hg, rfl⟩ := Option.map_eq_some_iff.mp h
    exact ⟨g, hg, rfl⟩

/-- The steps of a thread in a call, one by one. -/
inductive Advances (cap : Option ℕ) (m : Shared V) : Pc V → Shared V → Pc V → Prop
  | lock {op : Op V} (hfree : m.held = false) :
    Advances cap m (.lock op) { m with held := true } (.test op)
  | relock {op : Op V} (hfree : m.held = false) :
    Advances cap m (.woken op) { m with held := true } (.test op)
  | wait {op : Op V} (hwait : op.mustWait cap m = true) :
    Advances cap m (.test op) { m with held := false } (.waiting op)
  | pass {op : Op V} (hpass : op.mustWait cap m = false) :
    Advances cap m (.test op) m (.access op)
  | push {v : V} : Advances cap m (.access (.put v)) { m with queue := m.queue ++ [v] } (.unlock .put)
  | pop {v : V} {rest : List V} (hqueue : m.queue = v :: rest) :
    Advances cap m (.access .take) { m with queue := rest } (.unlock (.took v))
  | unlock {done : Done V} : Advances cap m (.unlock done) { m with held := false }
      (if done.signals cap then .signal done else .ret done)

theorem advances_of (h : advance cap m c = some (m', c')) : Advances cap m c m' c' := by
  cases c with
  | idle | waiting op | signal done | ret done => exact absurd h (by simp [advance])
  | lock op =>
    simp only [advance] at h
    split at h
    · exact absurd h (by simp)
    · obtain ⟨rfl, rfl⟩ := Prod.mk.inj (Option.some.inj h)
      exact .lock (Bool.eq_false_iff.mpr ‹_›)
  | woken op =>
    simp only [advance] at h
    split at h
    · exact absurd h (by simp)
    · obtain ⟨rfl, rfl⟩ := Prod.mk.inj (Option.some.inj h)
      exact .relock (Bool.eq_false_iff.mpr ‹_›)
  | test op =>
    simp only [advance] at h
    split at h
    · obtain ⟨rfl, rfl⟩ := Prod.mk.inj (Option.some.inj h)
      exact .wait ‹_›
    · obtain ⟨rfl, rfl⟩ := Prod.mk.inj (Option.some.inj h)
      exact .pass (Bool.eq_false_iff.mpr ‹_›)
  | access op =>
    cases op with
    | put v =>
      obtain ⟨rfl, rfl⟩ := Prod.mk.inj (Option.some.inj h)
      exact .push
    | take =>
      simp only [advance] at h
      split at h
      · exact absurd h (by simp)
      · obtain ⟨rfl, rfl⟩ := Prod.mk.inj (Option.some.inj h)
        exact .pop ‹_›
  | unlock done =>
    obtain ⟨rfl, rfl⟩ := Prod.mk.inj (Option.some.inj h)
    exact .unlock

/-! ### What is counted -/

/-- Holding the mutex. -/
def Pc.inside : Pc V → ℕ
  | .test _ | .access _ | .unlock _ => 1
  | _ => 0

/-- On the way to take an item, or about to announce one. -/
def Pc.toItems : Pc V → ℕ
  | .lock .take | .test .take | .woken .take | .access .take => 1
  | .unlock .put | .signal .put => 1
  | _ => 0

/-- On the way to put an item, or about to announce the room for one. -/
def Pc.toRoom : Pc V → ℕ
  | .lock (.put _) | .test (.put _) | .woken (.put _) | .access (.put _) => 1
  | .unlock (.took _) | .signal (.took _) => 1
  | _ => 0

/-- In a call that is going to put an item. -/
def Pc.toPut : Pc V → ℕ
  | .lock (.put _) | .test (.put _) | .waiting (.put _) | .woken (.put _) | .access (.put _) => 1
  | _ => 0

/-- In a call that is going to take an item. -/
def Pc.toTake : Pc V → ℕ
  | .lock .take | .test .take | .waiting .take | .woken .take | .access .take => 1
  | _ => 0

/-- **What one thread may do**, from `c` to `c'`, as far as the counts go. -/
structure Moves (cap : Option ℕ) (m : Shared V) (c : Pc V) (m' : Shared V) (c' : Pc V) : Prop where
  mutex : m'.held.toNat + c.inside = m.held.toNat + c'.inside
  queue : m'.queue = m.queue ∨ c.inside = 1
  ready : ∀ op, c' = .access op → op.mustWait cap m' = false
  bound : ∀ n, cap = some n → m.queue.length ≤ n → m'.queue.length ≤ n
  items : m'.queue.length = 0 ∨
    c' ≠ .waiting .take ∧ m'.queue.length + c.toItems ≤ m.queue.length + c'.toItems
  room : ∀ n, cap = some n → n ≤ m'.queue.length ∨
    (∀ v, c' ≠ .waiting (.put v)) ∧ m.queue.length + c.toRoom ≤ m'.queue.length + c'.toRoom

/-- A thread that leaves the shared part alone. -/
theorem Moves.outside (hinside : c.inside = c'.inside) (hitems : c.toItems ≤ c'.toItems)
    (hroom : c.toRoom ≤ c'.toRoom) (hready : ∀ op, c' ≠ .access op)
    (hwaiting : ∀ op, c' ≠ .waiting op) : Moves cap m c m c' where
  mutex := by rw [hinside]
  queue := Or.inl rfl
  ready op hop := absurd hop (hready op)
  bound _ _ hle := hle
  items := Or.inr ⟨hwaiting .take, by omega⟩
  room _ _ := Or.inr ⟨fun v => hwaiting (.put v), by omega⟩

theorem moves_lock (h : m.held = false) (hinside : c.inside = 0)
    (hitems : c.toItems = (Pc.test op).toItems) (hroom : c.toRoom = (Pc.test op).toRoom) :
    Moves cap m c { m with held := true } (.test op) where
  mutex := by
    rw [hinside, h]
    rfl
  queue := Or.inl rfl
  ready _ hop := absurd hop (by simp)
  bound _ _ hle := hle
  items := Or.inr ⟨by simp, by rw [hitems]⟩
  room _ _ := Or.inr ⟨by simp, by rw [hroom]⟩

theorem moves_wait (h : m.held = true) (hwait : op.mustWait cap m = true) :
    Moves cap m (.test op) { m with held := false } (.waiting op) where
  mutex := by
    rw [h]
    rfl
  queue := Or.inl rfl
  ready _ hop := absurd hop (by simp)
  bound _ _ hle := hle
  items := by
    cases op with
    | take => exact Or.inl (by simpa [Op.mustWait] using hwait)
    | put v => exact Or.inr ⟨by simp, le_rfl⟩
  room n hn := by
    cases op with
    | take => exact Or.inr ⟨by simp, le_rfl⟩
    | put v =>
      subst hn
      have heq : n = m.queue.length := by simpa [Op.mustWait] using hwait
      exact Or.inl heq.le

theorem moves_pass (hwait : op.mustWait cap m = false) : Moves cap m (.test op) m (.access op) where
  mutex := rfl
  queue := Or.inl rfl
  ready op' hop := by
    obtain rfl : op = op' := by simpa using hop
    exact hwait
  bound _ _ hle := hle
  items := by cases op <;> exact Or.inr ⟨by simp, le_rfl⟩
  room _ _ := by cases op <;> exact Or.inr ⟨by simp, le_rfl⟩

theorem moves_push {v : V} (hready : (Op.put v).mustWait cap m = false) :
    Moves cap m (.access (.put v)) { m with queue := m.queue ++ [v] } (.unlock .put) where
  mutex := rfl
  queue := Or.inr rfl
  ready _ hop := absurd hop (by simp)
  bound n hn hle := by
    subst hn
    have hne : n ≠ m.queue.length := by simpa [Op.mustWait] using hready
    rw [List.length_append, List.length_singleton]
    omega
  items := by
    rw [List.length_append, List.length_singleton]
    exact Or.inr ⟨by simp, le_rfl⟩
  room _ _ := by
    rw [List.length_append, List.length_singleton]
    exact Or.inr ⟨by simp, le_rfl⟩

theorem moves_pop {v : V} {rest : List V} (hqueue : m.queue = v :: rest) :
    Moves cap m (.access .take) { m with queue := rest } (.unlock (.took v)) where
  mutex := rfl
  queue := Or.inr rfl
  ready _ hop := absurd hop (by simp)
  bound _ _ hle := by
    rw [hqueue, List.length_cons] at hle
    exact Nat.le_of_succ_le hle
  items := by
    rw [hqueue, List.length_cons]
    exact Or.inr ⟨by simp, le_rfl⟩
  room _ _ := by
    rw [hqueue, List.length_cons]
    exact Or.inr ⟨by simp, le_rfl⟩

theorem moves_unlock (h : m.held = true) : Moves cap m (.unlock done) { m with held := false }
    (if done.signals cap then .signal done else .ret done) where
  mutex := by
    rw [h]
    split <;> rfl
  queue := Or.inl rfl
  ready _ hop := by split at hop <;> exact absurd hop (by simp)
  bound _ _ hle := hle
  items := by
    cases done with
    | put => exact Or.inr ⟨by simp [Done.signals], le_rfl⟩
    | took v =>
      refine Or.inr ⟨?_, Nat.le_add_right ..⟩
      split <;> simp
  room n hn := by
    subst hn
    cases done with
    | put => exact Or.inr ⟨by simp [Done.signals], le_rfl⟩
    | took v => exact Or.inr ⟨by simp [Done.signals], le_rfl⟩

theorem Advances.moves (h : Advances cap m c m' c') (hheld : c.inside = 1 → m.held = true)
    (hready : ∀ op, c = .access op → op.mustWait cap m = false) : Moves cap m c m' c' := by
  cases h with
  | @lock op hfree => exact moves_lock hfree rfl (by cases op <;> rfl) (by cases op <;> rfl)
  | @relock op hfree => exact moves_lock hfree rfl (by cases op <;> rfl) (by cases op <;> rfl)
  | wait hwait => exact moves_wait (hheld rfl) hwait
  | pass hpass => exact moves_pass hpass
  | push => exact moves_push (hready _ rfl)
  | pop hqueue => exact moves_pop hqueue
  | unlock => exact moves_unlock (hheld rfl)

/-! ### The invariant -/

/-- **What the mutex and the condition variables guard**: one thread is inside; who is about
to access the queue may; the queue keeps its bound; and whoever waits for an item, or for
room, has somebody on the way for each that there is. -/
structure Guarded (cap : Option ℕ) (s : State Pid V G) : Prop where
  mutex : ∑ q, (s.pc q).inside = s.shared.held.toNat
  ready : ∀ q op, s.pc q = .access op → op.mustWait cap s.shared = false
  bound : ∀ n, cap = some n → s.shared.queue.length ≤ n
  items : ∀ q, s.pc q = .waiting .take → s.shared.queue.length ≤ ∑ r, (s.pc r).toItems
  room : ∀ n, cap = some n → ∀ q v, s.pc q = .waiting (.put v) →
    n ≤ s.shared.queue.length + ∑ r, (s.pc r).toRoom

theorem guarded_init (hs : (system cap C).init s) : Guarded cap s := by
  obtain ⟨hshared, hpc, -⟩ := hs
  refine ⟨?_, ?_, ?_, ?_, ?_⟩
  · simp [hshared, hpc, Pc.inside]
  · intro q op hq
    simp [hpc] at hq
  · simp [hshared]
  · simp [hshared]
  · intro n _ q v hq
    simp [hpc] at hq

namespace Guarded

omit [DecidableEq Pid] in
/-- **Mutual exclusion.** -/
theorem alone (h : Guarded cap s) (hq : (s.pc q).inside = 1) (hrq : r ≠ q) :
    (s.pc r).inside = 0 := by
  have hle := add_weight_le_sum Pc.inside s.pc hrq.symm
  have hmutex := h.mutex
  have hheld := Bool.toNat_le s.shared.held
  omega

omit [DecidableEq Pid] in
theorem held_of_inside (h : Guarded cap s) (hq : (s.pc q).inside = 1) : s.shared.held = true := by
  have hle := weight_le_sum Pc.inside s.pc q
  have hmutex := h.mutex
  by_contra hheld
  rw [Bool.eq_false_iff.mpr hheld] at hmutex
  simp only [Bool.toNat_false] at hmutex
  omega

/-- The access of a thread leaves the test of another one alone. -/
theorem ready_of_moves (h : Guarded cap s) (hmoves : Moves cap s.shared (s.pc q) m' c)
    (hr : Function.update s.pc q c r = .access op) : op.mustWait cap m' = false := by
  by_cases hrq : r = q
  · subst hrq
    rw [Function.update_self] at hr
    exact hmoves.ready op hr
  · rw [Function.update_of_ne hrq] at hr
    rcases hmoves.queue with hqueue | hinside
    · have hready := h.ready r op hr
      cases op <;> simpa [Op.mustWait, hqueue] using hready
    · have hout := h.alone hinside hrq
      rw [hr] at hout
      exact absurd hout Nat.one_ne_zero

/-- **The rule for the counts**: one thread moves. -/
theorem goto (h : Guarded cap s) {g : G} (hmoves : Moves cap s.shared (s.pc q) m' c) :
    Guarded cap { shared := m', pc := Function.update s.pc q c, client := g } := by
  refine ⟨?_, fun r op => h.ready_of_moves hmoves, fun n hn => hmoves.bound n hn (h.bound n hn),
    fun r hr => ?_, fun n hn r v hr => ?_⟩
  · have hsum := sum_update Pc.inside s.pc q c
    have hmutex := h.mutex
    have hheld := hmoves.mutex
    dsimp only
    omega
  · have hsum := sum_update Pc.toItems s.pc q c
    dsimp only at hr ⊢
    rcases hmoves.items with hempty | ⟨hwaiting, hle⟩
    · omega
    · by_cases hrq : r = q
      · subst hrq
        rw [Function.update_self] at hr
        exact absurd hr hwaiting
      · rw [Function.update_of_ne hrq] at hr
        have hitems := h.items r hr
        omega
  · have hsum := sum_update Pc.toRoom s.pc q c
    dsimp only at hr ⊢
    rcases hmoves.room n hn with hfull | ⟨hwaiting, hle⟩
    · omega
    · by_cases hrq : r = q
      · subst hrq
        rw [Function.update_self] at hr
        exact absurd hr (hwaiting v)
      · rw [Function.update_of_ne hrq] at hr
        have hroom := h.room n hn r v hr
        omega

end Guarded

/-! ### The signal -/

omit [DecidableEq Pid] in
@[simp] theorem mem_waiters : q ∈ s.waiters done ↔ (s.pc q).waitsFor done := by
  simp [State.waiters]

theorem waiting_of_waitsFor (h : c.waitsFor done = true) :
    ∃ op, c = .waiting op ∧ c.wake = .woken op := by
  cases c with
  | waiting op => exact ⟨op, rfl, rfl⟩
  | _ => cases done <;> exact absurd h (by simp [Pc.waitsFor])

/-- A weight that the wake-up does not lower, and that does not count the signaller. -/
theorem sum_le_signalled {w : Pc V → ℕ} {woken : Finset Pid} (hq : s.pc q = .signal done)
    (hmono : ∀ c, w c ≤ w c.wake) (hsignal : w (.signal done) ≤ w (.ret done)) :
    ∑ r, w (s.pc r) ≤ ∑ r, w ((s.signalled q done woken).pc r) := by
  refine Finset.sum_le_sum fun r _ => ?_
  simp only [State.signalled]
  split
  · subst r
    rw [hq]
    exact hsignal
  · split
    · exact hmono _
    · exact le_rfl

/-- A weight that makes no difference between the signaller before and after, nor between who
waits and who is woken. -/
theorem sum_signalled {w : Pc V → ℕ} {woken : Finset Pid} (hq : s.pc q = .signal done)
    (hwake : ∀ c, w c.wake = w c) (hsignal : w (.signal done) = w (.ret done)) :
    ∑ r, w ((s.signalled q done woken).pc r) = ∑ r, w (s.pc r) := by
  refine Finset.sum_congr rfl fun r _ => ?_
  simp only [State.signalled]
  split
  · subst r
    rw [hq, hsignal]
  · split
    · exact hwake _
    · rfl

/-- Who waits after a signal has waited before. -/
theorem waiting_of_signalled {woken : Finset Pid} (hsub : woken ⊆ s.waiters done)
    (hr : (s.signalled q done woken).pc r = .waiting op) :
    s.pc r = .waiting op := by
  simp only [State.signalled] at hr
  split at hr
  · exact absurd hr (by simp)
  · split at hr
    · obtain ⟨op', -, hwake⟩ := waiting_of_waitsFor (mem_waiters.mp (hsub ‹_›))
      rw [hwake] at hr
      exact absurd hr (by simp)
    · exact hr

/-- A signal that somebody waits for wakes somebody. -/
theorem exists_woken {woken : Finset Pid} (hnone : woken = ∅ → s.waiters done = ∅)
    (hr : (s.pc r).waitsFor done) : ∃ p, p ∈ woken := by
  by_contra hempty
  have hwoken : woken = ∅ := Finset.eq_empty_of_forall_notMem fun p hp => hempty ⟨p, hp⟩
  have hmem := mem_waiters.mpr hr
  rw [hnone hwoken] at hmem
  exact absurd hmem (Finset.notMem_empty r)

/-- **A signal that somebody waits for is passed on**: a weight that counts the signaller
before counts who is woken afterwards. -/
theorem sum_le_signalled_of_waits {w : Pc V → ℕ} {woken : Finset Pid}
    (hq : s.pc q = .signal done) (hsub : woken ⊆ s.waiters done)
    (hnone : woken = ∅ → s.waiters done = ∅) (hr : (s.pc r).waitsFor done)
    (hmono : ∀ c, w c ≤ w c.wake)
    (hgain : ∀ c, c.waitsFor done → w c + w (.signal done) ≤ w c.wake) :
    ∑ p, w (s.pc p) ≤ ∑ p, w ((s.signalled q done woken).pc p) := by
  obtain ⟨r', hr'⟩ := exists_woken hnone hr
  have hwaits := mem_waiters.mp (hsub hr')
  have hne : r' ≠ q := by
    rintro rfl
    rw [hq] at hwaits
    exact absurd hwaits (by cases done <;> simp [Pc.waitsFor])
  refine sum_le_of_transfer w s.pc (s.signalled q done woken).pc hne (d := w (.signal done)) ?_ ?_
    fun p hpq => ?_
  · rw [hq]
    exact Nat.le_add_left ..
  · simp only [State.signalled, if_neg hne, if_pos hr']
    exact hgain _ hwaits
  · simp only [State.signalled, if_neg hpq]
    split
    · exact hmono _
    · exact le_rfl

theorem toItems_wake (c : Pc V) : c.toItems ≤ c.wake.toItems := by
  cases c with
  | waiting op => exact Nat.zero_le _
  | _ => exact le_rfl

theorem toRoom_wake (c : Pc V) : c.toRoom ≤ c.wake.toRoom := by
  cases c with
  | waiting op => exact Nat.zero_le _
  | _ => exact le_rfl

theorem toItems_gain (h : c.waitsFor .put = true) :
    c.toItems + (Pc.signal (.put : Done V)).toItems ≤ c.wake.toItems := by
  obtain ⟨op, rfl, -⟩ := waiting_of_waitsFor h
  cases op with
  | take => exact le_rfl
  | put v => exact absurd h (by simp [Pc.waitsFor])

theorem toRoom_gain {v : V} (h : c.waitsFor (.took v) = true) :
    c.toRoom + (Pc.signal (.took v)).toRoom ≤ c.wake.toRoom := by
  obtain ⟨op, rfl, -⟩ := waiting_of_waitsFor h
  cases op with
  | take => exact absurd h (by simp [Pc.waitsFor])
  | put w => exact le_rfl

theorem Guarded.signalled {woken : Finset Pid} (h : Guarded cap s) (hq : s.pc q = .signal done)
    (hsub : woken ⊆ s.waiters done) (hnone : woken = ∅ → s.waiters done = ∅) :
    Guarded cap (s.signalled q done woken) := by
  refine ⟨?_, fun r op hr => ?_, h.bound, fun r hr => ?_, fun n hn r v hr => ?_⟩
  · rw [sum_signalled hq (fun c => by cases c <;> rfl) rfl]
    exact h.mutex
  · refine h.ready r op ?_
    simp only [State.signalled] at hr
    split at hr
    · exact absurd hr (by simp)
    · split at hr
      · obtain ⟨op', -, hwake⟩ := waiting_of_waitsFor (mem_waiters.mp (hsub ‹_›))
        rw [hwake] at hr
        exact absurd hr (by simp)
      · exact hr
  · have hwaiting := waiting_of_signalled hsub hr
    refine (h.items r hwaiting).trans ?_
    cases done with
    | put =>
      have hwaits : (s.pc r).waitsFor .put = true := by rw [hwaiting]; rfl
      exact sum_le_signalled_of_waits hq hsub hnone hwaits toItems_wake fun _ => toItems_gain
    | took w => exact sum_le_signalled hq toItems_wake le_rfl
  · have hwaiting := waiting_of_signalled hsub hr
    refine (h.room n hn r v hwaiting).trans (Nat.add_le_add_left ?_ _)
    cases done with
    | put => exact sum_le_signalled hq toRoom_wake le_rfl
    | took w =>
      have hwaits : (s.pc r).waitsFor (.took w) = true := by rw [hwaiting]; rfl
      exact sum_le_signalled_of_waits hq hsub hnone hwaits toRoom_wake fun _ => toRoom_gain

/-! ### Every step -/

theorem Guarded.step (h : Guarded cap s) (ht : (system cap C).step s l t) : Guarded cap t := by
  have ht := next_cases ht
  cases l with
  | call q op =>
    obtain ⟨hq, g, -, rfl⟩ := ht
    refine h.goto ?_
    rw [hq]
    exact Moves.outside rfl (Nat.zero_le _) (Nat.zero_le _) (by simp) (by simp)
  | step q =>
    obtain ⟨m, c, hadv, rfl⟩ := ht
    exact h.goto ((advances_of hadv).moves h.held_of_inside (h.ready q))
  | signal q woken =>
    obtain ⟨done, hq, hsub, hnone, rfl⟩ := ht
    exact h.signalled hq hsub hnone
  | wake q =>
    obtain ⟨op, hq, rfl⟩ := ht
    refine h.goto ?_
    rw [hq]
    exact Moves.outside rfl (Nat.zero_le _) (Nat.zero_le _) (by simp) (by simp)
  | ret q =>
    obtain ⟨done, g, hq, -, rfl⟩ := ht
    refine h.goto ?_
    rw [hq]
    exact Moves.outside rfl (Nat.zero_le _) (Nat.zero_le _) (by simp) (by simp)
  | between q =>
    obtain ⟨-, g, -, rfl⟩ := ht
    exact ⟨h.mutex, h.ready, h.bound, h.items, h.room⟩
  | act a =>
    obtain ⟨g, -, rfl⟩ := ht
    exact ⟨h.mutex, h.ready, h.bound, h.items, h.room⟩

theorem Guarded.of_reachable (h : (system cap C).Reachable s) : Guarded cap s :=
  h.invariant (fun _ => guarded_init) fun _ _ _ _ hs ht => hs.step ht

/-! ### What is left of the calls under way -/

/-- A step of a thread puts what it was going to put, and takes what it was going to take. -/
theorem Advances.surplus (h : Advances cap m c m' c') :
    m'.queue.length + c'.toPut + c.toTake = m.queue.length + c.toPut + c'.toTake := by
  cases h with
  | @lock op hfree => cases op <;> rfl
  | @relock op hfree => cases op <;> rfl
  | @wait op hwait => cases op <;> rfl
  | @pass op hpass => cases op <;> rfl
  | push => simp [Pc.toPut, Pc.toTake]
  | pop hqueue => simp [Pc.toPut, Pc.toTake, hqueue]
  | unlock => split <;> rfl

theorem toPut_wake (c : Pc V) : c.wake.toPut = c.toPut := by
  cases c with
  | waiting op => cases op <;> rfl
  | _ => rfl

theorem toTake_wake (c : Pc V) : c.wake.toTake = c.toTake := by
  cases c with
  | waiting op => cases op <;> rfl
  | _ => rfl

theorem surplus_goto (h : m'.queue.length + c.toPut + (s.pc q).toTake =
      s.shared.queue.length + (s.pc q).toPut + c.toTake) :
    m'.queue.length + ∑ r, (Function.update s.pc q c r).toPut + ∑ r, (s.pc r).toTake =
      s.shared.queue.length + ∑ r, (s.pc r).toPut + ∑ r, (Function.update s.pc q c r).toTake := by
  have hput := sum_update Pc.toPut s.pc q c
  have htake := sum_update Pc.toTake s.pc q c
  omega

/-- **What will be in the queue in the end**: unless a new call is made, what is in the queue
and what is going to be put are as much more than what is going to be taken as before. -/
theorem surplus_step (ht : (system cap C).step s l t) (hcall : ∀ q op, l ≠ .call q op) :
    t.shared.queue.length + ∑ r, (t.pc r).toPut + ∑ r, (s.pc r).toTake =
      s.shared.queue.length + ∑ r, (s.pc r).toPut + ∑ r, (t.pc r).toTake := by
  have ht := next_cases ht
  cases l with
  | call q op => exact absurd rfl (hcall q op)
  | step q =>
    obtain ⟨m, c, hadv, rfl⟩ := ht
    exact surplus_goto (advances_of hadv).surplus
  | signal q woken =>
    obtain ⟨done, hq, -, -, rfl⟩ := ht
    rw [sum_signalled hq (fun c => ?_) rfl, sum_signalled hq (fun c => ?_) rfl]
    · rfl
    · exact toTake_wake c
    · exact toPut_wake c
  | wake q =>
    obtain ⟨op, hq, rfl⟩ := ht
    refine surplus_goto ?_
    rw [hq]
    cases op <;> rfl
  | ret q =>
    obtain ⟨done, g, hq, -, rfl⟩ := ht
    refine surplus_goto ?_
    rw [hq]
    rfl
  | between q =>
    obtain ⟨-, g, -, rfl⟩ := ht
    rfl
  | act a =>
    obtain ⟨g, -, rfl⟩ := ht
    rfl

/-- How far a thread of `N` is from the end of its call.  A signal is worth the detours of all
that it may wake. -/
def Pc.weight (N : ℕ) : Pc V → ℕ
  | .idle => 0
  | .ret _ => 1
  | .signal _ => 2 * N + 2
  | .unlock _ => 2 * N + 3
  | .access _ => 2 * N + 4
  | .waiting _ => 2 * N + 5
  | .test _ => 2 * N + 6
  | .woken _ | .lock _ => 2 * N + 7

def State.weight (s : State Pid V G) : ℕ := ∑ q, (s.pc q).weight (Fintype.card Pid)

theorem Advances.weight (h : Advances cap m c m' c') (N : ℕ) : c'.weight N < c.weight N := by
  cases h with
  | lock hfree | relock hfree | push | pop hqueue => exact Nat.lt_succ_self _
  | wait hwait => exact Nat.lt_succ_self _
  | pass hpass => simp [Pc.weight]
  | unlock => split <;> simp [Pc.weight]

theorem weight_goto (h : c.weight (Fintype.card Pid) < (s.pc q).weight (Fintype.card Pid)) :
    ∑ r, (Function.update s.pc q c r).weight (Fintype.card Pid) < s.weight := by
  have hsum := sum_update (Pc.weight (Fintype.card Pid)) s.pc q c
  rw [State.weight]
  omega

theorem weight_wake (N : ℕ) (c : Pc V) : c.wake.weight N ≤ c.weight N + 2 := by
  cases c with
  | waiting op => exact le_rfl
  | _ => exact Nat.le_add_right ..

theorem weight_signalled {woken : Finset Pid} (hq : s.pc q = .signal done) :
    (s.signalled q done woken).weight < s.weight := by
  have hle : ∑ r, ((((s.signalled q done woken).pc r).weight (Fintype.card Pid)) +
      if r = q then 2 * Fintype.card Pid + 1 else 0) ≤
      ∑ r, ((s.pc r).weight (Fintype.card Pid) + 2) := by
    refine Finset.sum_le_sum fun r _ => ?_
    simp only [State.signalled]
    split
    · subst r
      rw [hq]
      simp +arith [Pc.weight]
    · split
      · exact weight_wake _ _
      · exact Nat.le_add_right ..
  simp only [Finset.sum_add_distrib, Finset.sum_ite_eq', Finset.mem_univ, if_true,
    Finset.sum_const, Finset.card_univ, smul_eq_mul] at hle
  rw [State.weight, State.weight]
  omega

/-- The steps that bring a call forward. -/
def Label.InCall : Label Pid V A → Prop
  | .step _ | .signal _ _ | .ret _ => True
  | _ => False

/-- **Every call ends** that is not woken spuriously: its steps use up the weight. -/
theorem weight_lt (ht : (system cap C).step s l t) (hl : l.InCall) : t.weight < s.weight := by
  have ht := next_cases ht
  cases l with
  | call q op | wake q | between q | act a => exact hl.elim
  | step q =>
    obtain ⟨m, c, hadv, rfl⟩ := ht
    exact weight_goto ((advances_of hadv).weight _)
  | signal q woken =>
    obtain ⟨done, hq, -, -, rfl⟩ := ht
    exact weight_signalled hq
  | ret q =>
    obtain ⟨done, g, hq, -, rfl⟩ := ht
    refine weight_goto ?_
    rw [hq]
    exact Nat.zero_lt_one

/-! ### Stuck states -/

/-- The system without the spurious wake-ups, on which nobody may rely. -/
def unaided (cap : Option ℕ) (C : Client Pid V G A) : System (State Pid V G) (Label Pid V A) :=
  (system cap C).restrict fun _ l => ∀ q, l ≠ .wake q

omit [DecidableEq Pid] in
/-- A thread in a call goes on unless it waits, for the mutex or for a signal. -/
theorem Guarded.advance_none (h : Guarded cap s) (hnone : advance cap s.shared (s.pc q) = none) :
    s.pc q = .idle ∨ (∃ done, s.pc q = .ret done) ∨ (∃ op, s.pc q = .waiting op) ∨
      (∃ done, s.pc q = .signal done) ∨ (s.pc q).inside = 0 ∧ s.shared.held = true := by
  cases hq : s.pc q with
  | idle => exact Or.inl rfl
  | ret done => exact Or.inr (Or.inl ⟨done, rfl⟩)
  | waiting op => exact Or.inr (Or.inr (Or.inl ⟨op, rfl⟩))
  | signal done => exact Or.inr (Or.inr (Or.inr (Or.inl ⟨done, rfl⟩)))
  | lock op | woken op =>
    rw [hq] at hnone
    simp only [advance] at hnone
    split at hnone
    · exact Or.inr (Or.inr (Or.inr (Or.inr ⟨rfl, ‹_›⟩)))
    · exact absurd hnone (by simp)
  | test op =>
    rw [hq] at hnone
    simp only [advance] at hnone
    split at hnone <;> exact absurd hnone (by simp)
  | access op =>
    have hready := h.ready q op hq
    rw [hq] at hnone
    cases op with
    | put v => exact absurd hnone (by simp [advance])
    | take =>
      have hne : s.shared.queue ≠ [] := by simpa [Op.mustWait] using hready
      obtain ⟨v, rest, hqueue⟩ := List.exists_cons_of_ne_nil hne
      exact absurd hnone (by simp [advance, hqueue])
  | unlock done =>
    rw [hq] at hnone
    exact absurd hnone (by simp [advance])

/-- **A stuck state**: every thread is between its calls, or back from one, and its client
cannot go on, or it waits for a signal; who waits for an item finds none in the queue, and
who waits for room finds none. -/
theorem Guarded.stuck (h : Guarded cap s) (hstuck : (unaided cap C).Stuck s) :
    (∀ q, s.pc q = .idle ∨ (∃ done, s.pc q = .ret done) ∨ ∃ op, s.pc q = .waiting op) ∧
    (∀ q, s.pc q = .waiting .take → s.shared.queue.length = 0) ∧
    ∀ n, cap = some n → ∀ q v, s.pc q = .waiting (.put v) → n ≤ s.shared.queue.length := by
  have hnone : ∀ q, advance cap s.shared (s.pc q) = none := by
    intro q
    by_contra hne
    obtain ⟨⟨m', c'⟩, hadv⟩ := Option.ne_none_iff_exists'.mp hne
    refine hstuck (.step q) { s.goto q c' with shared := m' } ⟨?_, by simp⟩
    show (advance cap s.shared (s.pc q)).map _ = _
    rw [hadv]
    rfl
  have hsignal : ∀ q done, s.pc q ≠ .signal done := by
    intro q done hq
    refine hstuck (.signal q (s.waiters done)) (s.signalled q done (s.waiters done)) ⟨?_, by simp⟩
    show State.next cap C s _ = _
    simp [State.next, hq]
  have hinside : ∀ q, (s.pc q).inside = 0 := by
    intro q
    rcases h.advance_none (hnone q) with hq | ⟨done, hq⟩ | ⟨op, hq⟩ | ⟨done, hq⟩ | ⟨hq, -⟩
    · rw [hq]
      rfl
    · rw [hq]
      rfl
    · rw [hq]
      rfl
    · exact absurd hq (hsignal q done)
    · exact hq
  have hfree : s.shared.held = false := by
    have hmutex := h.mutex
    rw [Finset.sum_eq_zero fun q _ => hinside q] at hmutex
    simpa using hmutex.symm
  have hcases : ∀ q, s.pc q = .idle ∨ (∃ done, s.pc q = .ret done) ∨ ∃ op, s.pc q = .waiting op := by
    intro q
    rcases h.advance_none (hnone q) with hq | hq | hq | ⟨done, hq⟩ | ⟨-, hheld⟩
    · exact Or.inl hq
    · exact Or.inr (Or.inl hq)
    · exact Or.inr (Or.inr hq)
    · exact absurd hq (hsignal q done)
    · exact absurd hheld (by simp [hfree])
  refine ⟨hcases, fun q hq => ?_, fun n hn q v hq => ?_⟩
  · have hitems := h.items q hq
    rw [Finset.sum_eq_zero fun r _ => ?_] at hitems
    · exact Nat.le_zero.mp hitems
    · rcases hcases r with hr | ⟨done, hr⟩ | ⟨op, hr⟩ <;> rw [hr] <;> rfl
  · have hroom := h.room n hn q v hq
    rw [Finset.sum_eq_zero fun r _ => ?_] at hroom
    · exact hroom
    · rcases hcases r with hr | ⟨done, hr⟩ | ⟨op, hr⟩ <;> rw [hr] <;> rfl

end CppProgramming.Lib.CondQueue
