import CppProgramming.Lib.Transition

/-!
# `kthread_stop` and `wait_for_kthread_stop`

The helper `wait_for_kthread_stop`, which every kthread example has a copy of, against
the `kthread_stop` of the module's exit.  A task that is not `TASK_RUNNING` is taken off
the run queue by its next `schedule`, and waking it puts it back; waking a task that is
`TASK_RUNNING` does nothing.

The helper tests the flag first and sets its state then.  A wake-up between the two finds
the thread running and is gone when it goes to sleep.  `kthread_stop_hangs` says that this
is the only way to hang, and that it is one.
-/

namespace CppProgramming.Kthread

open CppProgramming.Lib

/-- The state of a task, `TASK_RUNNING` or `TASK_INTERRUPTIBLE`. -/
inductive TaskState
  | running
  | interruptible
deriving DecidableEq

/-- The next step of `wait_for_kthread_stop`; `asleep` is inside `schedule`, off the run
queue. -/
inductive ThreadPc
  | shouldStop
  | setCurrentState
  | schedule
  | asleep
  | returned
deriving DecidableEq

/-- The next step of `kthread_stop`. -/
inductive StopPc
  | setFlag
  | wakeUp
  | waitForExit
  | returned
deriving DecidableEq

structure State where
  flag : Bool
  task : TaskState
  thread : ThreadPc
  stop : StopPc
deriving DecidableEq

inductive Label
  | thread
  | stop
  | spurious

namespace State

/-- `wake_up_process` -/
def wakeUpProcess (s : State) : State :=
  match s.task with
  | .running => s
  | .interruptible =>
    { s with task := .running, thread := if s.thread = .asleep then .shouldStop else s.thread }

/-- `while (!kthread_should_stop()) { set_current_state(TASK_INTERRUPTIBLE); schedule(); }` -/
def threadStep (s : State) : Option State :=
  match s.thread with
  | .shouldStop => some { s with thread := if s.flag then .returned else .setCurrentState }
  | .setCurrentState => some { s with task := .interruptible, thread := .schedule }
  | .schedule =>
    some { s with thread := if s.task = .interruptible then .asleep else .shouldStop }
  | .asleep | .returned => none

def stopStep (s : State) : Option State :=
  match s.stop with
  | .setFlag => some { s with flag := true, stop := .wakeUp }
  | .wakeUp => some { s.wakeUpProcess with stop := .waitForExit }
  | .waitForExit => if s.thread = .returned then some { s with stop := .returned } else none
  | .returned => none

def next (s : State) : Label → Option State
  | .thread => s.threadStep
  | .stop => s.stopStep
  | .spurious => some s.wakeUpProcess

/-- The thread sleeps, and the only one who would have woken it waits for it. -/
def Hangs (s : State) : Prop := s.flag = true ∧ s.stop = .waitForExit ∧ s.thread = .asleep

/-- The wake-up comes while the thread has found the flag unset, and not set its state yet. -/
def WakesTooEarly (s : State) (l : Label) : Prop :=
  l = .stop ∧ s.stop = .wakeUp ∧ s.thread = .setCurrentState

instance (s : State) : Decidable s.Hangs := inferInstanceAs (Decidable (_ ∧ _ ∧ _))

end State

/-- The thread and the exit, step by step, with spurious wake-ups. -/
def system : System State Label :=
  System.ofStep (· = ⟨false, .running, .shouldStop, .setFlag⟩) State.next

namespace State

variable {s t : State} {l : Label}

/-- What holds in a run in which no wake-up comes too early: once it has been issued, the
thread is on its way to the test of the flag. -/
structure Inv (s : State) : Prop where
  asleep : s.thread = .asleep → s.task = .interruptible
  flag : s.stop ≠ .setFlag → s.flag = true
  woken : s.stop = .waitForExit ∨ s.stop = .returned → s.thread = .shouldStop ∨
    s.thread = .schedule ∧ s.task = .running ∨ s.thread = .returned

theorem Inv.wakeUpProcess (h : s.Inv) : s.wakeUpProcess.Inv := by
  obtain ⟨flag, task, thread, stop⟩ := s
  cases task with
  | running => exact h
  | interruptible =>
    refine ⟨fun hasleep => ?_, h.flag, fun hstop => ?_⟩
    · by_cases hthread : thread = .asleep <;> simp [State.wakeUpProcess, hthread] at hasleep
    · rcases h.woken hstop with hthread | ⟨_, htask⟩ | hthread
      · exact Or.inl (by simp [State.wakeUpProcess, show thread = .shouldStop from hthread])
      · exact absurd htask (by simp)
      · exact Or.inr (Or.inr (by
          simp [State.wakeUpProcess, show thread = .returned from hthread]))

theorem Inv.threadStep (h : s.Inv) (ht : s.threadStep = some t) : t.Inv := by
  obtain ⟨flag, task, thread, stop⟩ := s
  cases thread with
  | asleep | returned => exact absurd ht (by simp [State.threadStep])
  | shouldStop =>
    obtain rfl := Option.some.inj ht
    refine ⟨fun hasleep => ?_, h.flag, fun hstop => ?_⟩
    · cases flag <;> simp at hasleep
    · have hflag : flag = true := h.flag (by rcases hstop with rfl | rfl <;> simp)
      exact Or.inr (Or.inr (by simp [hflag]))
  | setCurrentState =>
    obtain rfl := Option.some.inj ht
    refine ⟨fun hasleep => by simp at hasleep, h.flag, fun hstop => ?_⟩
    rcases h.woken hstop with hthread | ⟨hthread, _⟩ | hthread <;> simp at hthread
  | schedule =>
    obtain rfl := Option.some.inj ht
    refine ⟨fun hasleep => ?_, h.flag, fun hstop => ?_⟩
    · cases task with
      | running => simp at hasleep
      | interruptible => rfl
    · rcases h.woken hstop with hthread | ⟨_, htask⟩ | hthread
      · simp at hthread
      · exact Or.inl (by simp [show task = .running from htask])
      · simp at hthread

theorem Inv.stopStep (h : s.Inv) (hearly : ¬ s.WakesTooEarly .stop)
    (ht : s.stopStep = some t) : t.Inv := by
  obtain ⟨flag, task, thread, stop⟩ := s
  cases stop with
  | returned => exact absurd ht (by simp [State.stopStep])
  | setFlag =>
    obtain rfl := Option.some.inj ht
    exact ⟨h.asleep, fun _ => rfl, fun hstop => by simp at hstop⟩
  | waitForExit =>
    by_cases hthread : thread = .returned
    · rw [State.stopStep, if_pos hthread] at ht
      obtain rfl := Option.some.inj ht
      exact ⟨h.asleep, fun _ => h.flag (by simp), fun _ => Or.inr (Or.inr hthread)⟩
    · rw [State.stopStep, if_neg hthread] at ht
      exact absurd ht (by simp)
  | wakeUp =>
    obtain rfl := Option.some.inj ht
    have hflag : flag = true := h.flag (by simp)
    have hthread : thread ≠ .setCurrentState := fun hthread => hearly ⟨rfl, rfl, hthread⟩
    -- whatever the thread does, it is or becomes `TASK_RUNNING` before it sleeps again
    cases task with
    | running =>
      refine ⟨h.asleep, fun _ => hflag, fun _ => ?_⟩
      cases thread with
      | setCurrentState => exact absurd rfl hthread
      | asleep => exact absurd (h.asleep rfl) (by simp)
      | shouldStop => exact Or.inl rfl
      | schedule => exact Or.inr (Or.inl ⟨rfl, rfl⟩)
      | returned => exact Or.inr (Or.inr rfl)
    | interruptible =>
      refine ⟨fun hasleep => ?_, fun _ => hflag, fun _ => ?_⟩
      · cases thread <;> simp [State.wakeUpProcess] at hasleep
      · cases thread with
        | setCurrentState => exact absurd rfl hthread
        | asleep | shouldStop => exact Or.inl rfl
        | schedule => exact Or.inr (Or.inl ⟨rfl, rfl⟩)
        | returned => exact Or.inr (Or.inr rfl)

/-- **A wake-up that is not too early is not lost.** -/
theorem Inv.of_reachable
    (h : (system.restrict fun s l => ¬ s.WakesTooEarly l).Reachable s) : s.Inv := by
  refine h.invariant (fun s hs => ?_) (fun s l t _ hs ht => ?_)
  · obtain rfl := hs
    exact ⟨fun h => by simp at h, fun h => absurd rfl h, fun h => by simp at h⟩
  · obtain ⟨ht, hearly⟩ := ht
    cases l with
    | thread => exact hs.threadStep ht
    | stop => exact hs.stopStep hearly ht
    | spurious =>
      obtain rfl := Option.some.inj ht
      exact hs.wakeUpProcess

@[simp] theorem wakeUpProcess_flag : s.wakeUpProcess.flag = s.flag := by
  unfold State.wakeUpProcess
  split <;> rfl

@[simp] theorem wakeUpProcess_stop : s.wakeUpProcess.stop = s.stop := by
  unfold State.wakeUpProcess
  split <;> rfl

/-- The flag is set first, in every run. -/
theorem flag_of_reachable (h : system.Reachable s) : s.stop ≠ .setFlag → s.flag = true := by
  refine h.invariant (P := fun s => s.stop ≠ .setFlag → s.flag = true) (fun s hs => ?_)
    (fun s l t _ hs ht => ?_)
  · obtain rfl := hs
    exact fun h => absurd rfl h
  · change s.next l = some t at ht
    obtain ⟨flag, task, thread, stop⟩ := s
    cases l with
    | spurious =>
      obtain rfl := Option.some.inj ht
      simpa using hs
    | thread =>
      cases thread with
      | asleep | returned => exact absurd ht (by simp [next, threadStep])
      | shouldStop | setCurrentState | schedule =>
        obtain rfl := Option.some.inj ht
        exact hs
    | stop =>
      cases stop with
      | returned => exact absurd ht (by simp [next, stopStep])
      | setFlag =>
        obtain rfl := Option.some.inj ht
        exact fun _ => rfl
      | wakeUp =>
        obtain rfl := Option.some.inj ht
        simpa using hs
      | waitForExit =>
        have hflag : flag = true := hs (by simp)
        simp only [next, stopStep] at ht
        split at ht
        · obtain rfl := Option.some.inj ht
          exact fun _ => hflag
        · exact absurd ht (by simp)

theorem Inv.not_hangs (h : s.Inv) : ¬ s.Hangs := by
  rintro ⟨-, hstop, hasleep⟩
  rcases h.woken (Or.inl hstop) with hthread | ⟨hthread, -⟩ | hthread <;> simp [hasleep] at hthread

end State

/-- **When `kthread_stop` hangs**: in no run, unless its wake-up finds the thread between
its test of the flag and its `set_current_state`; and then it may hang. -/
theorem kthread_stop_hangs (s : State) :
    ((system.restrict fun s l => ¬ s.WakesTooEarly l).Reachable s → ¬ s.Hangs) ∧
      (system.Reachable s → s.WakesTooEarly .stop →
        ∃ ls t, system.Run s (.stop :: ls) t ∧ t.Hangs) := by
  refine ⟨fun hs => (State.Inv.of_reachable hs).not_hangs, fun hs hearly => ?_⟩
  have hflag := State.flag_of_reachable hs
  obtain ⟨flag, task, thread, stop⟩ := s
  obtain ⟨-, rfl, rfl⟩ := hearly
  obtain rfl := hflag (by simp)
  have hrun : system.Run ⟨true, task, .setCurrentState, .wakeUp⟩ [.stop, .thread, .thread]
      ⟨true, .interruptible, .asleep, .waitForExit⟩ := by
    cases task <;> exact System.run_ofStep rfl
  exact ⟨_, _, hrun, rfl, rfl, rfl⟩

/-- The wake-up between the test of the flag and `set_current_state`. -/
theorem kthread_stop_lost : ¬ ∀ s, system.Reachable s → ¬ s.Hangs := by
  intro hnever
  have hrun : system.Run ⟨false, .running, .shouldStop, .setFlag⟩
      [.thread, .stop, .stop, .thread, .thread] ⟨true, .interruptible, .asleep, .waitForExit⟩ :=
    System.run_ofStep rfl
  exact hnever _ ⟨_, _, rfl, hrun⟩ (by decide)

end CppProgramming.Kthread
