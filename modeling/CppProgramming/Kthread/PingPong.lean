import CppProgramming.Lib.Transition

/-!
# The ping-pong of `kthread_example4.c`

A timer callback sets `waked` and wakes the worker, the worker waits for `waked`, clears it
and tests `running`, and the exit path clears `running`, sets `waked` and wakes the worker.
No lock guards the two flags.  `wait_event` and `wake_up` are taken apart into the steps
that other parties can come between: the test without the queue, `prepare_to_wait_event`,
the test behind it, `schedule` and `finish_wait`.

Only the worker clears `waked`, and it tests `running` next.  So what the exit path has
stored is read in time: behind its two stores either `waked` is still set or the worker is
at its test of `running` (`Inv.stored`).  `pingpong_exit` is the shutdown.
-/

namespace CppProgramming.Kthread.PingPong

open CppProgramming.Lib

/-- The state of the worker's task. -/
inductive TaskState
  | running
  | uninterruptible
deriving DecidableEq

/-- The next step of `example_thread_run`.  From `testWaked` to `finishWait` it is inside
`wait_event`; `asleep` is inside `schedule`, off the run queue. -/
inductive Worker
  | testRunning
  | testWaked
  | prepareToWait
  | retestWaked
  | schedule
  | asleep
  | finishWait
  | clearWaked
  | waitForKthreadStop
deriving DecidableEq

/-- The next step of `timer_example_expire__`. -/
inductive Callback
  | idle
  | setWaked
  | wakeUp
  | modTimer
deriving DecidableEq

/-- The next step of the module: the end of `kthread_example4_init`, `timer_example_exit`,
then the rest of `kthread_example4_exit`. -/
inductive Module
  | timerInit
  | timerPending
  | delTimer
  | clearRunning
  | setWaked
  | wakeUp
  | kthreadStop
  | waitForExit
deriving DecidableEq

structure State where
  running : Bool
  waked : Bool
  /-- The worker's entry is on `wq_head`. -/
  queued : Bool
  task : TaskState
  pending : Bool
  worker : Worker
  callback : Callback
  module : Module
deriving DecidableEq

inductive Label
  | worker
  | fire
  | callback
  | module
  | spurious
deriving DecidableEq

namespace State

/-- `wake_up_process` -/
def wakeUpProcess (s : State) : State :=
  match s.task with
  | .running => s
  | .uninterruptible =>
    { s with
      task := .running
      worker := if s.worker = .asleep then .prepareToWait else s.worker }

/-- `wake_up(&wq_head)`: an entry whose task it wakes is taken off the queue. -/
def wakeUp (s : State) : State :=
  if s.queued ∧ s.task = .uninterruptible then { s.wakeUpProcess with queued := false } else s

def workerStep (s : State) : Option State :=
  match s.worker with
  | .testRunning =>
    some { s with worker := if s.running then .testWaked else .waitForKthreadStop }
  | .testWaked => some { s with worker := if s.waked then .clearWaked else .prepareToWait }
  | .prepareToWait =>
    some { s with queued := true, task := .uninterruptible, worker := .retestWaked }
  | .retestWaked => some { s with worker := if s.waked then .finishWait else .schedule }
  | .schedule =>
    some { s with worker := if s.task = .uninterruptible then .asleep else .prepareToWait }
  | .finishWait => some { s with task := .running, queued := false, worker := .clearWaked }
  | .clearWaked => some { s with waked := false, worker := .testRunning }
  | .asleep | .waitForKthreadStop => none

/-- The timer expires. -/
def fire (s : State) : Option State :=
  if s.pending ∧ s.callback = .idle then some { s with pending := false, callback := .setWaked }
  else none

def callbackStep (s : State) : Option State :=
  match s.callback with
  | .idle => none
  | .setWaked => some { s with waked := true, callback := .wakeUp }
  | .wakeUp => some { s.wakeUp with callback := .modTimer }
  | .modTimer => some { s with pending := true, callback := .idle }

def moduleStep (s : State) : Option State :=
  match s.module with
  | .timerInit => some { s with pending := true, module := .timerPending }
  | .timerPending => some { s with module := if s.pending then .delTimer else .clearRunning }
  | .delTimer => some { s with pending := false, module := .clearRunning }
  | .clearRunning => some { s with running := false, module := .setWaked }
  | .setWaked => some { s with waked := true, module := .wakeUp }
  | .wakeUp => some { s.wakeUp with module := .kthreadStop }
  | .kthreadStop => some { s.wakeUpProcess with module := .waitForExit }
  | .waitForExit => none

def next (s : State) : Label → Option State
  | .worker => s.workerStep
  | .fire => s.fire
  | .callback => s.callbackStep
  | .module => s.moduleStep
  | .spurious => some s.wakeUpProcess

/-- The worker is blocked in `wait_event`. -/
def Blocked (s : State) : Prop := s.worker = .asleep

/-- The exit path has issued its `wake_up`. -/
def WakeUpIssued (s : State) : Prop := s.module = .kthreadStop ∨ s.module = .waitForExit

/-- The exit path has made both stores. -/
def Stored (s : State) : Prop := s.module = .wakeUp ∨ s.WakeUpIssued

/-- The exit path has made its first store. -/
def Cleared (s : State) : Prop := s.module = .setWaked ∨ s.Stored

/-- The worker sleeps, or will at its next step. -/
def Sleeps (s : State) : Prop :=
  s.worker = .asleep ∨ s.worker = .schedule ∧ s.task = .uninterruptible

instance (s : State) : Decidable s.Blocked := inferInstanceAs (Decidable (_ = _))

instance (s : State) : Decidable s.WakeUpIssued := inferInstanceAs (Decidable (_ ∨ _))

end State

/-- `example_thread_ctx_init`, then `kthread_run`. -/
def initial : State := ⟨true, false, false, .running, false, .testRunning, .idle, .timerInit⟩

/-- The worker, the timer and the module, step by step, with spurious wake-ups. -/
def system : System State Label := System.ofStep (· = initial) State.next

namespace State

variable {s t : State} {l : Label}

/-- What holds in every run.  `owed` says that no wake-up is lost, `stored` that the exit
path is heard, and `awake` that nothing is left to wait for behind it. -/
structure Inv (s : State) : Prop where
  queued : s.task = .uninterruptible → s.queued = true
  asleep : s.worker = .asleep → s.task = .uninterruptible
  owed : s.Sleeps → s.waked = true → s.callback = .wakeUp ∨ s.module = .wakeUp
  cleared : s.Cleared → s.running = false
  stored : s.Stored →
    s.waked = true ∨ s.worker = .testRunning ∨ s.worker = .waitForKthreadStop
  awake : s.WakeUpIssued → ¬ s.Sleeps

theorem Inv.initial : PingPong.initial.Inv where
  queued h := by simp [PingPong.initial] at h
  asleep h := by simp [PingPong.initial] at h
  owed _ h := by simp [PingPong.initial] at h
  cleared h := by simp [PingPong.initial, Cleared, Stored, WakeUpIssued] at h
  stored h := by simp [PingPong.initial, Stored, WakeUpIssued] at h
  awake h := by simp [PingPong.initial, WakeUpIssued] at h

/-! ### Waking the worker -/

theorem wakeUpProcess_eq (s : State) : ∃ task worker,
    s.wakeUpProcess = { s with task := task, worker := worker } ∧ task = .running ∧
      (worker = s.worker ∨ s.worker = .asleep ∧ worker = .prepareToWait) := by
  obtain ⟨running, waked, queued, task, pending, worker, callback, module⟩ := s
  cases task with
  | running => exact ⟨_, worker, rfl, rfl, Or.inl rfl⟩
  | uninterruptible =>
    refine ⟨_, _, rfl, rfl, ?_⟩
    by_cases hasleep : worker = .asleep
    · exact Or.inr ⟨hasleep, if_pos hasleep⟩
    · exact Or.inl (if_neg hasleep)

theorem Inv.wakeUpProcess_not_sleeps (h : s.Inv) : ¬ s.wakeUpProcess.Sleeps := by
  obtain ⟨running, waked, queued, task, pending, worker, callback, module⟩ := s
  rintro (hasleep | ⟨-, htask⟩)
  · cases task with
    | running => exact absurd (h.asleep hasleep) (by simp)
    | uninterruptible => by_cases hw : worker = .asleep <;> simp [wakeUpProcess, hw] at hasleep
  · cases task <;> simp [wakeUpProcess] at htask

/-- A state whose worker is not about to sleep owes it nothing. -/
theorem Inv.of_not_sleeps (hqueued : s.task = .uninterruptible → s.queued = true)
    (hsleeps : ¬ s.Sleeps) (hcleared : s.Cleared → s.running = false)
    (hstored : s.Stored →
      s.waked = true ∨ s.worker = .testRunning ∨ s.worker = .waitForKthreadStop) : s.Inv where
  queued := hqueued
  asleep hasleep := absurd (Or.inl hasleep) hsleeps
  owed hs := absurd hs hsleeps
  cleared := hcleared
  stored := hstored
  awake _ := hsleeps

/-- Waking the worker, by whichever call, takes nothing from the invariant. -/
theorem Inv.wakeUpProcess (h : s.Inv) : s.wakeUpProcess.Inv := by
  have hsleeps : ¬ s.wakeUpProcess.Sleeps := h.wakeUpProcess_not_sleeps
  obtain ⟨task, worker, heq, htask, hworker⟩ := s.wakeUpProcess_eq
  rw [heq] at hsleeps ⊢
  refine .of_not_sleeps (fun hun => ?_) hsleeps h.cleared fun hstored => ?_
  · simp [htask] at hun
  · have hheard := h.stored hstored
    rcases hworker with rfl | ⟨hasleep, rfl⟩
    · exact hheard
    · left
      simpa [hasleep] using hheard

theorem Inv.wakeUp (h : s.Inv) : s.wakeUp.Inv := by
  rw [State.wakeUp]
  split
  · have hw := h.wakeUpProcess
    have hsleeps := h.wakeUpProcess_not_sleeps
    obtain ⟨task, worker, heq, htask, -⟩ := s.wakeUpProcess_eq
    rw [heq] at hw hsleeps ⊢
    exact .of_not_sleeps (fun hun => absurd (htask.symm.trans hun) (by simp)) hsleeps
      hw.cleared hw.stored
  · exact h

/-- `wake_up` finds whoever is about to sleep on the queue. -/
theorem Inv.wakeUp_not_sleeps (h : s.Inv) : ¬ s.wakeUp.Sleeps := by
  rw [State.wakeUp]
  split
  · exact h.wakeUpProcess_not_sleeps
  · rename_i hnot
    intro hsleeps
    have htask : s.task = .uninterruptible := hsleeps.elim h.asleep And.right
    exact hnot ⟨h.queued htask, htask⟩

theorem wakeUp_eq (s : State) : ∃ task worker queued,
    s.wakeUp = { s with task := task, worker := worker, queued := queued } := by
  rw [State.wakeUp]
  split
  · obtain ⟨task, worker, heq, -⟩ := s.wakeUpProcess_eq
    exact ⟨task, worker, false, by rw [heq]⟩
  · exact ⟨_, _, _, rfl⟩

/-! ### One step of each party -/

theorem WakeUpIssued.stored (h : s.WakeUpIssued) : s.Stored := Or.inr h

/-- Behind the two stores, and before the worker is at its test of `running` again, `waked`
is set. -/
theorem Inv.waked_of_stored (h : s.Inv) (htest : s.worker ≠ .testRunning)
    (hwait : s.worker ≠ .waitForKthreadStop) (hstored : s.Stored) : s.waked = true := by
  rcases h.stored hstored with hwaked | hw | hw
  · exact hwaked
  · exact absurd hw htest
  · exact absurd hw hwait

theorem Inv.workerStep (h : s.Inv) (ht : s.workerStep = some t) : t.Inv := by
  obtain ⟨running, waked, queued, task, pending, worker, callback, module⟩ := s
  cases worker with
  | asleep | waitForKthreadStop => exact absurd ht (by simp [State.workerStep])
  | testRunning =>
    obtain rfl := Option.some.inj ht
    refine .of_not_sleeps h.queued (fun hs => ?_) h.cleared fun hstored => ?_
    · cases running <;> simp [Sleeps] at hs
    · obtain rfl : running = false := h.cleared (Or.inr hstored)
      exact Or.inr (Or.inr rfl)
  | testWaked =>
    obtain rfl := Option.some.inj ht
    have hwaked := h.waked_of_stored (by simp) (by simp)
    refine .of_not_sleeps h.queued (fun hs => ?_) h.cleared fun hstored => Or.inl (hwaked hstored)
    cases waked <;> simp [Sleeps] at hs
  | prepareToWait =>
    obtain rfl := Option.some.inj ht
    have hwaked := h.waked_of_stored (by simp) (by simp)
    refine .of_not_sleeps (fun _ => rfl) (fun hs => ?_) h.cleared
      fun hstored => Or.inl (hwaked hstored)
    simp [Sleeps] at hs
  | retestWaked =>
    obtain rfl := Option.some.inj ht
    have hwaked := h.waked_of_stored (by simp) (by simp)
    cases waked with
    | true =>
      refine .of_not_sleeps h.queued (fun hs => ?_) h.cleared fun _ => Or.inl rfl
      simp [Sleeps] at hs
    | false =>
      -- it goes to sleep only when the exit path has not made its stores yet
      refine ⟨h.queued, fun hasleep => ?_, fun _ hw => ?_, h.cleared, fun hstored => ?_,
        fun hissued => ?_⟩
      · simp at hasleep
      · exact absurd hw (by simp)
      · exact absurd (hwaked hstored) (by simp)
      · exact absurd (hwaked hissued.stored) (by simp)
  | schedule =>
    obtain rfl := Option.some.inj ht
    have hwaked := h.waked_of_stored (by simp) (by simp)
    cases task with
    | running =>
      refine .of_not_sleeps h.queued (fun hs => ?_) h.cleared fun hstored => Or.inl (hwaked hstored)
      simp [Sleeps] at hs
    | uninterruptible =>
      have hs : State.Sleeps ⟨running, waked, queued, .uninterruptible, pending, .schedule,
        callback, module⟩ := Or.inr ⟨rfl, rfl⟩
      exact ⟨h.queued, fun _ => rfl, fun _ => h.owed hs, h.cleared,
        fun hstored => Or.inl (hwaked hstored), fun hissued => absurd hs (h.awake hissued)⟩
  | finishWait =>
    obtain rfl := Option.some.inj ht
    have hwaked := h.waked_of_stored (by simp) (by simp)
    refine .of_not_sleeps (fun hun => ?_) (fun hs => ?_) h.cleared
      fun hstored => Or.inl (hwaked hstored)
    · simp at hun
    · simp [Sleeps] at hs
  | clearWaked =>
    obtain rfl := Option.some.inj ht
    refine .of_not_sleeps h.queued (fun hs => ?_) h.cleared fun _ => Or.inr (Or.inl rfl)
    simp [Sleeps] at hs

theorem Inv.fire (h : s.Inv) (ht : s.fire = some t) : t.Inv := by
  rw [State.fire] at ht
  split at ht
  · rename_i hidle
    obtain rfl := Option.some.inj ht
    refine ⟨h.queued, h.asleep, fun hs hwaked => ?_, h.cleared, h.stored, h.awake⟩
    rcases h.owed hs hwaked with hcallback | hmodule
    · exact absurd (hidle.2.symm.trans hcallback) (by simp)
    · exact Or.inr hmodule
  · exact absurd ht (by simp)

theorem Inv.callbackStep (h : s.Inv) (ht : s.callbackStep = some t) : t.Inv := by
  rw [State.callbackStep] at ht
  split at ht
  · exact absurd ht (by simp)
  · obtain rfl := Option.some.inj ht
    exact ⟨h.queued, h.asleep, fun _ _ => Or.inl rfl, h.cleared, fun _ => Or.inl rfl, h.awake⟩
  · obtain rfl := Option.some.inj ht
    have hw := h.wakeUp
    exact .of_not_sleeps hw.queued h.wakeUp_not_sleeps hw.cleared hw.stored
  · rename_i hcallback
    obtain rfl := Option.some.inj ht
    refine ⟨h.queued, h.asleep, fun hs hwaked => ?_, h.cleared, h.stored, h.awake⟩
    rcases h.owed hs hwaked with hwake | hmodule
    · exact absurd (hcallback.symm.trans hwake) (by simp)
    · exact Or.inr hmodule

theorem Inv.moduleStep (h : s.Inv) (ht : s.moduleStep = some t) : t.Inv := by
  obtain ⟨running, waked, queued, task, pending, worker, callback, module⟩ := s
  cases module with
  | waitForExit => exact absurd ht (by simp [State.moduleStep])
  | timerInit | delTimer =>
    obtain rfl := Option.some.inj ht
    refine ⟨h.queued, h.asleep, fun hs hwaked => ?_, fun hcleared => ?_, fun hstored => ?_,
      fun hissued => ?_⟩
    · exact (h.owed hs hwaked).imp_right (by simp)
    · simp [Cleared, Stored, WakeUpIssued] at hcleared
    · simp [Stored, WakeUpIssued] at hstored
    · simp [WakeUpIssued] at hissued
  | timerPending =>
    obtain rfl := Option.some.inj ht
    refine ⟨h.queued, h.asleep, fun hs hwaked => ?_, fun hcleared => ?_, fun hstored => ?_,
      fun hissued => ?_⟩
    · exact (h.owed hs hwaked).imp_right (by simp)
    · cases pending <;> simp [Cleared, Stored, WakeUpIssued] at hcleared
    · cases pending <;> simp [Stored, WakeUpIssued] at hstored
    · cases pending <;> simp [WakeUpIssued] at hissued
  | clearRunning =>
    obtain rfl := Option.some.inj ht
    refine ⟨h.queued, h.asleep, fun hs hwaked => ?_, fun _ => rfl, fun hstored => ?_,
      fun hissued => ?_⟩
    · exact (h.owed hs hwaked).imp_right (by simp)
    · simp [Stored, WakeUpIssued] at hstored
    · simp [WakeUpIssued] at hissued
  | setWaked =>
    obtain rfl := Option.some.inj ht
    refine ⟨h.queued, h.asleep, fun _ _ => Or.inr rfl, fun _ => h.cleared (Or.inl rfl),
      fun _ => Or.inl rfl, fun hissued => ?_⟩
    simp [WakeUpIssued] at hissued
  | wakeUp =>
    obtain rfl := Option.some.inj ht
    have hw := h.wakeUp
    have hsleeps := h.wakeUp_not_sleeps
    have hcleared := h.cleared (Or.inr (Or.inl rfl))
    have hstored := h.stored (Or.inl rfl)
    obtain ⟨task', worker', queued', heq⟩ := wakeUp_eq ⟨running, waked, queued, task, pending,
      worker, callback, .wakeUp⟩
    rw [heq] at hw hsleeps ⊢
    exact .of_not_sleeps hw.queued hsleeps (fun _ => hcleared) fun _ => hw.stored (Or.inl rfl)
  | kthreadStop =>
    obtain rfl := Option.some.inj ht
    have hw := h.wakeUpProcess
    have hsleeps := h.wakeUpProcess_not_sleeps
    obtain ⟨task', worker', heq, -⟩ := wakeUpProcess_eq ⟨running, waked, queued, task, pending,
      worker, callback, .kthreadStop⟩
    rw [heq] at hw hsleeps ⊢
    exact .of_not_sleeps hw.queued hsleeps (fun _ => hw.cleared (Or.inr (Or.inr (Or.inl rfl))))
      fun _ => hw.stored (Or.inr (Or.inl rfl))

theorem Inv.step (h : s.Inv) (ht : system.step s l t) : t.Inv := by
  have hnext : s.next l = some t := ht
  cases l with
  | worker => exact h.workerStep hnext
  | fire => exact h.fire hnext
  | callback => exact h.callbackStep hnext
  | module => exact h.moduleStep hnext
  | spurious =>
    obtain rfl := Option.some.inj hnext
    exact h.wakeUpProcess

theorem Inv.of_reachable (h : system.Reachable s) : s.Inv := by
  refine h.invariant (fun s hs => ?_) fun s l t _ hs ht => hs.step ht
  obtain rfl := hs
  exact .initial

/-! ### The worker behind the exit path -/

/-- How many steps the worker still has in its loop when `waked` is set and `running` is not. -/
def rank : Worker → ℕ
  | .waitForKthreadStop => 0
  | .testRunning => 1
  | .clearWaked => 2
  | .testWaked | .finishWait => 3
  | .retestWaked => 4
  | .prepareToWait => 5
  | .schedule => 6
  | .asleep => 7

theorem rank_eq_zero {w : Worker} : rank w = 0 ↔ w = .waitForKthreadStop := by
  cases w <;> simp [rank]

theorem wakeUpProcess_worker (h : s.worker ≠ .asleep) : s.wakeUpProcess.worker = s.worker := by
  obtain ⟨task, worker, heq, -, hworker⟩ := s.wakeUpProcess_eq
  rw [heq]
  rcases hworker with rfl | ⟨hasleep, -⟩
  · rfl
  · exact absurd hasleep h

@[simp] theorem wakeUpProcess_module : s.wakeUpProcess.module = s.module := by
  obtain ⟨_, _, heq, -⟩ := s.wakeUpProcess_eq
  rw [heq]

theorem wakeUp_worker (h : s.worker ≠ .asleep) : s.wakeUp.worker = s.worker := by
  rw [State.wakeUp]
  split
  · exact wakeUpProcess_worker h
  · rfl

@[simp] theorem wakeUp_module : s.wakeUp.module = s.module := by
  obtain ⟨_, _, _, heq⟩ := s.wakeUp_eq
  rw [heq]

/-- Behind the exit path's `wake_up` no other party moves the worker. -/
theorem WakeUpIssued.step_other (h : s.WakeUpIssued) (hasleep : s.worker ≠ .asleep)
    (hl : l ≠ .worker) (ht : s.next l = some t) : t.worker = s.worker ∧ t.WakeUpIssued := by
  cases l with
  | worker => exact absurd rfl hl
  | fire =>
    simp only [next, State.fire] at ht
    split at ht
    · obtain rfl := Option.some.inj ht
      exact ⟨rfl, h⟩
    · exact absurd ht (by simp)
  | callback =>
    simp only [next, State.callbackStep] at ht
    split at ht
    · exact absurd ht (by simp)
    · obtain rfl := Option.some.inj ht
      exact ⟨rfl, h⟩
    · obtain rfl := Option.some.inj ht
      exact ⟨wakeUp_worker hasleep, by simpa [WakeUpIssued] using h⟩
    · obtain rfl := Option.some.inj ht
      exact ⟨rfl, h⟩
  | module =>
    rcases h with hmodule | hmodule
    · simp only [next, State.moduleStep, hmodule] at ht
      obtain rfl := Option.some.inj ht
      exact ⟨wakeUpProcess_worker hasleep, Or.inr rfl⟩
    · simp [next, State.moduleStep, hmodule] at ht
  | spurious =>
    obtain rfl := Option.some.inj ht
    exact ⟨wakeUpProcess_worker hasleep, by simpa [WakeUpIssued] using h⟩

theorem workerStep_module (ht : s.workerStep = some t) : t.module = s.module := by
  obtain ⟨running, waked, queued, task, pending, worker, callback, module⟩ := s
  cases worker with
  | asleep | waitForKthreadStop => exact absurd ht (by simp [State.workerStep])
  | _ =>
    obtain rfl := Option.some.inj ht
    rfl

/-- Behind the exit path's `wake_up` each step of the worker is one towards the end of its
loop. -/
theorem Inv.rank_workerStep (h : s.Inv) (hissued : s.WakeUpIssued) (ht : s.workerStep = some t) :
    rank t.worker < rank s.worker := by
  have hsleeps := h.awake hissued
  have hrunning := h.cleared (Or.inr hissued.stored)
  have hwaked : s.worker ≠ .testRunning → s.worker ≠ .waitForKthreadStop → s.waked = true :=
    fun htest hwait => h.waked_of_stored htest hwait hissued.stored
  obtain ⟨running, waked, queued, task, pending, worker, callback, module⟩ := s
  obtain rfl : running = false := hrunning
  cases worker with
  | asleep | waitForKthreadStop => exact absurd ht (by simp [State.workerStep])
  | testRunning | prepareToWait | finishWait | clearWaked =>
    obtain rfl := Option.some.inj ht
    simp [rank]
  | testWaked | retestWaked =>
    obtain rfl : waked = true := hwaked (by simp) (by simp)
    obtain rfl := Option.some.inj ht
    simp [rank]
  | schedule =>
    obtain rfl := Option.some.inj ht
    cases task with
    | running => simp [rank]
    | uninterruptible => exact absurd (Or.inr ⟨rfl, rfl⟩) hsleeps

/-- A worker that does not sleep and is in its loop can step. -/
theorem workerStep_isSome (hasleep : s.worker ≠ .asleep)
    (hwait : s.worker ≠ .waitForKthreadStop) : s.workerStep.isSome := by
  obtain ⟨running, waked, queued, task, pending, worker, callback, module⟩ := s
  cases worker with
  | asleep => exact absurd rfl hasleep
  | waitForKthreadStop => exact absurd rfl hwait
  | _ => rfl

/-- The run of the worker behind the exit path's `wake_up`. -/
theorem WakeUpIssued.run (h : s.WakeUpIssued) (hs : s.Inv) {ls : List Label}
    (hrun : system.Run s ls t) :
    (t.Inv ∧ t.WakeUpIssued) ∧ rank t.worker ≤ rank s.worker - ls.count .worker := by
  refine hrun.progress (P := fun s => s.Inv ∧ s.WakeUpIssued) (fun s => rank s.worker) .worker
    (fun s t hs _ ht => hs.1.rank_workerStep hs.2 ht) (fun s l t hs ht => ?_) ⟨hs, h⟩
  have hnext : s.next l = some t := ht
  have hasleep : s.worker ≠ .asleep := fun hasleep => hs.1.awake hs.2 (Or.inl hasleep)
  by_cases hl : l = .worker
  · obtain rfl := hl
    have hmodule := workerStep_module hnext
    refine ⟨⟨hs.1.step ht, ?_⟩, Nat.le_of_lt (hs.1.rank_workerStep hs.2 hnext)⟩
    rw [WakeUpIssued, hmodule]
    exact hs.2
  · obtain ⟨hworker, hissued⟩ := hs.2.step_other hasleep hl hnext
    exact ⟨⟨hs.1.step ht, hissued⟩, Nat.le_of_eq (congrArg rank hworker)⟩

end State

/-- **The shutdown**: behind the exit path's `wake_up` the worker is not blocked with `waked`
unset, in no run; as long as it is in its loop it can take a step, and within six steps of its
own it is at `wait_for_kthread_stop`, whatever the timer and the exit path do meanwhile. -/
theorem pingpong_exit (s : State) (hs : system.Reachable s) (hissued : s.WakeUpIssued) :
    ¬ (s.Blocked ∧ s.waked = false) ∧ ∀ ls t, system.Run s ls t →
      (t.worker = .waitForKthreadStop ∨ (t.next .worker).isSome) ∧
      (6 ≤ ls.count .worker → t.worker = .waitForKthreadStop) := by
  have hinv := State.Inv.of_reachable hs
  refine ⟨fun h => hinv.awake hissued (Or.inl h.1), fun ls t hrun => ?_⟩
  obtain ⟨⟨ht, hissued'⟩, hrank⟩ := hissued.run hinv hrun
  have hasleep : t.worker ≠ .asleep := fun h => ht.awake hissued' (Or.inl h)
  refine ⟨?_, fun hsix => ?_⟩
  · by_cases hwait : t.worker = .waitForKthreadStop
    · exact Or.inl hwait
    · exact Or.inr (State.workerStep_isSome hasleep hwait)
  · have hle : State.rank s.worker ≤ 6 := by
      have hnot : s.worker ≠ .asleep := fun h => hinv.awake hissued (Or.inl h)
      cases hw : s.worker <;> simp [State.rank, hw] at hnot ⊢
    exact State.rank_eq_zero.mp (by omega)

/-- The callback fires while the exit path deletes the timer, and sets `waked` behind it. -/
theorem pingpong_exit_late_callback :
    ¬ (State.Blocked ⟨false, true, false, .running, false, .prepareToWait, .wakeUp, .kthreadStop⟩ ∧
        true = false) ∧
      ∀ ls t, system.Run ⟨false, true, false, .running, false, .prepareToWait, .wakeUp,
          .kthreadStop⟩ ls t →
        (t.worker = .waitForKthreadStop ∨ (t.next .worker).isSome) ∧
        (6 ≤ ls.count .worker → t.worker = .waitForKthreadStop) := by
  refine pingpong_exit _ ⟨initial, [.module, .worker, .worker, .worker, .worker, .worker, .module,
    .fire, .module, .module, .module, .callback, .module], rfl, System.run_ofStep ?_⟩ (by decide)
  rfl

/-- **No wake-up is lost**, of the timer's or the exit path's: who is blocked with `waked` set
is about to be woken. -/
theorem pingpong_owed (s : State) (hs : system.Reachable s) (hblocked : s.Blocked)
    (hwaked : s.waked = true) : s.callback = .wakeUp ∨ s.module = .wakeUp :=
  (State.Inv.of_reachable hs).owed (Or.inl hblocked) hwaked

end CppProgramming.Kthread.PingPong
