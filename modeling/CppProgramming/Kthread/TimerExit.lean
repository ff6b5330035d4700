import CppProgramming.Lib.Transition

/-!
# `timer_example_exit`

The timer of `timer_example.c` and of `kthread_example4.c` re-arms itself in its own
callback.  While the callback runs the timer is not pending, and it does not fire again
before the callback has returned.  The exit path tests whether the timer is pending and
deletes it if it is; `del_timer` waits for nobody.

`timer_exit_quiet` says what this is good for: the exit leaves nothing behind exactly
when no callback is running at its last access to the timer.
-/

namespace CppProgramming.Kthread.TimerExit

open CppProgramming.Lib

/-- The next step of `timer_example_expire__`. -/
inductive Callback
  | idle
  | count
  | delTimer
  | modTimer
  | ret
deriving DecidableEq

/-- The next step of `timer_example_exit`. -/
inductive Exit
  | timerPending
  | delTimer
  | ret
  | returned
deriving DecidableEq

structure State where
  pending : Bool
  cnt : BitVec 64
  callback : Callback
  exit : Exit
deriving DecidableEq

inductive Label
  | fire
  | callback
  | exit

namespace State

/-- A step of the callback, which deletes the timer instead of re-arming it when `last`
holds of the count. -/
def callbackStep (last : BitVec 64 → Bool) (s : State) : Option State :=
  match s.callback with
  | .idle => none
  | .count =>
    let cnt := s.cnt + 1
    some { s with cnt := cnt, callback := if last cnt then .delTimer else .modTimer }
  | .delTimer => some { s with pending := false, callback := .ret }
  | .modTimer => some { s with pending := true, callback := .ret }
  | .ret => some { s with callback := .idle }

def exitStep (s : State) : Option State :=
  match s.exit with
  | .timerPending => some { s with exit := if s.pending then .delTimer else .ret }
  | .delTimer => some { s with pending := false, exit := .ret }
  | .ret => some { s with exit := .returned }
  | .returned => none

/-- The timer expires. -/
def fire (s : State) : Option State :=
  if s.pending ∧ s.callback = .idle then some { s with pending := false, callback := .count }
  else none

def next (last : BitVec 64 → Bool) (s : State) : Label → Option State
  | .fire => s.fire
  | .callback => s.callbackStep last
  | .exit => s.exitStep

/-- Nothing is left to touch the memory of the module. -/
def Quiet (s : State) : Prop := s.pending = false ∧ s.callback = .idle

/-- The exit path accesses the timer for the last time: it deletes it, or finds it not
pending. -/
def LastAccess (s : State) : Prop :=
  s.exit = .delTimer ∨ s.exit = .timerPending ∧ s.pending = false

end State

/-- The timer after `timer_example_init`, with a callback that re-arms it until `last`. -/
def system (last : BitVec 64 → Bool) : System State Label :=
  System.ofStep (· = ⟨true, 0, .idle, .timerPending⟩) (State.next last)

/-- `if (++data->cnt == 10)` of `timer_example.c`. -/
def timerExample (cnt : BitVec 64) : Bool := cnt == 10

/-- The callback of `kthread_example4.c` always re-arms. -/
def kthreadExample4 (_ : BitVec 64) : Bool := false

namespace State

variable {last : BitVec 64 → Bool} {s t : State} {l : Label}

/-- A step of the exit path at which no callback runs while it is its last access. -/
def Alone (s : State) (l : Label) : Prop := l = .exit → s.LastAccess → s.callback = .idle

/-- What holds behind a last access at which no callback ran. -/
def Inv (s : State) : Prop := s.exit = .ret ∨ s.exit = .returned → s.Quiet

theorem Quiet.not_fire (h : s.Quiet) : s.fire = none := by
  rw [fire, if_neg]
  rintro ⟨hpending, -⟩
  rw [h.1] at hpending
  exact absurd hpending (by simp)

theorem Quiet.not_callback (h : s.Quiet) : s.callbackStep last = none := by
  rw [callbackStep, h.2]

theorem fire_exit (ht : s.fire = some t) : t.exit = s.exit := by
  rw [fire] at ht
  split at ht
  · obtain rfl := Option.some.inj ht
    rfl
  · exact absurd ht (by simp)

theorem callbackStep_exit (ht : s.callbackStep last = some t) : t.exit = s.exit := by
  rw [callbackStep] at ht
  split at ht
  · exact absurd ht (by simp)
  all_goals
    obtain rfl := Option.some.inj ht
    rfl

theorem Inv.step (h : s.Inv) (halone : s.Alone l) (ht : s.next last l = some t) : t.Inv := by
  intro hexit
  cases l with
  | fire =>
    have hquiet := h (fire_exit ht ▸ hexit)
    exact absurd ht (by simp [next, hquiet.not_fire])
  | callback =>
    have hquiet := h (callbackStep_exit ht ▸ hexit)
    exact absurd ht (by simp [next, hquiet.not_callback])
  | exit =>
    obtain ⟨pending, cnt, callback, exit⟩ := s
    cases exit with
    | timerPending =>
      obtain rfl := Option.some.inj ht
      by_cases hpending : pending = true
      · simp [hpending] at hexit
      · have hpending : pending = false := by simpa using hpending
        exact ⟨hpending, halone rfl (Or.inr ⟨rfl, hpending⟩)⟩
    | delTimer =>
      obtain rfl := Option.some.inj ht
      exact ⟨rfl, halone rfl (Or.inl rfl)⟩
    | ret =>
      obtain rfl := Option.some.inj ht
      exact h (Or.inl rfl)
    | returned => exact absurd ht (by simp [next, exitStep])

theorem Inv.of_reachable (h : ((system last).restrict Alone).Reachable s) : s.Inv := by
  refine h.invariant (fun s hs => ?_) fun s l t _ hs ht => hs.step ht.2 ht.1
  obtain rfl := hs
  exact fun hexit => by simp at hexit

/-- Two steps behind its last access the exit path has returned. -/
theorem LastAccess.run (h : s.LastAccess) :
    ∃ t, (system last).Run s [.exit, .exit] t ∧ t.exit = .returned ∧ t.callback = s.callback := by
  obtain ⟨pending, cnt, callback, exit⟩ := s
  rcases h with hexit | ⟨hexit, hpending⟩
  · obtain rfl : exit = .delTimer := hexit
    exact ⟨⟨false, cnt, callback, .returned⟩, System.run_ofStep rfl, rfl, rfl⟩
  · obtain rfl : exit = .timerPending := hexit
    obtain rfl : pending = false := hpending
    exact ⟨⟨false, cnt, callback, .returned⟩, System.run_ofStep rfl, rfl, rfl⟩

end State

/-- **When the exit leaves nothing behind**: the timer stays quiet behind it in every run
in which no callback is running at its last access to the timer; and whenever one is, it
may still be running when the exit has returned. -/
theorem timer_exit_quiet (last : BitVec 64 → Bool) :
    (∀ s, ((system last).restrict State.Alone).Reachable s → s.exit = .returned → s.Quiet) ∧
      ∀ s, (system last).Reachable s → s.LastAccess → s.callback ≠ .idle →
        ∃ ls t, (system last).Run s (.exit :: ls) t ∧ t.exit = .returned ∧ ¬ t.Quiet := by
  refine ⟨fun s hs hexit => State.Inv.of_reachable hs (Or.inr hexit), fun s _ hlast hrun => ?_⟩
  have hrun' : ∃ t, (system last).Run s [.exit, .exit] t ∧ t.exit = .returned ∧
    t.callback = s.callback := hlast.run
  obtain ⟨t, ht, hexit, hcallback⟩ := hrun'
  exact ⟨_, t, ht, hexit, fun hquiet => hrun (hcallback ▸ hquiet.2)⟩

/-- The callback runs when the exit path finds the timer not pending, and re-arms it
behind it, in both modules. -/
theorem timer_exit_rearmed :
    ¬ (∀ s, (system timerExample).Reachable s → s.exit = .returned → s.Quiet) ∧
      ¬ ∀ s, (system kthreadExample4).Reachable s → s.exit = .returned → s.Quiet := by
  refine ⟨fun hquiet => ?_, fun hquiet => ?_⟩
  · have hrun : (system timerExample).Run ⟨true, 0, .idle, .timerPending⟩
        [.fire, .exit, .exit, .callback, .callback] ⟨true, 1, .ret, .returned⟩ :=
      System.run_ofStep rfl
    exact absurd (hquiet _ ⟨_, _, rfl, hrun⟩ rfl).1 (by simp)
  · have hrun : (system kthreadExample4).Run ⟨true, 0, .idle, .timerPending⟩
        [.fire, .exit, .exit, .callback, .callback] ⟨true, 1, .ret, .returned⟩ :=
      System.run_ofStep rfl
    exact absurd (hquiet _ ⟨_, _, rfl, hrun⟩ rfl).1 (by simp)

end CppProgramming.Kthread.TimerExit
