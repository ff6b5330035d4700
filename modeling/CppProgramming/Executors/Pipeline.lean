import CppProgramming.Lib.Transition
import Mathlib.Algebra.BigOperators.Group.Finset.Piecewise
import Mathlib.Algebra.Order.BigOperators.Group.Finset
import Mathlib.Data.List.ReduceOption

/-!
# The pipeline of threads of `pipeline.cpp`

`pipeline` gives every stage a thread of its own and joins neighbours by a queue.  A
stage calls a function and stops the queue behind it when the function has returned.  The
function may pop and push in any order: `Stage` leaves open what it does, as long as it
depends on what was popped only and comes to an end when the input does.  A consumer that
finds its queue empty and not stopped waits on the condition variable of the queue, in a
loop.  A critical section of the mutex of a queue is one step.

The order in which the threads take their steps is open.  `State.flush` is what comes
out of the pipeline if every stage goes on from where it is, and no step changes it
(`Inv.flush_steps`).  So what is printed is determined by the input, and a pipeline that
has ended has printed all of it.  No wake-up is lost (`Inv.asleep`), so a pipeline that
cannot go on has ended (`stop_of_stuck`), and it ends after a bounded number of steps
(`Inv.allWork_lt`).
-/

namespace CppProgramming.Executors.Pipeline

open CppProgramming.Lib

/-- `queue_impl` -/
structure QueueImpl (T : Type*) where
  queue : List T
  stop_ : Bool
deriving DecidableEq

/-- How a turn of the loop in `pop` ends. -/
inductive Popped (T : Type*)
  | wait
  | item (t : T) (impl : QueueImpl T)
  | ended

namespace QueueImpl

variable {T : Type*}

/-- `queue_front::push`, up to the notification. -/
def push (t : T) (impl : QueueImpl T) : QueueImpl T := { impl with queue := impl.queue ++ [t] }

/-- `queue_front::stop`, up to the notification. -/
def stop (impl : QueueImpl T) : QueueImpl T := { impl with stop_ := true }

/-- `queue_back::pop` -/
def pop (impl : QueueImpl T) : Popped T :=
  match impl.queue with
  | t :: rest => .item t ⟨rest, impl.stop_⟩
  | [] => if impl.stop_ then .ended else .wait

@[simp] theorem queue_stop (impl : QueueImpl T) : impl.stop.queue = impl.queue := rfl

end QueueImpl

/-- What a function of the pipeline does next: it pops, and goes on with the item or, behind
the last one, without it; it pushes; or it returns. -/
inductive Action (T S : Type*)
  | pop (item : T → S) (ended : S)
  | push (t : T) (s : S)
  | ret

/-- A function of the pipeline.  `S` is where it is and what it remembers.  It makes at most
`fuel` calls before it returns or pops another item. -/
structure Stage (T S : Type*) where
  start : S
  action : S → Action T S
  fuel : S → ℕ
  fuel_push : ∀ {s t s'}, action s = .push t s' → fuel s' < fuel s
  fuel_ended : ∀ {s item ended}, action s = .pop item ended → fuel ended < fuel s

/-- Where the thread of a stage is. -/
inductive Thread (S : Type*)
  /-- In its function. -/
  | run (s : S)
  /-- In `condition_.wait`. -/
  | waiting (s : S)
  /-- Behind `out.stop()`. -/
  | done
deriving DecidableEq

variable {T S : Type*}

/-- `condition_.notify_one()`: a queue has one consumer. -/
def Thread.notifyOne : Thread S → Thread S
  | .waiting s => .run s
  | thread => thread

/-- The `i`-th stage pops from the `i`-th queue and pushes into the next one.  The first
queue is the input of the program, and the last one its output, stopped when the future is
ready. -/
structure State (T S : Type*) where
  impl : ℕ → QueueImpl T
  thread : ℕ → Thread S

inductive Label
  | step (i : ℕ)
  /-- A spurious wake-up. -/
  | wake (i : ℕ)
deriving DecidableEq

namespace State

/-- The queue of the `i`-th stage becomes `impl`, and the stage goes on as `thread`. -/
def goto (s : State T S) (i : ℕ) (impl : QueueImpl T) (thread : Thread S) : State T S where
  impl := Function.update s.impl i impl
  thread := Function.update s.thread i thread

/-- The queue behind the `i`-th stage becomes `impl`, its consumer is notified, and the stage
goes on as `thread`. -/
def pass (s : State T S) (i : ℕ) (impl : QueueImpl T) (thread : Thread S) : State T S where
  impl := Function.update s.impl (i + 1) impl
  thread := Function.update (Function.update s.thread (i + 1) (s.thread (i + 1)).notifyOne) i thread

def next (stages : List (Stage T S)) (s : State T S) : Label → Option (State T S)
  | .step i =>
    match stages[i]?, s.thread i with
    | some stage, .run st =>
      match stage.action st with
      | .pop item ended =>
        match (s.impl i).pop with
        | .item t impl => some (s.goto i impl (.run (item t)))
        | .ended => some (s.goto i (s.impl i) (.run ended))
        | .wait => some (s.goto i (s.impl i) (.waiting st))
      | .push t st => some (s.pass i ((s.impl (i + 1)).push t) (.run st))
      | .ret => some (s.pass i (s.impl (i + 1)).stop .done)
    | _, _ => none
  | .wake i =>
    match s.thread i with
    | .waiting st => some (s.goto i (s.impl i) (.run st))
    | _ => none

end State

/-- `pipeline(f, t...)`, when all stages are launched. -/
def State.initial (stages : List (Stage T S)) (input : List T) : State T S where
  impl i := if i = 0 then ⟨input, true⟩ else ⟨[], false⟩
  thread i := match stages[i]? with
    | some stage => .run stage.start
    | none => .done

def system (stages : List (Stage T S)) (input : List T) : System (State T S) Label :=
  .ofStep (· = .initial stages input) (State.next stages)

/-! ### The stages of the program -/

/-- A loop over `in.pop`, with what it has to push before it pops again. -/
inductive Loop (T S : Type*)
  | body (s : S) (out : List T)
  | ended

/-- `while (in.pop(t))` with a body that pushes some items. -/
def Stage.loop (start : S) (body : S → T → S × List T) : Stage T (Loop T S) where
  start := .body start []
  action
    | .body s [] => .pop (fun t => .body (body s t).1 (body s t).2) .ended
    | .body s (t :: out) => .push t (.body s out)
    | .ended => .ret
  fuel
    | .body _ out => out.length + 1
    | .ended => 0
  fuel_push := by
    rintro (⟨s, _ | ⟨v, out⟩⟩ | _) t s' ⟨⟩
    exact Nat.lt_succ_self _
  fuel_ended := by
    rintro (⟨s, _ | ⟨v, out⟩⟩ | _) item last ⟨⟩
    exact Nat.zero_lt_succ _

/-- A `std::string` -/
abbrev Line := List UInt8

/-- `reader`; the input of the program is a list of lines. -/
def reader : Stage Line (Loop Line ℕ) := .loop 0 fun count line => (count, [line])

/-- `filter` -/
def filter : Stage Line (Loop Line ℕ) := .loop 0 fun count line =>
  (count, if line.length > 5 then [line] else [])

/-- `std::toupper` in the locale of a program that sets none; the bytes that are no ASCII stay
what they are. -/
def toupper (c : UInt8) : UInt8 := if 97 ≤ c ∧ c ≤ 122 then c - 32 else c

/-- `upper` -/
def upper : Stage Line (Loop Line ℕ) := .loop 0 fun count line => (count, [line.map toupper])

def bytes (text : List Char) : Line := text.map fun c => UInt8.ofNat c.toNat

/-- A line of the output. -/
def numbered (count : ℕ) (line : Line) : Line :=
  bytes (Nat.toDigits 10 count ++ ": ".toList) ++ line

/-- `writer`; its `count` is a `std::size_t`. -/
def writer : Stage Line (Loop Line ℕ) := .loop 0 fun count line =>
  ((count + 1) % 2 ^ 64, [numbered count line])

/-- `main`, from the lines of its input. -/
def main (input : List Line) : System (State Line (Loop Line ℕ)) Label :=
  system [reader, filter, upper, writer] input

/-! ### What a step does -/

variable {stages : List (Stage T S)} {input : List T} {s t : State T S} {i : ℕ}

/-- The steps of the `i`-th stage. -/
inductive Steps (stages : List (Stage T S)) (s : State T S) (i : ℕ) : State T S → Prop
  | item {stage : Stage T S} {st : S} {item : T → S} {ended : S} {v : T} {rest : List T}
      (hstage : stages[i]? = some stage) (hrun : s.thread i = .run st)
      (hpop : stage.action st = .pop item ended) (hqueue : (s.impl i).queue = v :: rest) :
      Steps stages s i (s.goto i ⟨rest, (s.impl i).stop_⟩ (.run (item v)))
  | ended {stage : Stage T S} {st : S} {item : T → S} {ended : S}
      (hstage : stages[i]? = some stage) (hrun : s.thread i = .run st)
      (hpop : stage.action st = .pop item ended) (hqueue : (s.impl i).queue = [])
      (hstop : (s.impl i).stop_ = true) :
      Steps stages s i (s.goto i (s.impl i) (.run ended))
  | wait {stage : Stage T S} {st : S} (hstage : stages[i]? = some stage)
      (hrun : s.thread i = .run st) (hqueue : (s.impl i).queue = [])
      (hstop : (s.impl i).stop_ = false) :
      Steps stages s i (s.goto i (s.impl i) (.waiting st))
  | push {stage : Stage T S} {st st' : S} {v : T} (hstage : stages[i]? = some stage)
      (hrun : s.thread i = .run st) (hpush : stage.action st = .push v st') :
      Steps stages s i (s.pass i ((s.impl (i + 1)).push v) (.run st'))
  | ret {stage : Stage T S} {st : S} (hstage : stages[i]? = some stage)
      (hrun : s.thread i = .run st) (hret : stage.action st = .ret) :
      Steps stages s i (s.pass i (s.impl (i + 1)).stop .done)

theorem steps_of_next (h : s.next stages (.step i) = some t) : Steps stages s i t := by
  simp only [State.next] at h
  split at h
  · rename_i stage st hstage hrun
    cases haction : stage.action st with
    | pop item ended =>
      rw [haction] at h
      cases hqueue : (s.impl i).queue with
      | cons v rest =>
        simp only [QueueImpl.pop, hqueue, Option.some.injEq] at h
        exact h ▸ .item hstage hrun haction hqueue
      | nil =>
        cases hstop : (s.impl i).stop_ with
        | true =>
          simp only [QueueImpl.pop, hqueue, hstop, if_true, Option.some.injEq] at h
          exact h ▸ .ended hstage hrun haction hqueue hstop
        | false =>
          simp only [QueueImpl.pop, hqueue, hstop, Bool.false_eq_true, if_false,
            Option.some.injEq] at h
          exact h ▸ .wait hstage hrun hqueue hstop
    | push v st' =>
      rw [haction] at h
      exact Option.some.inj h ▸ .push hstage hrun haction
    | ret =>
      rw [haction] at h
      exact Option.some.inj h ▸ .ret hstage hrun haction
  · exact absurd h (by simp)

theorem wake_of_next (h : s.next stages (.wake i) = some t) :
    ∃ st, s.thread i = .waiting st ∧ t = s.goto i (s.impl i) (.run st) := by
  simp only [State.next] at h
  split at h
  · exact ⟨_, ‹_›, (Option.some.inj h).symm⟩
  · exact absurd h (by simp)

@[simp] theorem goto_impl_self {impl : QueueImpl T} {thread : Thread S} :
    (s.goto i impl thread).impl i = impl := Function.update_self ..

theorem goto_impl_of_ne {impl : QueueImpl T} {thread : Thread S} {j : ℕ} (hj : j ≠ i) :
    (s.goto i impl thread).impl j = s.impl j := Function.update_of_ne hj ..

@[simp] theorem goto_thread_self {impl : QueueImpl T} {thread : Thread S} :
    (s.goto i impl thread).thread i = thread := Function.update_self ..

theorem goto_thread_of_ne {impl : QueueImpl T} {thread : Thread S} {j : ℕ} (hj : j ≠ i) :
    (s.goto i impl thread).thread j = s.thread j := Function.update_of_ne hj ..

@[simp] theorem pass_impl_succ {impl : QueueImpl T} {thread : Thread S} :
    (s.pass i impl thread).impl (i + 1) = impl := Function.update_self ..

theorem pass_impl_of_ne {impl : QueueImpl T} {thread : Thread S} {j : ℕ} (hj : j ≠ i + 1) :
    (s.pass i impl thread).impl j = s.impl j := Function.update_of_ne hj ..

@[simp] theorem pass_thread_self {impl : QueueImpl T} {thread : Thread S} :
    (s.pass i impl thread).thread i = thread := Function.update_self ..

@[simp] theorem pass_thread_succ {impl : QueueImpl T} {thread : Thread S} :
    (s.pass i impl thread).thread (i + 1) = (s.thread (i + 1)).notifyOne :=
  (Function.update_of_ne (Nat.succ_ne_self i) ..).trans (Function.update_self ..)

theorem pass_thread_of_ne {impl : QueueImpl T} {thread : Thread S} {j : ℕ} (hj : j ≠ i)
    (hjn : j ≠ i + 1) : (s.pass i impl thread).thread j = s.thread j :=
  (Function.update_of_ne hj ..).trans (Function.update_of_ne hjn ..)

/-! ### What comes out -/

/-- The calls of a function that pops the items `ts` and nothing behind them: `none` for a pop,
and for a push its item. -/
def Stage.calls (stage : Stage T S) (st : S) (ts : List T) : List (Option T) :=
  match _h : stage.action st with
  | .pop item ended =>
    match ts with
    | v :: rest => none :: stage.calls (item v) rest
    | [] => none :: stage.calls ended []
  | .push v st' => some v :: stage.calls st' ts
  | .ret => []
termination_by (ts.length, stage.fuel st)
decreasing_by
  · exact .left _ _ (Nat.lt_succ_self _)
  · exact .right _ (stage.fuel_ended _h)
  · exact .right _ (stage.fuel_push _h)

section Calls

variable {stage : Stage T S} {st st' ended : S} {item : T → S} {v : T} {ts : List T}

theorem calls_cons (h : stage.action st = .pop item ended) :
    stage.calls st (v :: ts) = none :: stage.calls (item v) ts := by
  rw [Stage.calls]
  split <;> simp_all

theorem calls_nil (h : stage.action st = .pop item ended) :
    stage.calls st [] = none :: stage.calls ended [] := by
  rw [Stage.calls]
  split <;> simp_all

theorem calls_push (h : stage.action st = .push v st') :
    stage.calls st ts = some v :: stage.calls st' ts := by
  rw [Stage.calls]
  split <;> simp_all

theorem calls_ret (h : stage.action st = .ret) : stage.calls st ts = [] := by
  rw [Stage.calls]
  split <;> simp_all

end Calls

/-- What a function pushes if it pops the items `ts`. -/
def Stage.output (stage : Stage T S) (st : S) (ts : List T) : List T :=
  (stage.calls st ts).reduceOption

/-- What a pipeline makes of its input. -/
def output (stages : List (Stage T S)) (input : List T) : List T :=
  stages.foldl (fun ts stage => stage.output stage.start ts) input

/-- The calls that a thread still makes, if it pops the items `ts`. -/
def Thread.calls (stage : Stage T S) : Thread S → List T → List (Option T)
  | .run st, ts | .waiting st, ts => stage.calls st ts
  | .done, _ => []

def Thread.output (stage : Stage T S) (thread : Thread S) (ts : List T) : List T :=
  (thread.calls stage ts).reduceOption

/-- What is still pushed into the `i`-th queue, if every stage goes on to its end. -/
def State.upstream (stages : List (Stage T S)) (s : State T S) : ℕ → List T
  | 0 => []
  | i + 1 => match stages[i]? with
    | some stage => (s.thread i).output stage ((s.impl i).queue ++ s.upstream stages i)
    | none => []

/-- What is still popped from the `i`-th queue. -/
def State.flush (stages : List (Stage T S)) (s : State T S) (i : ℕ) : List T :=
  (s.impl i).queue ++ s.upstream stages i

theorem upstream_succ {stage : Stage T S} (hstage : stages[i]? = some stage) :
    s.upstream stages (i + 1) = (s.thread i).output stage (s.flush stages i) := by
  simp only [State.upstream, hstage, State.flush]

theorem Thread.calls_notifyOne (stage : Stage T S) (thread : Thread S) (ts : List T) :
    thread.notifyOne.calls stage ts = thread.calls stage ts := by
  cases thread with
  | waiting st => rfl
  | _ => rfl

theorem flush_initial (stages : List (Stage T S)) (input : List T) {i : ℕ}
    (hi : i ≤ stages.length) :
    (State.initial stages input).flush stages i = output (stages.take i) input := by
  induction i with
  | zero => simp [State.flush, State.upstream, State.initial, output]
  | succ i ih =>
    have hstage : stages[i]? = some stages[i] := List.getElem?_eq_getElem hi
    have htake : stages.take (i + 1) = stages.take i ++ [stages[i]] := by
      rw [List.take_add_one, hstage, Option.toList_some]
    rw [State.flush, upstream_succ hstage, ih (Nat.le_of_succ_le hi), htake, output, output,
      List.foldl_append]
    simp [State.initial, hstage, Thread.output, Thread.calls, Stage.output]

/-- What comes into a queue depends on the stages before it only. -/
theorem upstream_congr (himpl : ∀ j < i, t.impl j = s.impl j)
    (hthread : ∀ j < i, ∀ (stage : Stage T S) ts,
      (t.thread j).output stage ts = (s.thread j).output stage ts) :
    t.upstream stages i = s.upstream stages i := by
  induction i with
  | zero => rfl
  | succ i ih =>
    rw [State.upstream, State.upstream, himpl i (Nat.lt_succ_self i),
      ih (fun j hj => himpl j (by omega)) fun j hj => hthread j (by omega)]
    cases stages[i]? with
    | none => rfl
    | some stage => simp only [hthread i (Nat.lt_succ_self i)]

/-- What is the same at a queue is the same at all that come behind it. -/
theorem flush_congr (hflush : t.flush stages i = s.flush stages i)
    (himpl : ∀ j > i, t.impl j = s.impl j)
    (hthread : ∀ j ≥ i, ∀ (stage : Stage T S) ts,
      (t.thread j).output stage ts = (s.thread j).output stage ts)
    {k : ℕ} (hk : i ≤ k) : t.flush stages k = s.flush stages k := by
  induction k, hk using Nat.le_induction with
  | base => exact hflush
  | succ k hk ih =>
    rw [State.flush, State.flush, himpl (k + 1) (by omega)]
    cases hstage : stages[k]? with
    | none => simp only [State.upstream, hstage]
    | some stage => rw [upstream_succ hstage, upstream_succ hstage, ih, hthread k hk]

/-! ### The invariant -/

/-- **What holds on the way.**  A queue is stopped by the stage before it, behind its last
push, and a consumer waits for an empty queue that is not stopped only. -/
structure Inv (stages : List (Stage T S)) (s : State T S) : Prop where
  input : (s.impl 0).stop_ = true
  stopped : ∀ i < stages.length, (s.impl (i + 1)).stop_ = true ↔ s.thread i = .done
  asleep : ∀ i st, s.thread i = .waiting st → s.impl i = ⟨[], false⟩
  outside : ∀ i ≥ stages.length, s.thread i = .done

theorem inv_initial (stages : List (Stage T S)) (input : List T) :
    Inv stages (.initial stages input) := by
  have hthread : ∀ i (hi : i < stages.length),
      (State.initial stages input).thread i = .run stages[i].start := by
    intro i hi
    simp only [State.initial, List.getElem?_eq_getElem hi]
  have houtside : ∀ i ≥ stages.length, (State.initial stages input).thread i = .done := by
    intro i hi
    simp only [State.initial, List.getElem?_eq_none hi]
  refine ⟨rfl, fun i hi => ?_, fun i st hst => ?_, houtside⟩
  · rw [hthread i hi]
    simp [State.initial]
  · rcases Nat.lt_or_ge i stages.length with hi | hi
    · exact absurd hst (by simp [hthread i hi])
    · exact absurd hst (by simp [houtside i hi])

theorem lt_length_of_getElem? {stage : Stage T S} (hstage : stages[i]? = some stage) :
    i < stages.length := (List.getElem?_eq_some_iff.mp hstage).1

theorem Thread.notifyOne_ne_waiting {thread : Thread S} {st : S} :
    thread.notifyOne ≠ .waiting st := by
  cases thread with
  | waiting st => exact nofun
  | _ => exact nofun

theorem Thread.notifyOne_eq_done {thread : Thread S} :
    thread.notifyOne = .done ↔ thread = .done := by
  cases thread with
  | waiting st => exact ⟨nofun, nofun⟩
  | _ => exact Iff.rfl

/-- A stage goes on alone. -/
theorem Inv.goto (h : Inv stages s) {impl : QueueImpl T} {thread : Thread S}
    (hrun : s.thread i ≠ .done) (hstop : impl.stop_ = (s.impl i).stop_) (hdone : thread ≠ .done)
    (hwait : ∀ st, thread = .waiting st → impl = ⟨[], false⟩) :
    Inv stages (s.goto i impl thread) := by
  have hstops : ∀ j, ((s.goto i impl thread).impl j).stop_ = (s.impl j).stop_ := by
    intro j
    rcases eq_or_ne j i with rfl | hji
    · rw [goto_impl_self, hstop]
    · rw [goto_impl_of_ne hji]
  refine ⟨(hstops 0).trans h.input, fun j hj => ?_, fun j st hst => ?_, fun j hj => ?_⟩
  · rw [hstops, h.stopped j hj]
    rcases eq_or_ne j i with rfl | hji
    · rw [goto_thread_self]
      exact ⟨fun hd => absurd hd hrun, fun hd => absurd hd hdone⟩
    · rw [goto_thread_of_ne hji]
  · rcases eq_or_ne j i with rfl | hji
    · rw [goto_thread_self] at hst
      rw [goto_impl_self]
      exact hwait st hst
    · rw [goto_thread_of_ne hji] at hst
      rw [goto_impl_of_ne hji]
      exact h.asleep j st hst
  · have hji : j ≠ i := by
      rintro rfl
      exact hrun (h.outside j hj)
    rw [goto_thread_of_ne hji]
    exact h.outside j hj

/-- A stage goes on and changes the queue behind it. -/
theorem Inv.pass (h : Inv stages s) {impl : QueueImpl T} {thread : Thread S}
    (hi : i < stages.length) (hstop : impl.stop_ = true ↔ thread = .done)
    (hthread : ∀ st, thread ≠ .waiting st) : Inv stages (s.pass i impl thread) := by
  refine ⟨?_, fun j hj => ?_, fun j st hst => ?_, fun j hj => ?_⟩
  · rw [pass_impl_of_ne (Nat.succ_ne_zero i).symm]
    exact h.input
  · rcases eq_or_ne j i with rfl | hji
    · rw [pass_impl_succ, pass_thread_self, hstop]
    · rw [pass_impl_of_ne (by omega), h.stopped j hj]
      rcases eq_or_ne j (i + 1) with rfl | hjn
      · rw [pass_thread_succ, Thread.notifyOne_eq_done]
      · rw [pass_thread_of_ne hji hjn]
  · rcases eq_or_ne j i with rfl | hji
    · rw [pass_thread_self] at hst
      exact absurd hst (hthread st)
    · rcases eq_or_ne j (i + 1) with rfl | hjn
      · rw [pass_thread_succ] at hst
        exact absurd hst Thread.notifyOne_ne_waiting
      · rw [pass_thread_of_ne hji hjn] at hst
        rw [pass_impl_of_ne hjn]
        exact h.asleep j st hst
  · have hji : j ≠ i := by omega
    rcases eq_or_ne j (i + 1) with rfl | hjn
    · rw [pass_thread_succ, Thread.notifyOne_eq_done]
      exact h.outside _ hj
    · rw [pass_thread_of_ne hji hjn]
      exact h.outside j hj

theorem Inv.steps (h : Inv stages s) (ht : Steps stages s i t) : Inv stages t := by
  cases ht with
  | item hstage hrun hpop hqueue => exact h.goto (by simp [hrun]) rfl nofun nofun
  | ended hstage hrun hpop hqueue hstop => exact h.goto (by simp [hrun]) rfl nofun nofun
  | wait hstage hrun hqueue hstop =>
    refine h.goto (by simp [hrun]) rfl nofun fun _ _ => ?_
    rw [← hqueue, ← hstop]
  | push hstage hrun hpush =>
    have hi := lt_length_of_getElem? hstage
    have hopen := h.stopped i hi
    rw [hrun] at hopen
    exact h.pass hi (hopen.trans ⟨nofun, nofun⟩) nofun
  | ret hstage hrun hret =>
    exact h.pass (lt_length_of_getElem? hstage) ⟨fun _ => rfl, fun _ => rfl⟩ nofun

theorem Inv.wake (h : Inv stages s) {st : S} (hst : s.thread i = .waiting st) :
    Inv stages (s.goto i (s.impl i) (.run st)) :=
  h.goto (by simp [hst]) rfl nofun nofun

/-! ### No step changes what comes out -/

theorem Inv.flush_eq_nil (h : Inv stages s) (hqueue : (s.impl i).queue = [])
    (hstop : (s.impl i).stop_ = true) (hi : i ≤ stages.length) : s.flush stages i = [] := by
  cases i with
  | zero => rw [State.flush, hqueue, State.upstream, List.append_nil]
  | succ i =>
    have hdone := (h.stopped i hi).mp hstop
    rw [State.flush, hqueue, List.nil_append, upstream_succ (List.getElem?_eq_getElem hi), hdone]
    rfl

theorem upstream_goto {impl : QueueImpl T} {thread : Thread S} :
    (s.goto i impl thread).upstream stages i = s.upstream stages i :=
  upstream_congr (fun _ hj => goto_impl_of_ne (Nat.ne_of_lt hj)) fun j hj stage ts => by
    rw [goto_thread_of_ne (Nat.ne_of_lt hj)]

theorem upstream_pass {impl : QueueImpl T} {thread : Thread S} :
    (s.pass i impl thread).upstream stages i = s.upstream stages i :=
  upstream_congr (fun j hj => pass_impl_of_ne (by omega)) fun j hj stage ts => by
    rw [pass_thread_of_ne (by omega) (by omega)]

/-- A stage that goes on alone changes nothing behind it if it pushes the same in the end. -/
theorem flush_goto {stage : Stage T S} {impl : QueueImpl T} {thread : Thread S}
    (hstage : stages[i]? = some stage)
    (hout : thread.output stage (impl.queue ++ s.upstream stages i) =
      (s.thread i).output stage (s.flush stages i)) {k : ℕ} (hk : i < k) :
    (s.goto i impl thread).flush stages k = s.flush stages k := by
  refine flush_congr (i := i + 1) ?_ (fun j hj => goto_impl_of_ne (by omega))
    (fun j hj stage ts => by rw [goto_thread_of_ne (by omega)]) hk
  rw [State.flush, State.flush, goto_impl_of_ne (Nat.succ_ne_self i), upstream_succ hstage,
    upstream_succ hstage, goto_thread_self, State.flush, goto_impl_self, upstream_goto, hout]

theorem flush_pass {stage : Stage T S} {impl : QueueImpl T} {thread : Thread S}
    (hstage : stages[i]? = some stage)
    (hout : impl.queue ++ thread.output stage (s.flush stages i) =
      (s.impl (i + 1)).queue ++ (s.thread i).output stage (s.flush stages i)) {k : ℕ} (hk : i < k) :
    (s.pass i impl thread).flush stages k = s.flush stages k := by
  have hflush : (s.pass i impl thread).flush stages i = s.flush stages i := by
    rw [State.flush, State.flush, pass_impl_of_ne (Nat.succ_ne_self i).symm, upstream_pass]
  refine flush_congr (i := i + 1) ?_ (fun j hj => pass_impl_of_ne (by omega))
    (fun j hj stage ts => ?_) hk
  · rw [State.flush, State.flush, pass_impl_succ, upstream_succ hstage, upstream_succ hstage,
      pass_thread_self, hflush, hout]
  · rcases eq_or_ne j (i + 1) with rfl | hjn
    · rw [pass_thread_succ, Thread.output, Thread.calls_notifyOne, Thread.output]
    · rw [pass_thread_of_ne (by omega) hjn]

/-- **No step changes what comes out** of a queue behind the stage. -/
theorem Inv.flush_steps (h : Inv stages s) (ht : Steps stages s i t) {k : ℕ} (hk : i < k) :
    t.flush stages k = s.flush stages k := by
  cases ht with
  | @item stage st item ended v rest hstage hrun hpop hqueue =>
    refine flush_goto hstage ?_ hk
    rw [hrun, State.flush, hqueue, List.cons_append, Thread.output, Thread.output, Thread.calls,
      Thread.calls, calls_cons hpop, List.reduceOption_cons_of_none]
  | ended hstage hrun hpop hqueue hstop =>
    refine flush_goto hstage ?_ hk
    have hnil := h.flush_eq_nil hqueue hstop (Nat.le_of_lt (lt_length_of_getElem? hstage))
    rw [hrun, ← State.flush, hnil, Thread.output, Thread.output, Thread.calls, Thread.calls,
      calls_nil hpop, List.reduceOption_cons_of_none]
  | wait hstage hrun hqueue hstop =>
    refine flush_goto hstage ?_ hk
    rw [hrun]
    rfl
  | push hstage hrun hpush =>
    refine flush_pass hstage ?_ hk
    rw [hrun, Thread.output, Thread.output, Thread.calls, Thread.calls, calls_push hpush,
      List.reduceOption_cons_of_some, QueueImpl.push, List.append_assoc]
    rfl
  | ret hstage hrun hret =>
    refine flush_pass hstage ?_ hk
    rw [hrun, Thread.output, Thread.output, Thread.calls, Thread.calls, calls_ret hret,
      QueueImpl.queue_stop]

theorem flush_wake {st : S} (hst : s.thread i = .waiting st) {k : ℕ} :
    (s.goto i (s.impl i) (.run st)).flush stages k = s.flush stages k := by
  have himpl : ∀ j, (s.goto i (s.impl i) (.run st)).impl j = s.impl j := fun j => by
    rcases eq_or_ne j i with rfl | hji
    · rw [goto_impl_self]
    · rw [goto_impl_of_ne hji]
  rw [State.flush, State.flush, himpl, upstream_congr (fun j _ => himpl j) fun j _ stage ts => ?_]
  rcases eq_or_ne j i with rfl | hji
  · rw [goto_thread_self, hst]
    rfl
  · rw [goto_thread_of_ne hji]

/-! ### Whole runs -/

theorem Inv.next (h : Inv stages s) {l : Label} (ht : s.next stages l = some t) : Inv stages t := by
  cases l with
  | step i => exact h.steps (steps_of_next ht)
  | wake i =>
    obtain ⟨st, hst, rfl⟩ := wake_of_next ht
    exact h.wake hst

theorem inv_of_reachable (h : (system stages input).Reachable s) : Inv stages s :=
  h.invariant (fun _ hs => hs ▸ inv_initial stages input) fun _ _ _ _ hs ht => hs.next ht

theorem flush_of_reachable (h : (system stages input).Reachable s) :
    s.flush stages stages.length = output stages input := by
  refine h.invariant (P := fun s => s.flush stages stages.length = output stages input) ?_ ?_
  · rintro s rfl
    rw [flush_initial stages input le_rfl, List.take_length]
  · intro s l t hs hflush ht
    have hinv := inv_of_reachable hs
    cases l with
    | step i =>
      have ht := steps_of_next ht
      have hi : i < stages.length := by
        cases ht <;> exact lt_length_of_getElem? ‹_›
      rw [hinv.flush_steps ht hi, hflush]
    | wake i =>
      obtain ⟨st, hst, rfl⟩ := wake_of_next ht
      rw [flush_wake hst, hflush]

/-- How far a thread is from its end, its calls left aside. -/
def Thread.weight : Thread S → ℕ
  | .run _ => 2
  | .waiting _ => 1
  | .done => 0

/-- What is left to do for the `i`-th stage: its calls, each of which may wake the consumer. -/
def State.work (stages : List (Stage T S)) (s : State T S) (i : ℕ) : ℕ :=
  match stages[i]? with
  | some stage => 2 * ((s.thread i).calls stage (s.flush stages i)).length + (s.thread i).weight
  | none => 0

theorem work_eq {stage : Stage T S} (hstage : stages[i]? = some stage) : s.work stages i =
    2 * ((s.thread i).calls stage (s.flush stages i)).length + (s.thread i).weight := by
  simp only [State.work, hstage]

theorem Thread.weight_notifyOne (thread : Thread S) :
    thread.notifyOne.weight ≤ thread.weight + 1 := by
  cases thread with
  | waiting st => exact le_rfl
  | _ => exact Nat.le_succ _

theorem Steps.lt_length (ht : Steps stages s i t) : i < stages.length := by
  cases ht <;> exact lt_length_of_getElem? ‹_›

theorem Steps.impl_of_ne (ht : Steps stages s i t) {j : ℕ} (hj : j ≠ i) (hjn : j ≠ i + 1) :
    t.impl j = s.impl j := by
  cases ht with
  | item _ _ _ _ | ended _ _ _ _ _ | wait _ _ _ _ => exact goto_impl_of_ne hj
  | push _ _ _ | ret _ _ _ => exact pass_impl_of_ne hjn

theorem Steps.thread_of_ne (ht : Steps stages s i t) {j : ℕ} (hj : j ≠ i) (hjn : j ≠ i + 1) :
    t.thread j = s.thread j := by
  cases ht with
  | item _ _ _ _ | ended _ _ _ _ _ | wait _ _ _ _ => exact goto_thread_of_ne hj
  | push _ _ _ | ret _ _ _ => exact pass_thread_of_ne hj hjn

theorem Steps.upstream_of_le (ht : Steps stages s i t) {j : ℕ} (hj : j ≤ i) :
    t.upstream stages j = s.upstream stages j :=
  upstream_congr (fun k hk => ht.impl_of_ne (by omega) (by omega)) fun k hk stage ts => by
    rw [ht.thread_of_ne (by omega) (by omega)]

theorem Inv.flush_of_ne (h : Inv stages s) (ht : Steps stages s i t) {j : ℕ} (hj : j ≠ i) :
    t.flush stages j = s.flush stages j := by
  rcases Nat.lt_or_gt_of_ne hj with hlt | hgt
  · rw [State.flush, State.flush, ht.impl_of_ne hj (by omega),
      ht.upstream_of_le (Nat.le_of_lt hlt)]
  · exact h.flush_steps ht hgt

theorem Inv.work_of_ne (h : Inv stages s) (ht : Steps stages s i t) {j : ℕ} (hj : j ≠ i)
    (hjn : j ≠ i + 1) : t.work stages j = s.work stages j := by
  rw [State.work, State.work, ht.thread_of_ne hj hjn, h.flush_of_ne ht hj]

theorem work_goto {impl : QueueImpl T} {thread : Thread S}
    (hflush : (s.goto i impl thread).flush stages (i + 1) = s.flush stages (i + 1)) :
    (s.goto i impl thread).work stages (i + 1) = s.work stages (i + 1) := by
  rw [State.work, State.work, hflush, goto_thread_of_ne (Nat.succ_ne_self i)]

/-- A wake-up is one more step for the stage behind. -/
theorem work_pass {impl : QueueImpl T} {thread : Thread S}
    (hflush : (s.pass i impl thread).flush stages (i + 1) = s.flush stages (i + 1)) :
    (s.pass i impl thread).work stages (i + 1) ≤ s.work stages (i + 1) + 1 := by
  rw [State.work, State.work, hflush, pass_thread_succ]
  cases stages[i + 1]? with
  | some stage =>
    have hwake := Thread.weight_notifyOne (s.thread (i + 1))
    simp only [Thread.calls_notifyOne]
    omega
  | none => exact Nat.zero_le _

/-- What a step of a stage uses up is more than the work that it makes by a wake-up. -/
theorem Inv.work_step (h : Inv stages s) (ht : Steps stages s i t) :
    ∃ c, t.work stages i + (c + 1) ≤ s.work stages i ∧
      t.work stages (i + 1) ≤ s.work stages (i + 1) + c := by
  have hsucc := h.flush_of_ne ht (Nat.succ_ne_self i)
  have hself : t.flush stages i = (t.impl i).queue ++ s.upstream stages i := by
    rw [State.flush, ht.upstream_of_le le_rfl]
  cases ht with
  | @item stage st item ended v rest hstage hrun hpop hqueue =>
    rw [goto_impl_self] at hself
    refine ⟨0, ?_, (work_goto hsucc).le⟩
    rw [work_eq hstage, work_eq hstage, hself, goto_thread_self, hrun, State.flush, hqueue,
      List.cons_append]
    simp only [Thread.calls, calls_cons hpop, Thread.weight, List.length_cons]
    omega
  | ended hstage hrun hpop hqueue hstop =>
    have hnil := h.flush_eq_nil hqueue hstop (Nat.le_of_lt (lt_length_of_getElem? hstage))
    rw [goto_impl_self, ← State.flush, hnil] at hself
    refine ⟨0, ?_, (work_goto hsucc).le⟩
    rw [work_eq hstage, work_eq hstage, hself, goto_thread_self, hrun, hnil]
    simp only [Thread.calls, calls_nil hpop, Thread.weight, List.length_cons]
    omega
  | wait hstage hrun hqueue hstop =>
    rw [goto_impl_self, ← State.flush] at hself
    refine ⟨0, ?_, (work_goto hsucc).le⟩
    rw [work_eq hstage, work_eq hstage, hself, goto_thread_self, hrun]
    exact le_rfl
  | push hstage hrun hpush =>
    rw [pass_impl_of_ne (Nat.succ_ne_self i).symm, ← State.flush] at hself
    refine ⟨1, ?_, work_pass hsucc⟩
    rw [work_eq hstage, work_eq hstage, hself, pass_thread_self, hrun]
    simp only [Thread.calls, calls_push hpush, Thread.weight, List.length_cons]
    omega
  | ret hstage hrun hret =>
    rw [pass_impl_of_ne (Nat.succ_ne_self i).symm, ← State.flush] at hself
    refine ⟨1, ?_, work_pass hsucc⟩
    rw [work_eq hstage, work_eq hstage, hself, pass_thread_self, hrun]
    simp only [Thread.calls, calls_ret hret, Thread.weight, List.length_nil]
    exact le_rfl

/-- The work that is left in all. -/
def State.allWork (stages : List (Stage T S)) (s : State T S) : ℕ :=
  ∑ j ∈ Finset.range stages.length, s.work stages j

theorem Inv.allWork_lt (h : Inv stages s) (ht : Steps stages s i t) :
    t.allWork stages < s.allWork stages := by
  obtain ⟨c, hself, hsucc⟩ := h.work_step ht
  have hsum : ∑ j ∈ Finset.range stages.length, (t.work stages j + if j = i then c + 1 else 0) ≤
      ∑ j ∈ Finset.range stages.length, (s.work stages j + if j = i + 1 then c else 0) := by
    refine Finset.sum_le_sum fun j _ => ?_
    rcases eq_or_ne j i with rfl | hji
    · simpa using hself
    · rcases eq_or_ne j (i + 1) with rfl | hjn
      · simpa using hsucc
      · simp [hji, hjn, h.work_of_ne ht hji hjn]
  simp only [Finset.sum_add_distrib, Finset.sum_ite_eq', Finset.mem_range, ht.lt_length,
    if_true] at hsum
  rw [State.allWork, State.allWork]
  split at hsum <;> omega

theorem allWork_wake (stages : List (Stage T S)) {st : S} (hst : s.thread i = .waiting st) :
    (s.goto i (s.impl i) (.run st)).allWork stages ≤ s.allWork stages + 1 := by
  have hle : ∀ j, (s.goto i (s.impl i) (.run st)).work stages j ≤
      s.work stages j + if j = i then 1 else 0 := by
    intro j
    rw [State.work, State.work, flush_wake hst]
    rcases eq_or_ne j i with rfl | hji
    · rw [goto_thread_self, hst, if_pos rfl]
      cases stages[j]? with
      | some stage => exact le_rfl
      | none => exact Nat.zero_le _
    · rw [goto_thread_of_ne hji, if_neg hji, Nat.add_zero]
  have hsum := Finset.sum_le_sum fun j (_ : j ∈ Finset.range stages.length) => hle j
  rw [Finset.sum_add_distrib, Finset.sum_ite_eq'] at hsum
  rw [State.allWork, State.allWork]
  split at hsum <;> omega

def Label.isWake : Label → Bool
  | .wake _ => true
  | .step _ => false

theorem allWork_step (h : Inv stages s) {l : Label} (ht : s.next stages l = some t) :
    if l.isWake = true then t.allWork stages ≤ s.allWork stages + 1
    else t.allWork stages < s.allWork stages := by
  cases l with
  | step i => exact h.allWork_lt (steps_of_next ht)
  | wake i =>
    obtain ⟨st, hst, rfl⟩ := wake_of_next ht
    exact allWork_wake stages hst

/-- The system without the spurious wake-ups, on which nobody may rely. -/
def unaided (stages : List (Stage T S)) (input : List T) : System (State T S) Label :=
  (system stages input).restrict fun _ l => ∀ i, l ≠ .wake i

theorem exists_step (hi : i < stages.length) (hdone : s.thread i ≠ .done)
    (hwait : ∀ st, s.thread i ≠ .waiting st) : ∃ t, s.next stages (.step i) = some t := by
  rw [← Option.isSome_iff_exists]
  have hstage := List.getElem?_eq_getElem hi
  cases hrun : s.thread i with
  | run st =>
    simp only [State.next, hstage, hrun]
    split
    · split <;> rfl
    · rfl
    · rfl
  | waiting st => exact absurd hrun (hwait st)
  | done => exact absurd hrun hdone

/-- **No wake-up is lost**: where no stage can go on, all have ended. -/
theorem Inv.done_of_stuck (h : Inv stages s) (hstuck : (unaided stages input).Stuck s) {i : ℕ}
    (hi : i < stages.length) : s.thread i = .done := by
  have hcases : ∀ j < stages.length, s.thread j = .done ∨ s.impl j = ⟨[], false⟩ := by
    intro j hj
    by_contra hne
    obtain ⟨hdone, hopen⟩ := not_or.mp hne
    obtain ⟨t, ht⟩ := exists_step hj hdone fun st hst => hopen (h.asleep j st hst)
    exact hstuck (.step j) t ⟨ht, nofun⟩
  -- a stage waits for the one before it only
  induction i with
  | zero =>
    refine (hcases 0 hi).resolve_right fun hopen => ?_
    exact absurd (congrArg QueueImpl.stop_ hopen) (by simp [h.input])
  | succ i ih =>
    have hstop := (h.stopped i (Nat.lt_of_succ_lt hi)).mpr (ih (Nat.lt_of_succ_lt hi))
    refine (hcases (i + 1) hi).resolve_right fun hopen => ?_
    exact absurd (congrArg QueueImpl.stop_ hopen) (by simp [hstop])

theorem Inv.upstream_of_stop (h : Inv stages s) (hi : i ≤ stages.length)
    (hstop : (s.impl i).stop_ = true) : s.upstream stages i = [] := by
  cases i with
  | zero => rfl
  | succ i =>
    rw [upstream_succ (List.getElem?_eq_getElem hi), (h.stopped i hi).mp hstop]
    rfl

theorem prefix_of_reachable (h : (system stages input).Reachable s) :
    (s.impl stages.length).queue <+: output stages input :=
  ⟨s.upstream stages stages.length, flush_of_reachable h⟩

theorem eq_of_stop (h : (system stages input).Reachable s)
    (hstop : (s.impl stages.length).stop_ = true) :
    (s.impl stages.length).queue = output stages input := by
  rw [← flush_of_reachable h, State.flush,
    (inv_of_reachable h).upstream_of_stop le_rfl hstop, List.append_nil]

theorem stop_of_stuck (h : (system stages input).Reachable s)
    (hstuck : (unaided stages input).Stuck s) : (s.impl stages.length).stop_ = true := by
  have hinv := inv_of_reachable h
  rcases Nat.eq_zero_or_pos stages.length with hzero | hpos
  · rw [hzero]
    exact hinv.input
  · have hlast := hinv.done_of_stuck hstuck (Nat.sub_one_lt_of_lt hpos)
    have hstop := (hinv.stopped _ (Nat.sub_one_lt_of_lt hpos)).mpr hlast
    rwa [Nat.sub_add_cancel hpos] at hstop

/-- A run has no more steps than there is work, up to spurious wake-ups. -/
theorem length_le_of_run {ls : List Label}
    (h : (system stages input).Run (.initial stages input) ls s) :
    ls.length ≤ (State.initial stages input).allWork stages + 2 * ls.countP Label.isWake := by
  have hbound := (h.length_le (P := Inv stages) (State.allWork stages) Label.isWake
    (fun _ _ _ hs ht => ⟨hs.next ht, allWork_step hs ht⟩)
    (inv_of_reachable (.of_init rfl))).2
  omega

/-- **A pipeline prints what its stages make of the input, whatever the order of steps.**  What
is printed is at any time a part of it from the start on, and all of it when the future is
ready; where no thread can go on, the future is ready; and there is a bound on the number of
steps, up to spurious wake-ups. -/
theorem pipeline_output (stages : List (Stage T S)) (input : List T) :
    (∀ s, (system stages input).Reachable s →
      (s.impl stages.length).queue <+: output stages input ∧
      ((s.impl stages.length).stop_ = true →
        (s.impl stages.length).queue = output stages input) ∧
      ((unaided stages input).Stuck s → (s.impl stages.length).stop_ = true)) ∧
    ∃ bound, ∀ s ls, (system stages input).Run (.initial stages input) ls s →
      ls.length ≤ bound + 2 * ls.countP Label.isWake :=
  ⟨fun _ hs => ⟨prefix_of_reachable hs, eq_of_stop hs, stop_of_stuck hs⟩,
    _, fun _ _ hrun => length_le_of_run hrun⟩

/-! ### The program -/

/-- What a loop over `in.pop` makes of the items `ts`. -/
def loopOutput (body : S → T → S × List T) : S → List T → List T
  | _, [] => []
  | s, v :: ts => (body s v).2 ++ loopOutput body (body s v).1 ts

theorem output_loop (start : S) (body : S → T → S × List T) (st : S) (out ts : List T) :
    (Stage.loop start body).output (.body st out) ts = out ++ loopOutput body st ts := by
  induction ts generalizing st out with
  | nil =>
    induction out with
    | nil => rw [Stage.output, calls_nil rfl, calls_ret rfl]; rfl
    | cons v out ih =>
      rw [Stage.output, calls_push rfl, List.reduceOption_cons_of_some, ← Stage.output, ih]
      rfl
  | cons v ts ih =>
    induction out with
    | nil =>
      rw [Stage.output, calls_cons rfl, List.reduceOption_cons_of_none, ← Stage.output, ih]
      rfl
    | cons w out ihout =>
      rw [Stage.output, calls_push rfl, List.reduceOption_cons_of_some, ← Stage.output, ihout]
      rfl

theorem output_start (start : S) (body : S → T → S × List T) (ts : List T) :
    (Stage.loop start body).output (Stage.loop start body).start ts = loopOutput body start ts :=
  output_loop start body start [] ts

theorem output_reader (lines : List Line) : reader.output reader.start lines = lines := by
  rw [reader, output_start]
  induction lines with
  | nil => rfl
  | cons line lines ih => exact congrArg (line :: ·) ih

theorem output_filter (lines : List Line) :
    filter.output filter.start lines = lines.filter (·.length > 5) := by
  rw [filter, output_start]
  induction lines with
  | nil => rfl
  | cons line lines ih =>
    rw [loopOutput, ih, List.filter_cons]
    dsimp only
    split <;> simp [*]

theorem output_upper (lines : List Line) :
    upper.output upper.start lines = lines.map (·.map toupper) := by
  rw [upper, output_start]
  induction lines with
  | nil => rfl
  | cons line lines ih => exact congrArg (line.map toupper :: ·) ih

theorem output_writer (lines : List Line) : writer.output writer.start lines =
    lines.zipIdx.map fun p => numbered (p.2 % 2 ^ 64) p.1 := by
  have hloop : ∀ n, loopOutput (fun count line => ((count + 1) % 2 ^ 64, [numbered count line]))
      (n % 2 ^ 64) lines = (lines.zipIdx n).map fun p => numbered (p.2 % 2 ^ 64) p.1 := by
    induction lines with
    | nil => exact fun n => rfl
    | cons line lines ih =>
      intro n
      rw [loopOutput, Nat.mod_add_mod, ih (n + 1), List.zipIdx_cons, List.map_cons]
      rfl
  rw [writer, output_start]
  exact hloop 0

/-- What the program prints. -/
def printed (input : List Line) : List Line :=
  (((input.filter (·.length > 5)).map (·.map toupper)).zipIdx).map fun p =>
    numbered (p.2 % 2 ^ 64) p.1

theorem output_main (input : List Line) :
    output [reader, filter, upper, writer] input = printed input := by
  simp only [output, List.foldl_cons, List.foldl_nil, output_reader, output_filter, output_upper,
    output_writer, printed]

/-- **The program prints its long lines in capitals, numbered and in order**, whatever the order
in which its four threads take their steps: at any time the first of them, and all of them when
`main` returns.  It returns: no thread waits for ever, and the steps are bounded. -/
theorem main_prints (input : List Line) :
    (∀ s, (main input).Reachable s →
      (s.impl 4).queue <+: printed input ∧
      ((s.impl 4).stop_ = true → (s.impl 4).queue = printed input) ∧
      ((unaided [reader, filter, upper, writer] input).Stuck s → (s.impl 4).stop_ = true)) ∧
    ∃ bound, ∀ s ls, (main input).Run (.initial [reader, filter, upper, writer] input) ls s →
      ls.length ≤ bound + 2 * ls.countP Label.isWake := by
  refine ⟨fun s hs => ?_, _, fun _ _ hrun => length_le_of_run hrun⟩
  rw [← output_main]
  exact ⟨prefix_of_reachable hs, eq_of_stop hs, stop_of_stuck hs⟩

example : printed [bytes "short".toList, bytes "pipeline".toList] =
    [bytes "0: PIPELINE".toList] := by decide

end CppProgramming.Executors.Pipeline
