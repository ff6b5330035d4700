import CppProgramming.Lib.Transition
import Mathlib.Algebra.BigOperators.Group.List.Basic
import Mathlib.Algebra.GroupWithZero.Nat
import Mathlib.Data.Fintype.Basic
import Mathlib.Data.List.Nodup
import Mathlib.Order.Lattice

/-!
# A scheduler with priorities

Threads that call `run` take functions out of a priority queue, into which any code may put
them at any time.  What clients and functions do is a parameter: `act` says what their code does
next.  Which of several functions of the same priority is on top is up to the heap.
-/

namespace CppProgramming.Executors.PriorityScheduler

open CppProgramming.Lib

/-- What a piece of code does next. -/
inductive Action (K : Type)
  /-- `get_executor(priority).execute(f)` -/
  | execute (priority : ℤ) (f k : K)
  | stop (k : K)
  | print (text : String) (k : K)
  | ret

/-- A function in the queue; `id` tells it from all others. -/
structure Item (K : Type) where
  id : ℕ
  priority_ : ℤ
  function_ : K
  deriving DecidableEq

/-- What happens to the scheduler. -/
inductive Event (K : Type)
  | given (p : Item K)
  | started (p : Item K)
  | stopped

/-- Where a thread is: in the code of a client, in `run`, or at its end. -/
inductive Thread (K : Type)
  | client (k : K)
  | loop
  | waiting
  | func (k : K)
  | done

variable {P K : Type} [DecidableEq P] [Fintype P] [DecidableEq K]

namespace Thread

def code : Thread K → Option K
  | client k | func k => some k
  | loop | waiting | done => none

def isWaiting : Thread K → Bool
  | waiting => true
  | client _ | loop | func _ | done => false

def goto (k : K) : Thread K → Thread K
  | client _ => client k
  | func _ => func k
  | loop => loop
  | waiting => waiting
  | done => done

/-- Its code returns: a client may call `run`, and a function was called by `run`. -/
def ret (runs : Bool) : Thread K → Thread K
  | client _ => if runs then loop else done
  | func _ => loop
  | loop => loop
  | waiting => waiting
  | done => done

/-- A notification ends a wait. -/
def notify : Thread K → Thread K
  | waiting => loop
  | client k => client k
  | loop => loop
  | func k => func k
  | done => done

end Thread

/-- `log` and `output` only grow. -/
structure State (P K : Type) where
  thread : P → Thread K
  queue_ : List (Item K)
  stopped_ : Bool
  next_id : ℕ
  log : List (Event K)
  output : List String

inductive Label (P K : Type)
  /-- A step of some code; `woken` is who is woken by its `notify_one`. -/
  | code (t : P) (woken : Option P)
  /-- A turn of the loop of `run`; `top` is what the queue has on top. -/
  | loop (t : P) (top : Option (Item K))
  /-- A spurious wake-up. -/
  | wake (t : P)

def Label.isWake : Label P K → Bool
  | wake _ => true
  | code .. | loop .. => false

namespace State

def goto (s : State P K) (t : P) (th : Thread K) : State P K :=
  { s with thread := Function.update s.thread t th }

def push (s : State P K) (priority : ℤ) (f : K) : State P K := { s with
  queue_ := ⟨s.next_id, priority, f⟩ :: s.queue_
  next_id := s.next_id + 1
  log := s.log ++ [.given ⟨s.next_id, priority, f⟩] }

def notifyOne (s : State P K) (woken : Option P) : Option (State P K) :=
  match woken with
  | some q => if (s.thread q).isWaiting = true then some (s.goto q .loop) else none
  | none => if ∀ q, (s.thread q).isWaiting = false then some s else none

/-- `stop`, with its `notify_all` -/
def stop (s : State P K) : State P K := { s with
  thread := fun q => (s.thread q).notify
  stopped_ := true
  log := s.log ++ [.stopped] }

/-- What the queue may have on top. -/
def IsTop (s : State P K) (p : Item K) : Prop :=
  p ∈ s.queue_ ∧ ∀ q ∈ s.queue_, q.priority_ ≤ p.priority_

instance instDecidableIsTop (s : State P K) (p : Item K) : Decidable (s.IsTop p) :=
  inferInstanceAs (Decidable (_ ∧ _))

def pop (s : State P K) (p : Item K) : State P K := { s with
  queue_ := s.queue_.erase p
  log := s.log ++ [.started p] }

/-- One turn of the loop of `run`. -/
def turn (s : State P K) (t : P) (top : Option (Item K)) : Option (State P K) :=
  if s.stopped_ = true then some (s.goto t .done)
  else if s.queue_ = [] then some (s.goto t .waiting)
  else top.bind fun p => if s.IsTop p then some ((s.pop p).goto t (.func p.function_)) else none

/-- The code `k` of a thread takes a step. -/
def exec (act : K → Action K) (runs : P → Bool) (s : State P K) (t : P) (k : K)
    (woken : Option P) : Option (State P K) :=
  match act k with
  | .execute priority f k' =>
    ((s.push priority f).notifyOne woken).map fun s' => s'.goto t ((s.thread t).goto k')
  | .stop k' => some (s.stop.goto t ((s.thread t).goto k'))
  | .print text k' => some ({ s with output := s.output ++ [text] }.goto t ((s.thread t).goto k'))
  | .ret => some (s.goto t ((s.thread t).ret (runs t)))

def next (act : K → Action K) (runs : P → Bool) (s : State P K) : Label P K → Option (State P K)
  | .code t woken => (s.thread t).code.bind fun k => s.exec act runs t k woken
  | .loop t top =>
    match s.thread t with
    | .loop => s.turn t top
    | .client _ | .waiting | .func _ | .done => none
  | .wake t => if (s.thread t).isWaiting = true then some (s.goto t .loop) else none

/-- Every thread starts with the code of a client. -/
def initial (main : P → K) : State P K where
  thread t := .client (main t)
  queue_ := []
  stopped_ := false
  next_id := 0
  log := []
  output := []

end State

def system (act : K → Action K) (runs : P → Bool) (main : P → K) :
    System (State P K) (Label P K) :=
  .ofStep (· = .initial main) (State.next act runs)

/-- The same without spurious wake-ups. -/
def unaided (act : K → Action K) (runs : P → Bool) (main : P → K) :
    System (State P K) (Label P K) :=
  (system act runs main).restrict fun _ l => l.isWake = false

variable {act : K → Action K} {runs : P → Bool} {main : P → K} {s s' : State P K} {l : Label P K}
  {t q : P} {k k' : K} {p : Item K}

/-! ### What a step can do -/

inductive Steps (act : K → Action K) (runs : P → Bool) (s : State P K) :
    Label P K → State P K → Prop
  | execute {t q : P} {k f k' : K} {priority : ℤ} (hcode : (s.thread t).code = some k)
      (hact : act k = .execute priority f k') (hwait : s.thread q = .waiting) :
      Steps act runs s (.code t (some q))
        (((s.push priority f).goto q .loop).goto t ((s.thread t).goto k'))
  | executeAlone {t : P} {k f k' : K} {priority : ℤ} (hcode : (s.thread t).code = some k)
      (hact : act k = .execute priority f k') (hnone : ∀ q, s.thread q ≠ .waiting) :
      Steps act runs s (.code t none) ((s.push priority f).goto t ((s.thread t).goto k'))
  | stop {t : P} {woken : Option P} {k k' : K} (hcode : (s.thread t).code = some k)
      (hact : act k = .stop k') :
      Steps act runs s (.code t woken) (s.stop.goto t ((s.thread t).goto k'))
  | print {t : P} {woken : Option P} {k k' : K} {text : String}
      (hcode : (s.thread t).code = some k) (hact : act k = .print text k') :
      Steps act runs s (.code t woken)
        ({ s with output := s.output ++ [text] }.goto t ((s.thread t).goto k'))
  | ret {t : P} {woken : Option P} {k : K} (hcode : (s.thread t).code = some k)
      (hact : act k = .ret) :
      Steps act runs s (.code t woken) (s.goto t ((s.thread t).ret (runs t)))
  | exit {t : P} {top : Option (Item K)} (hloop : s.thread t = .loop) (hstop : s.stopped_ = true) :
      Steps act runs s (.loop t top) (s.goto t .done)
  | sleep {t : P} {top : Option (Item K)} (hloop : s.thread t = .loop)
      (hgoes : s.stopped_ = false) (hnil : s.queue_ = []) :
      Steps act runs s (.loop t top) (s.goto t .waiting)
  | start {t : P} {p : Item K} (hloop : s.thread t = .loop) (hgoes : s.stopped_ = false)
      (htop : s.IsTop p) :
      Steps act runs s (.loop t (some p)) ((s.pop p).goto t (.func p.function_))
  | wake {t : P} (hwait : s.thread t = .waiting) : Steps act runs s (.wake t) (s.goto t .loop)

omit [DecidableEq K] in
theorem isWaiting_iff {th : Thread K} : th.isWaiting = true ↔ th = .waiting := by
  cases th <;> simp [Thread.isWaiting]

theorem steps_of_next (h : s.next act runs l = some s') : Steps act runs s l s' := by
  cases l with
  | code t woken =>
    obtain ⟨k, hcode, hexec⟩ := Option.bind_eq_some_iff.mp h
    rw [State.exec] at hexec
    cases hact : act k with
    | execute priority f k' =>
      rw [hact] at hexec
      obtain ⟨u, hu, rfl⟩ := Option.map_eq_some_iff.mp hexec
      cases woken with
      | some q =>
        simp only [State.notifyOne] at hu
        obtain ⟨hwait, hu⟩ := Option.ite_none_right_eq_some.mp hu
        obtain rfl := Option.some.inj hu
        exact .execute hcode hact (isWaiting_iff.mp hwait)
      | none =>
        simp only [State.notifyOne] at hu
        obtain ⟨hnone, hu⟩ := Option.ite_none_right_eq_some.mp hu
        obtain rfl := Option.some.inj hu
        exact .executeAlone hcode hact fun q hq => by
          have hfalse := hnone q
          rw [State.push] at hfalse
          rw [isWaiting_iff.mpr hq] at hfalse
          cases hfalse
    | stop k' =>
      rw [hact] at hexec
      obtain rfl := Option.some.inj hexec
      exact .stop hcode hact
    | print text k' =>
      rw [hact] at hexec
      obtain rfl := Option.some.inj hexec
      exact .print hcode hact
    | ret =>
      rw [hact] at hexec
      obtain rfl := Option.some.inj hexec
      exact .ret hcode hact
  | loop t top =>
    rw [State.next] at h
    split at h
    · rename_i hloop
      rw [State.turn] at h
      split at h
      · rename_i hstop
        obtain rfl := Option.some.inj h
        exact .exit hloop hstop
      · rename_i hgoes
        have hgoes := Bool.eq_false_iff.mpr hgoes
        split at h
        · rename_i hnil
          obtain rfl := Option.some.inj h
          exact .sleep hloop hgoes hnil
        · obtain ⟨p, rfl, hp⟩ := Option.bind_eq_some_iff.mp h
          obtain ⟨htop, hp⟩ := Option.ite_none_right_eq_some.mp hp
          obtain rfl := Option.some.inj hp
          exact .start hloop hgoes htop
    all_goals cases h
  | wake t =>
    rw [State.next] at h
    obtain ⟨hwait, h⟩ := Option.ite_none_right_eq_some.mp h
    obtain rfl := Option.some.inj h
    exact .wake (isWaiting_iff.mp hwait)

/-! ### Invariant -/

/-- No function is started twice or after `stop`, and none before another one of a higher priority
that was there. -/
def Ordered (log : List (Event K)) : Prop :=
  ∀ l₁ p l₂, log = l₁ ++ .started p :: l₂ →
    .given p ∈ l₁ ∧ .started p ∉ l₁ ∧ .stopped ∉ l₁ ∧
      ∀ q, .given q ∈ l₁ → p.priority_ < q.priority_ → .started q ∈ l₁

omit [DecidableEq K] in
theorem Ordered.snoc {log : List (Event K)} (h : Ordered log) {e : Event K}
    (he : ∀ p, e = .started p → .given p ∈ log ∧ .started p ∉ log ∧ .stopped ∉ log ∧
      ∀ q, .given q ∈ log → p.priority_ < q.priority_ → .started q ∈ log) :
    Ordered (log ++ [e]) := by
  intro l₁ p l₂ hlog
  rcases List.eq_nil_or_concat l₂ with rfl | ⟨l₂, e', rfl⟩
  · obtain ⟨rfl, hlast⟩ := List.append_inj' hlog rfl
    exact he p (List.singleton_inj.mp hlast)
  · rw [List.concat_eq_append, ← List.cons_append, ← List.append_assoc] at hlog
    exact h l₁ p l₂ (List.append_inj' hlog rfl).1

/-- The queue holds what was given and is not started. -/
structure State.Right (s : State P K) : Prop where
  queued : ∀ p, p ∈ s.queue_ ↔ .given p ∈ s.log ∧ .started p ∉ s.log
  nodup : s.queue_.Nodup
  ids : ∀ p, .given p ∈ s.log → p.id < s.next_id
  began : ∀ p, .started p ∈ s.log → .given p ∈ s.log
  ordered : Ordered s.log
  stops : .stopped ∈ s.log ↔ s.stopped_ = true

/-- In `run`, and not waiting. -/
def Thread.Runs (th : Thread K) : Prop := th = .loop ∨ ∃ k, th = .func k

structure Inv (s : State P K) : Prop where
  right : s.Right
  notified : s.stopped_ = true → ∀ t, s.thread t ≠ .waiting
  awake : s.queue_ ≠ [] → ∀ t, s.thread t = .waiting → ∃ q, (s.thread q).Runs

omit [DecidableEq P] [Fintype P] [DecidableEq K] in
theorem inv_initial (main : P → K) : Inv (.initial main) where
  right :=
    { queued := fun p => by simp [State.initial]
      nodup := List.nodup_nil
      ids := fun p hp => absurd hp List.not_mem_nil
      began := fun p hp => absurd hp List.not_mem_nil
      ordered := fun l₁ p l₂ hlog => by simp [State.initial] at hlog
      stops := by simp [State.initial] }
  notified hstop := by simp [State.initial] at hstop
  awake hne := absurd rfl hne

namespace State.Right

omit [Fintype P] [DecidableEq K] in
theorem goto (h : s.Right) (t : P) (th : Thread K) : (s.goto t th).Right :=
  ⟨h.queued, h.nodup, h.ids, h.began, h.ordered, h.stops⟩

omit [DecidableEq P] [Fintype P] [DecidableEq K] in
theorem push (h : s.Right) (priority : ℤ) (f : K) : (s.push priority f).Right := by
  have hnew : .given ⟨s.next_id, priority, f⟩ ∉ s.log := fun hmem =>
    absurd (h.ids _ hmem) (Nat.lt_irrefl _)
  refine ⟨fun p => ?_, ?_, fun p hp => ?_, fun p hp => ?_, h.ordered.snoc nofun, ?_⟩
  · simp only [State.push, List.mem_cons, List.mem_append, List.not_mem_nil, or_false,
      Event.given.injEq, reduceCtorEq, h.queued p]
    constructor
    · rintro (rfl | ⟨hgiven, hstarted⟩)
      · exact ⟨Or.inr rfl, fun hstarted => hnew (h.began _ hstarted)⟩
      · exact ⟨Or.inl hgiven, hstarted⟩
    · rintro ⟨hgiven | rfl, hstarted⟩
      · exact Or.inr ⟨hgiven, hstarted⟩
      · exact Or.inl rfl
  · refine List.nodup_cons.mpr ⟨fun hmem => ?_, h.nodup⟩
    exact hnew ((h.queued _).mp hmem).1
  · rcases List.mem_append.mp hp with hold | hlast
    · exact Nat.lt_succ_of_lt (h.ids p hold)
    · obtain rfl := Event.given.inj (List.mem_singleton.mp hlast)
      exact Nat.lt_succ_self _
  · rcases List.mem_append.mp hp with hold | hlast
    · exact List.mem_append_left _ (h.began p hold)
    · exact absurd (List.mem_singleton.mp hlast) nofun
  · simp only [State.push, List.mem_append, List.mem_singleton, reduceCtorEq, or_false, h.stops]

omit [DecidableEq P] [Fintype P] in
theorem pop (h : s.Right) (hgoes : s.stopped_ = false) (htop : s.IsTop p) : (s.pop p).Right := by
  obtain ⟨hgiven, hstarted⟩ := (h.queued p).mp htop.1
  have hstop : .stopped ∉ s.log := fun hmem => by
    rw [h.stops.mp hmem] at hgoes
    cases hgoes
  refine ⟨fun q => ?_, h.nodup.erase p, fun q hq => ?_, fun q hq => ?_, ?_, ?_⟩
  · simp only [State.pop, h.nodup.mem_erase_iff, h.queued q, List.mem_append, List.mem_singleton,
      Event.started.injEq, reduceCtorEq, or_false, not_or]
    constructor
    · rintro ⟨hne, hq, hnot⟩
      exact ⟨hq, hnot, hne⟩
    · rintro ⟨hq, hnot, hne⟩
      exact ⟨hne, hq, hnot⟩
  · rcases List.mem_append.mp hq with hold | hlast
    · exact h.ids q hold
    · exact absurd (List.mem_singleton.mp hlast) nofun
  · rcases List.mem_append.mp hq with hold | hlast
    · exact List.mem_append_left _ (h.began q hold)
    · obtain rfl := Event.started.inj (List.mem_singleton.mp hlast)
      exact List.mem_append_left _ hgiven
  · refine h.ordered.snoc fun q hq => ?_
    obtain rfl := Event.started.inj hq
    refine ⟨hgiven, hstarted, hstop, fun r hr hlt => ?_⟩
    -- what is in the queue has no higher priority
    by_contra hnot
    exact absurd (htop.2 r ((h.queued r).mpr ⟨hr, hnot⟩)) (not_le.mpr hlt)
  · simp only [State.pop, List.mem_append, List.mem_singleton, reduceCtorEq, or_false, h.stops]

omit [DecidableEq P] [Fintype P] [DecidableEq K] in
theorem stop (h : s.Right) : s.stop.Right := by
  refine ⟨fun p => ?_, h.nodup, fun p hp => ?_, fun p hp => ?_, h.ordered.snoc nofun, ?_⟩
  · simp [State.stop, h.queued p]
  · exact h.ids p (by simpa [State.stop] using hp)
  · simpa [State.stop] using h.began p (by simpa [State.stop] using hp)
  · simp [State.stop]

end State.Right

section

omit [DecidableEq K]

theorem cases_of_code {th : Thread K} (h : th.code = some k) : th = .client k ∨ th = .func k := by
  cases th with
  | client | func => simpa [Thread.code] using h
  | loop | waiting | done => cases h

theorem goto_ne_waiting {th : Thread K} (h : th.code = some k) (k' : K) :
    th.goto k' ≠ .waiting := by
  rcases cases_of_code h with rfl | rfl <;> exact nofun

theorem ret_ne_waiting {th : Thread K} (h : th.code = some k) (b : Bool) :
    th.ret b ≠ .waiting := by
  rcases cases_of_code h with rfl | rfl <;> cases b <;> exact nofun

theorem Thread.Runs.goto {th : Thread K} (h : th.Runs) (k' : K) : (th.goto k').Runs := by
  rcases h with rfl | ⟨k, rfl⟩
  · exact Or.inl rfl
  · exact Or.inr ⟨k', rfl⟩

theorem Thread.Runs.ret {th : Thread K} (h : th.Runs) (b : Bool) : (th.ret b).Runs := by
  rcases h with rfl | ⟨k, rfl⟩ <;> exact Or.inl rfl

end

section

omit [Fintype P] [DecidableEq K]

@[simp] theorem goto_thread_self (s : State P K) (t : P) (th : Thread K) :
    (s.goto t th).thread t = th := Function.update_self ..

theorem goto_thread_of_ne (h : q ≠ t) (s : State P K) (th : Thread K) :
    (s.goto t th).thread q = s.thread q := Function.update_of_ne h ..

theorem ne_waiting_goto {th : Thread K} (h : ∀ q, s.thread q ≠ .waiting) (hth : th ≠ .waiting)
    (q : P) : (s.goto t th).thread q ≠ .waiting := by
  by_cases hq : q = t
  · rwa [hq, goto_thread_self]
  · rw [goto_thread_of_ne hq]
    exact h q

/-- Who runs `run` goes on doing so. -/
theorem awake_goto {th : Thread K} (h : ∀ q, s.thread q = .waiting → ∃ r, (s.thread r).Runs)
    (hth : th ≠ .waiting) (hruns : (s.thread t).Runs → th.Runs) :
    ∀ q, (s.goto t th).thread q = .waiting → ∃ r, ((s.goto t th).thread r).Runs := by
  intro q hwait
  have hq : q ≠ t := fun heq => by
    rw [heq, goto_thread_self] at hwait
    exact hth hwait
  rw [goto_thread_of_ne hq] at hwait
  obtain ⟨r, hr⟩ := h q hwait
  by_cases hrt : r = t
  · obtain rfl := hrt
    exact ⟨r, by rw [goto_thread_self]; exact hruns hr⟩
  · exact ⟨r, by rwa [goto_thread_of_ne hrt]⟩

end

omit [DecidableEq K] in
theorem notify_ne_waiting (th : Thread K) : th.notify ≠ .waiting := by
  cases th <;> exact nofun

omit [Fintype P] in
theorem Steps.inv (ht : Steps act runs s l s') (h : Inv s) : Inv s' := by
  obtain ⟨hright, hnotified, hawake⟩ := h
  cases ht with
  | @execute t q k f k' priority hcode hact hwait =>
    have hqt : q ≠ t := fun heq => by
      rw [← heq, hwait] at hcode
      cases hcode
    refine ⟨((hright.push priority f).goto ..).goto .., fun hstop => ?_, fun _ _ _ => ⟨q, ?_⟩⟩
    · exact absurd hwait (hnotified hstop q)
    · rw [goto_thread_of_ne hqt, goto_thread_self]
      exact Or.inl rfl
  | @executeAlone t k f k' priority hcode hact hnone =>
    have hall := ne_waiting_goto (s := s.push priority f) (t := t) hnone
      (goto_ne_waiting hcode k')
    exact ⟨(hright.push priority f).goto .., fun _ => hall, fun _ u hu => absurd hu (hall u)⟩
  | @stop t woken k k' hcode hact =>
    have hall := ne_waiting_goto (s := s.stop) (t := t) (fun u => notify_ne_waiting (s.thread u))
      (goto_ne_waiting hcode k')
    exact ⟨hright.stop.goto .., fun _ => hall, fun _ u hu => absurd hu (hall u)⟩
  | @print t woken k k' text hcode hact =>
    have hth := goto_ne_waiting hcode k'
    exact ⟨⟨hright.queued, hright.nodup, hright.ids, hright.began, hright.ordered, hright.stops⟩,
      fun hstop => ne_waiting_goto (hnotified hstop) hth,
      fun hne => awake_goto (hawake hne) hth fun hruns => hruns.goto k'⟩
  | @ret t woken k hcode hact =>
    have hth := ret_ne_waiting hcode (runs t)
    exact ⟨hright.goto .., fun hstop => ne_waiting_goto (hnotified hstop) hth,
      fun hne => awake_goto (hawake hne) hth fun hruns => hruns.ret _⟩
  | @exit t top hloop hstop =>
    have hall := ne_waiting_goto (t := t) (hnotified hstop) (by exact nofun : Thread.done ≠ .waiting)
    exact ⟨hright.goto .., fun _ => hall, fun _ u hu => absurd hu (hall u)⟩
  | sleep hloop hgoes hnil =>
    refine ⟨hright.goto .., fun hstop => ?_, fun hne => absurd hnil hne⟩
    exact absurd (hgoes.symm.trans hstop) Bool.false_ne_true
  | @start t p hloop hgoes htop =>
    refine ⟨(hright.pop hgoes htop).goto .., fun hstop => ?_, fun _ _ _ => ⟨t, ?_⟩⟩
    · exact absurd (hgoes.symm.trans hstop) Bool.false_ne_true
    · rw [goto_thread_self]
      exact Or.inr ⟨_, rfl⟩
  | @wake t hwait =>
    refine ⟨hright.goto .., fun hstop => absurd hwait (hnotified hstop t), fun _ _ _ => ⟨t, ?_⟩⟩
    rw [goto_thread_self]
    exact Or.inl rfl

theorem inv_of_reachable (h : (system act runs main).Reachable s) : Inv s :=
  h.invariant (P := Inv) (fun _ hs => hs ▸ inv_initial main)
    fun _ _ _ _ hs ht => (steps_of_next ht).inv hs

/-! ### Progress -/

omit [DecidableEq K] in
theorem exists_notifyOne (s : State P K) : ∃ woken s', s.notifyOne woken = some s' := by
  by_cases hwait : ∃ q, (s.thread q).isWaiting = true
  · obtain ⟨q, hq⟩ := hwait
    exact ⟨some q, _, if_pos hq⟩
  · have hall : ∀ q, (s.thread q).isWaiting = false := by simpa using hwait
    exact ⟨none, _, if_pos hall⟩

theorem exists_code (act : K → Action K) (runs : P → Bool) (hcode : (s.thread t).code = some k) :
    ∃ woken s', s.next act runs (.code t woken) = some s' := by
  simp only [State.next, hcode, Option.bind_some, State.exec]
  cases act k with
  | execute priority f k' =>
    obtain ⟨woken, s', hs'⟩ := exists_notifyOne (s.push priority f)
    exact ⟨woken, _, Option.map_eq_some_iff.mpr ⟨s', hs', rfl⟩⟩
  | stop | print | ret => exact ⟨none, _, rfl⟩

omit [DecidableEq P] [Fintype P] [DecidableEq K] in
theorem exists_isTop (hne : s.queue_ ≠ []) : ∃ p, s.IsTop p := by
  have hmax : ∀ queue : List (Item K), queue ≠ [] →
      ∃ p ∈ queue, ∀ q ∈ queue, q.priority_ ≤ p.priority_ := by
    intro queue hne
    induction queue with
    | nil => exact absurd rfl hne
    | cons p queue ih =>
      by_cases hnil : queue = []
      · exact ⟨p, List.mem_cons_self, by simp [hnil]⟩
      · obtain ⟨r, hr, hmax⟩ := ih hnil
        rcases le_total p.priority_ r.priority_ with hle | hle
        · exact ⟨r, List.mem_cons_of_mem p hr, List.forall_mem_cons.mpr ⟨hle, hmax⟩⟩
        · exact ⟨p, List.mem_cons_self,
            List.forall_mem_cons.mpr ⟨le_rfl, fun q hq => (hmax q hq).trans hle⟩⟩
  exact hmax s.queue_ hne

theorem exists_loop (act : K → Action K) (runs : P → Bool) (hloop : s.thread t = .loop) :
    ∃ top s', s.next act runs (.loop t top) = some s' := by
  simp only [State.next, hloop, State.turn]
  by_cases hstop : s.stopped_ = true
  · exact ⟨none, _, if_pos hstop⟩
  · by_cases hnil : s.queue_ = []
    · exact ⟨none, _, (if_neg hstop).trans (if_pos hnil)⟩
    · obtain ⟨p, hp⟩ := exists_isTop hnil
      exact ⟨some p, _, (if_neg hstop).trans ((if_neg hnil).trans (if_pos hp))⟩

theorem rest_of_stuck (hstuck : (unaided act runs main).Stuck s) (t : P) :
    s.thread t = .done ∨ s.thread t = .waiting := by
  cases hth : s.thread t with
  | client k | func k =>
    have hcode : (s.thread t).code = some k := by rw [hth]; rfl
    obtain ⟨woken, s', hs'⟩ := exists_code act runs hcode
    exact absurd ⟨hs', rfl⟩ (hstuck (.code t woken) s')
  | loop =>
    obtain ⟨top, s', hs'⟩ := exists_loop act runs hth
    exact absurd ⟨hs', rfl⟩ (hstuck (.loop t top) s')
  | waiting => exact Or.inr rfl
  | done => exact Or.inl rfl

/-- A thread waits for ever only when there is nothing left to do. -/
theorem Inv.idle_of_stuck (h : Inv s) (hstuck : (unaided act runs main).Stuck s)
    (hwait : s.thread t = .waiting) : s.stopped_ = false ∧
      ∀ p, .given p ∈ s.log → .started p ∈ s.log := by
  refine ⟨?_, fun p hp => ?_⟩
  · cases hstop : s.stopped_ with
    | false => rfl
    | true => exact absurd hwait (h.notified hstop t)
  · by_contra hnot
    have hne : s.queue_ ≠ [] := List.ne_nil_of_mem ((h.right.queued p).mpr ⟨hp, hnot⟩)
    obtain ⟨q, hruns⟩ := h.awake hne t hwait
    rcases rest_of_stuck hstuck q with hrest | hrest <;> rw [hrest] at hruns <;>
      rcases hruns with hloop | ⟨k, hfunc⟩
    · cases hloop
    · cases hfunc
    · cases hloop
    · cases hfunc

/-- **The scheduler keeps the order of priorities, whatever the order of steps.**  Along every run
a function is started once at most, after it was given, not after `stop`, and not while one of a
higher priority waits to be started.  Where nothing can go on, a thread that is still in `run`
waits because everything was started and `stop` was not called. -/
theorem runs_by_priority (h : (system act runs main).Reachable s) :
    Ordered s.log ∧ ((unaided act runs main).Stuck s → ∀ t, s.thread t = .done ∨
      s.thread t = .waiting ∧ s.stopped_ = false ∧
        ∀ p, .given p ∈ s.log → .started p ∈ s.log) := by
  have hinv := inv_of_reachable h
  refine ⟨hinv.right.ordered, fun hstuck t => ?_⟩
  exact (rest_of_stuck hstuck t).imp_right fun hwait => ⟨hwait, hinv.idle_of_stuck hstuck hwait⟩

/-- A client that gives three functions, of the priorities 1, 3 and 2. -/
def three : ℕ → Action ℕ
  | 0 => .execute 1 3 1
  | 1 => .execute 3 3 2
  | 2 => .execute 2 3 3
  | _ => .ret

theorem runs_by_priority_three : ∃ s : State (Fin 2) ℕ,
    s.log = [.given ⟨0, 1, 3⟩, .given ⟨1, 3, 3⟩, .started ⟨1, 3, 3⟩, .given ⟨2, 2, 3⟩,
      .started ⟨2, 2, 3⟩, .started ⟨0, 1, 3⟩] ∧ Ordered s.log := by
  -- the other thread waits in `run` from the start, and is woken by the first function
  let ls : List (Label (Fin 2) ℕ) :=
    [.code 1 none, .loop 1 none, .code 0 (some 1), .code 0 none, .loop 1 (some ⟨1, 3, 3⟩),
      .code 0 none, .code 0 none, .loop 0 (some ⟨2, 2, 3⟩), .code 1 none,
      .loop 1 (some ⟨0, 1, 3⟩)]
  let main : Fin 2 → ℕ := fun t => if t = 0 then 0 else 3
  let s := (ls.foldlM (State.next three fun _ => true) (.initial main)).get (by decide +kernel)
  have hs : (system three (fun _ => true) main).Reachable s :=
    ⟨_, ls, rfl, System.run_ofStep (by rfl)⟩
  exact ⟨s, by rfl, (runs_by_priority hs).1⟩

/-! ### The program -/

/-- The functions that `main` dispatches. -/
inductive Function
  | print (text : String)
  | stop
  deriving DecidableEq

inductive Code
  /-- The calls of `dispatch` that `main` has before it, with their priorities. -/
  | dispatch (rest : List (ℤ × Function))
  | func (f : Function)
  | ret
  deriving DecidableEq

def mainAct : Code → Action Code
  | .dispatch [] => .ret
  | .dispatch ((priority, f) :: rest) => .execute priority (.func f) (.dispatch rest)
  | .func (.print text) => .print text .ret
  | .func .stop => .stop .ret
  | .ret => .ret

/-- Functions that print, and then, at priority `low`, one that calls `stop`. -/
def calls (fs : List (ℤ × String)) (low : ℤ) : List (ℤ × Function) :=
  fs.map (fun f => (f.1, .print f.2)) ++ [(low, .stop)]

/-- `main` has one thread. -/
def mainSystem (fs : List (ℤ × String)) (low : ℤ) : System (State Unit Code) (Label Unit Code) :=
  system mainAct (fun _ => true) fun _ => .dispatch (calls fs low)

def unaidedMain (fs : List (ℤ × String)) (low : ℤ) : System (State Unit Code) (Label Unit Code) :=
  unaided mainAct (fun _ => true) fun _ => .dispatch (calls fs low)

def given (log : List (Event K)) : List (Item K) :=
  log.filterMap fun
    | .given p => some p
    | .started _ | .stopped => none

def started (log : List (Event K)) : List (Item K) :=
  log.filterMap fun
    | .started p => some p
    | .given _ | .stopped => none

/-- What a function prints, with its priority. -/
def Item.prints (p : Item Code) : Option (ℤ × String) :=
  match p.function_ with
  | .func (.print text) => some (p.priority_, text)
  | .func .stop | .dispatch _ | .ret => none

/-- What was given is what `main` has dispatched, all but `rest`. -/
def Gave (fs : List (ℤ × String)) (low : ℤ) (log : List (Event Code))
    (rest : List (ℤ × Function)) : Prop :=
  (given log).map (fun p => (p.priority_, p.function_)) ++
    rest.map (fun f => (f.1, Code.func f.2)) = (calls fs low).map fun f => (f.1, Code.func f.2)

/-- The functions `done` have returned. -/
def Printed (output : List String) (stopped : Bool) (done : List (Item Code)) : Prop :=
  output = (done.filterMap Item.prints).map Prod.snd ∧
    (stopped = true ↔ ∃ p ∈ done, p.function_ = .func .stop)

/-- Where `main` is, and what it has done before. -/
inductive Phase (fs : List (ℤ × String)) (low : ℤ) (log : List (Event Code))
    (output : List String) (stopped : Bool) : Thread Code → Prop
  | client {rest : List (ℤ × Function)} (hgave : Gave fs low log rest) (hnone : started log = [])
      (hprinted : Printed output stopped []) :
      Phase fs low log output stopped (.client (.dispatch rest))
  | loop (hgave : Gave fs low log []) (hprinted : Printed output stopped (started log)) :
      Phase fs low log output stopped .loop
  | func {done : List (Item Code)} {p : Item Code} {f : Function} (hgave : Gave fs low log [])
      (hstarted : started log = done ++ [p]) (hf : p.function_ = .func f)
      (hprinted : Printed output stopped done) (hgoes : stopped = false) :
      Phase fs low log output stopped (.func (.func f))
  | ret (hgave : Gave fs low log []) (hprinted : Printed output stopped (started log)) :
      Phase fs low log output stopped (.func .ret)
  | done (hgave : Gave fs low log []) (hprinted : Printed output stopped (started log))
      (hstop : stopped = true) : Phase fs low log output stopped .done

structure MainInv (fs : List (ℤ × String)) (low : ℤ) (s : State Unit Code) : Prop where
  perm : (started s.log ++ s.queue_).Perm (given s.log)
  sorted : (started s.log).Pairwise fun p q => q.priority_ ≤ p.priority_
  below : ∀ p ∈ started s.log, ∀ q ∈ s.queue_, q.priority_ ≤ p.priority_
  phase : Phase fs low s.log s.output s.stopped_ (s.thread ())

section Program

variable {fs : List (ℤ × String)} {low : ℤ} {s s' : State Unit Code} {l : Label Unit Code}
  {log : List (Event Code)} {p : Item Code}

section

omit [DecidableEq K]

@[simp] theorem given_append (log log' : List (Event K)) :
    given (log ++ log') = given log ++ given log' := List.filterMap_append

@[simp] theorem started_append (log log' : List (Event K)) :
    started (log ++ log') = started log ++ started log' := List.filterMap_append

@[simp] theorem given_given (p : Item K) : given [.given p] = [p] := rfl
@[simp] theorem given_started (p : Item K) : given [.started p] = [] := rfl
@[simp] theorem given_stopped : given [(.stopped : Event K)] = [] := rfl
@[simp] theorem started_given (p : Item K) : started [.given p] = [] := rfl
@[simp] theorem started_started (p : Item K) : started [.started p] = [p] := rfl
@[simp] theorem started_stopped : started [(.stopped : Event K)] = [] := rfl

end

/-- What `main` has dispatched. -/
theorem Gave.mem (h : Gave fs low log []) (hp : p ∈ given log) :
    (∃ f ∈ fs, p.priority_ = f.1 ∧ p.function_ = .func (.print f.2)) ∨
      p.priority_ = low ∧ p.function_ = .func .stop := by
  have hmem := List.mem_map_of_mem (f := fun p : Item Code => (p.priority_, p.function_)) hp
  rw [Gave, List.map_nil, List.append_nil] at h
  rw [h, calls, List.map_append, List.map_map, List.mem_append] at hmem
  rcases hmem with hprint | hstop
  · obtain ⟨f, hf, heq⟩ := List.mem_map.mp hprint
    obtain ⟨hpriority, hfunction⟩ := Prod.mk.inj heq
    exact Or.inl ⟨f, hf, hpriority.symm, hfunction.symm⟩
  · obtain ⟨hpriority, hfunction⟩ := Prod.mk.inj (List.mem_singleton.mp hstop)
    exact Or.inr ⟨hpriority, hfunction⟩

theorem Gave.prints (h : Gave fs low log []) : (given log).filterMap Item.prints = fs := by
  have hprints : Item.prints = (fun c : ℤ × Code => match c.2 with
      | .func (.print text) => some (c.1, text)
      | .func .stop | .dispatch _ | .ret => none) ∘ fun p => (p.priority_, p.function_) := rfl
  rw [Gave, List.map_nil, List.append_nil] at h
  rw [hprints, ← List.filterMap_map, h, calls, List.map_append, List.map_map,
    List.filterMap_append, List.filterMap_map]
  simp [Function.comp_def]

theorem Gave.stop (h : Gave fs low log []) : ∃ p ∈ given log, p.function_ = .func .stop := by
  rw [Gave, List.map_nil, List.append_nil] at h
  have hmem : (low, Code.func .stop) ∈
      (given log).map fun p : Item Code => (p.priority_, p.function_) := by
    rw [h, calls]
    simp
  obtain ⟨p, hp, heq⟩ := List.mem_map.mp hmem
  exact ⟨p, hp, (Prod.mk.inj heq).2⟩

/-- One more function has returned. -/
theorem Printed.print {output : List String} {stopped : Bool} {done : List (Item Code)}
    (h : Printed output stopped done) {text : String} (hf : p.function_ = .func (.print text)) :
    Printed (output ++ [text]) stopped (done ++ [p]) := by
  have hprints : p.prints = some (p.priority_, text) := by rw [Item.prints, hf]
  refine ⟨?_, h.2.trans ⟨fun ⟨q, hq, hstop⟩ => ⟨q, List.mem_append_left _ hq, hstop⟩, ?_⟩⟩
  · rw [h.1, List.filterMap_append, List.map_append, List.filterMap_cons_some hprints]
    rfl
  · rintro ⟨q, hq, hstop⟩
    rcases List.mem_append.mp hq with hold | hnew
    · exact ⟨q, hold, hstop⟩
    · rw [List.mem_singleton.mp hnew, hf] at hstop
      cases hstop

theorem Printed.stop {output : List String} {stopped : Bool} {done : List (Item Code)}
    (h : Printed output stopped done) (hf : p.function_ = .func .stop) :
    Printed output true (done ++ [p]) := by
  have hprints : p.prints = none := by rw [Item.prints, hf]
  refine ⟨?_, fun _ => ⟨p, List.mem_append_right _ (List.mem_singleton_self p), hf⟩, fun _ => rfl⟩
  rw [h.1, List.filterMap_append, List.filterMap_cons_none hprints]
  simp

theorem mainInv_initial : MainInv fs low (.initial fun _ => .dispatch (calls fs low)) where
  perm := .nil
  sorted := .nil
  below p hp := absurd hp List.not_mem_nil
  phase := .client rfl rfl ⟨rfl, by simp [State.initial]⟩

theorem Gave.push {priority : ℤ} {f : Function} {rest : List (ℤ × Function)}
    (h : Gave fs low log ((priority, f) :: rest)) (id : ℕ) :
    Gave fs low (log ++ [.given ⟨id, priority, .func f⟩]) rest := by
  rw [Gave, given_append, given_given, List.map_append, List.append_assoc]
  exact h

theorem Gave.congr {rest : List (ℤ × Function)} (h : Gave fs low log rest) {e : Event Code}
    (he : given [e] = []) : Gave fs low (log ++ [e]) rest := by
  rwa [Gave, given_append, he, List.append_nil]

/-- The queue's top goes behind all that were started. -/
theorem MainInv.pop (h : MainInv fs low s) (htop : s.IsTop p) :
    (started (s.pop p).log ++ (s.pop p).queue_).Perm (given (s.pop p).log) ∧
      (started (s.pop p).log).Pairwise (fun p q => q.priority_ ≤ p.priority_) ∧
      ∀ q ∈ started (s.pop p).log, ∀ r ∈ (s.pop p).queue_, r.priority_ ≤ q.priority_ := by
  simp only [State.pop, started_append, started_started, given_append, given_started,
    List.append_nil, List.append_assoc, List.singleton_append]
  refine ⟨?_, ?_, fun q hq r hr => ?_⟩
  · exact ((List.perm_cons_erase htop.1).symm.append_left _).trans h.perm
  · refine List.pairwise_append.mpr ⟨h.sorted, List.pairwise_singleton .., fun q hq r hr => ?_⟩
    rw [List.mem_singleton.mp hr]
    exact h.below q hq p htop.1
  · have hr := List.mem_of_mem_erase hr
    rcases List.mem_append.mp hq with hold | hnew
    · exact h.below q hold r hr
    · rw [List.mem_singleton.mp hnew]
      exact htop.2 r hr

/-- With the queue empty, all were started, the one that stops among them. -/
theorem MainInv.stopped_of_nil (h : MainInv fs low s) (hloop : s.thread () = .loop)
    (hnil : s.queue_ = []) : s.stopped_ = true := by
  have hphase := h.phase
  have hperm := h.perm
  rw [hloop] at hphase
  rw [hnil, List.append_nil] at hperm
  cases hphase with
  | loop hgave hprinted =>
    obtain ⟨p, hp, hstop⟩ := hgave.stop
    exact hprinted.2.mpr ⟨p, hperm.mem_iff.mpr hp, hstop⟩

theorem Steps.mainInv (ht : Steps mainAct (fun _ => true) s l s') (h : MainInv fs low s) :
    MainInv fs low s' := by
  have hphase := h.phase
  cases ht with
  | @execute t q k f k' priority hcode hact hwait =>
    rw [show s.thread t = .waiting from hwait] at hcode
    cases hcode
  | @executeAlone t k f k' priority hcode hact hnone =>
    rcases cases_of_code hcode with hth | hth <;> rw [show s.thread () = _ from hth] at hphase
    · cases hphase with
      | @client rest hgave hstarted hprinted =>
        cases rest with
        | nil => cases hact
        | cons c rest =>
          cases hact
          refine ⟨?_, ?_, ?_, ?_⟩
          · simp only [State.goto, State.push, started_append, started_given, given_append,
              given_given, List.append_nil]
            exact List.perm_middle.trans
              ((h.perm.cons _).trans (List.perm_append_singleton ..).symm)
          · simpa [State.goto, State.push] using h.sorted
          · simp [State.goto, State.push, hstarted]
          · rw [goto_thread_self, hth]
            refine .client (hgave.push s.next_id) ?_ hprinted
            simp [State.goto, State.push, hstarted]
    · cases hphase with
      | @func _ _ f => cases f <;> cases hact
      | ret => cases hact
  | @stop t woken k k' hcode hact =>
    rcases cases_of_code hcode with hth | hth <;> rw [show s.thread () = _ from hth] at hphase
    · cases hphase with
      | @client rest => cases rest <;> cases hact
    · cases hphase with
      | @func done p f hgave hstarted hf hprinted hgoes =>
        cases f with
        | print text => cases hact
        | stop =>
          cases hact
          refine ⟨?_, ?_, ?_, ?_⟩
          · simpa [State.goto, State.stop] using h.perm
          · simpa [State.goto, State.stop] using h.sorted
          · simpa [State.goto, State.stop] using h.below
          · rw [goto_thread_self, hth]
            refine .ret (hgave.congr rfl) ?_
            simp only [State.goto, State.stop, started_append, started_stopped, List.append_nil,
              hstarted]
            exact hprinted.stop hf
      | ret => cases hact
  | @print t woken k k' text hcode hact =>
    rcases cases_of_code hcode with hth | hth <;> rw [show s.thread () = _ from hth] at hphase
    · cases hphase with
      | @client rest => cases rest <;> cases hact
    · cases hphase with
      | @func done p f hgave hstarted hf hprinted hgoes =>
        cases f with
        | stop => cases hact
        | print text =>
          cases hact
          refine ⟨h.perm, h.sorted, h.below, ?_⟩
          rw [goto_thread_self, hth]
          refine .ret hgave ?_
          simp only [State.goto, hstarted]
          exact hprinted.print hf
      | ret => cases hact
  | @ret t woken k hcode hact =>
    refine ⟨h.perm, h.sorted, h.below, ?_⟩
    rw [goto_thread_self]
    rcases cases_of_code hcode with hth | hth <;> rw [show s.thread () = _ from hth] at hphase ⊢
    · cases hphase with
      | @client rest hgave hstarted hprinted =>
        cases rest with
        | nil => exact .loop hgave (hstarted ▸ hprinted)
        | cons c rest => cases hact
    · cases hphase with
      | @func _ _ f => cases f <;> cases hact
      | ret hgave hprinted => exact .loop hgave hprinted
  | @exit t top hloop hstop =>
    refine ⟨h.perm, h.sorted, h.below, ?_⟩
    rw [goto_thread_self]
    rw [show s.thread () = .loop from hloop] at hphase
    cases hphase with
    | loop hgave hprinted => exact .done hgave hprinted hstop
  | @sleep t top hloop hgoes hnil =>
    exact absurd (hgoes.symm.trans (h.stopped_of_nil hloop hnil)) Bool.false_ne_true
  | @start t p hloop hgoes htop =>
    obtain ⟨hperm, hsorted, hbelow⟩ := h.pop htop
    refine ⟨hperm, hsorted, hbelow, ?_⟩
    rw [goto_thread_self]
    rw [show s.thread () = .loop from hloop] at hphase
    cases hphase with
    | loop hgave hprinted =>
      have hgiven : p ∈ given s.log := h.perm.mem_iff.mp (List.mem_append_right _ htop.1)
      have hfunc : ∃ f, p.function_ = .func f := by
        rcases hgave.mem hgiven with ⟨f, -, -, hf⟩ | ⟨-, hf⟩ <;> exact ⟨_, hf⟩
      obtain ⟨f, hf⟩ := hfunc
      rw [hf]
      exact .func (hgave.congr rfl) (by simp [State.goto, State.pop]) hf hprinted hgoes
  | @wake t hwait =>
    rw [show s.thread () = .waiting from hwait] at hphase
    cases hphase

theorem mainInv_of_reachable (h : (mainSystem fs low).Reachable s) : MainInv fs low s :=
  h.invariant (P := MainInv fs low)
    (fun s (hs : s = .initial fun _ => .dispatch (calls fs low)) => hs ▸ mainInv_initial)
    fun _ _ _ _ hs ht => (steps_of_next ht).mainInv hs

theorem MainInv.done_of_stuck (h : MainInv fs low s) (hstuck : (unaidedMain fs low).Stuck s) :
    s.thread () = .done := by
  refine (rest_of_stuck hstuck ()).resolve_right fun hwait => ?_
  have hphase := h.phase
  rw [hwait] at hphase
  cases hphase

/-- When `main` returns, what is left in the queue prints nothing. -/
theorem MainInv.printed (h : MainInv fs low s) (hlow : ∀ f ∈ fs, low < f.1)
    (hdone : s.thread () = .done) : ∃ order : List (ℤ × String), order.Perm fs ∧
      order.Pairwise (fun f g => g.1 ≤ f.1) ∧ s.output = order.map Prod.snd := by
  have hphase := h.phase
  rw [hdone] at hphase
  cases hphase with
  | done hgave hprinted hstop =>
    obtain ⟨p, hp, hf⟩ := hprinted.2.mp hstop
    have hgiven {q : Item Code} (hq : q ∈ started s.log ++ s.queue_) : q ∈ given s.log :=
      h.perm.mem_iff.mp hq
    have hpriority : p.priority_ = low := by
      rcases hgave.mem (hgiven (List.mem_append_left _ hp)) with ⟨f, -, -, hf'⟩ | ⟨hlow, -⟩
      · rw [hf] at hf'
        cases hf'
      · exact hlow
    have hrest : s.queue_.filterMap Item.prints = [] := by
      refine List.filterMap_eq_nil_iff.mpr fun q hq => ?_
      have hle := h.below p hp q hq
      rcases hgave.mem (hgiven (List.mem_append_right _ hq)) with ⟨f, hf, hfirst, -⟩ | ⟨-, hf⟩
      · exact absurd (hlow f hf) (by omega)
      · rw [Item.prints, hf]
    refine ⟨(started s.log).filterMap Item.prints, ?_, ?_, hprinted.1⟩
    · have hperm := h.perm.filterMap Item.prints
      rwa [List.filterMap_append, hrest, List.append_nil, hgave.prints] at hperm
    · refine List.Pairwise.filterMap _ (fun q r hle f hf g hg => ?_) h.sorted
      have hfirst {q : Item Code} {f : ℤ × String} (hf : q.prints = some f) :
          f.1 = q.priority_ := by
        rw [Item.prints] at hf
        split at hf
        · obtain rfl := Option.some.inj hf
          rfl
        all_goals cases hf
      rw [hfirst hf, hfirst hg]
      exact hle

/-- The steps that a piece of code stands for. -/
def Code.work : Code → ℕ
  | dispatch rest => 5 * rest.length + 2
  | func _ => 3
  | ret => 2

def Thread.work : Thread Code → ℕ
  | client k | func k => k.work
  | loop => 1
  | waiting | done => 0

def State.work (s : State Unit Code) : ℕ :=
  (s.thread ()).work + (s.queue_.map fun p => p.function_.work + 1).sum

theorem Steps.work (ht : Steps mainAct (fun _ => true) s l s') :
    if l.isWake = true then s'.work ≤ s.work + 1 else s'.work < s.work := by
  have hqueue (t : Unit) (th : Thread Code) (u : State Unit Code) :
      (u.goto t th).work = th.work + (u.queue_.map fun p => p.function_.work + 1).sum := by
    rw [State.work, goto_thread_self]
    rfl
  have hthread {t : Unit} {k : Code} (hcode : (s.thread t).code = some k) :
      s.work = k.work + (s.queue_.map fun p => p.function_.work + 1).sum := by
    rcases cases_of_code hcode with hth | hth <;>
      rw [State.work, show s.thread () = _ from hth, Thread.work]
  have hgoto {t : Unit} {k : Code} (hcode : (s.thread t).code = some k) (k' : Code) :
      ((s.thread t).goto k').work = k'.work := by
    rcases cases_of_code hcode with hth | hth <;> rw [hth] <;> rfl
  have hsum {k f k' : Code} {priority : ℤ} (hact : mainAct k = .execute priority f k') :
      k'.work + f.work + 2 = k.work := by
    cases k with
    | dispatch rest =>
      cases rest with
      | nil => cases hact
      | cons c rest =>
        cases hact
        simp only [Code.work, List.length_cons]
        omega
    | func f => cases f <;> cases hact
    | ret => cases hact
  cases ht with
  | @execute t q k f k' priority hcode hact hwait =>
    rw [show s.thread t = .waiting from hwait] at hcode
    cases hcode
  | @executeAlone t k f k' priority hcode hact hnone =>
    rw [hqueue, hthread hcode, hgoto hcode, ← hsum hact]
    simp only [State.push, List.map_cons, List.sum_cons, Label.isWake, Bool.false_eq_true, if_false]
    omega
  | @stop t woken k k' hcode hact =>
    rw [hqueue, hthread hcode, hgoto hcode]
    cases k with
    | dispatch rest => cases rest <;> cases hact
    | func f =>
      cases f with
      | print text => cases hact
      | stop =>
        cases hact
        simp only [State.stop, Code.work, Label.isWake, Bool.false_eq_true, if_false]
        omega
    | ret => cases hact
  | @print t woken k k' text hcode hact =>
    rw [hqueue, hthread hcode, hgoto hcode]
    cases k with
    | dispatch rest => cases rest <;> cases hact
    | func f =>
      cases f with
      | stop => cases hact
      | print text =>
        cases hact
        simp only [Code.work, Label.isWake, Bool.false_eq_true, if_false]
        omega
    | ret => cases hact
  | @ret t woken k hcode hact =>
    have hret : ((s.thread t).ret true).work = 1 := by
      rcases cases_of_code hcode with hth | hth <;> rw [hth] <;> rfl
    have hpos : 2 ≤ k.work := by
      cases k <;> simp [Code.work]
    rw [hqueue, hthread hcode, hret]
    simp only [Label.isWake, Bool.false_eq_true, if_false]
    omega
  | @exit t top hloop hstop =>
    rw [hqueue, State.work, show s.thread () = .loop from hloop]
    simp [Thread.work, Label.isWake]
  | @sleep t top hloop hgoes hnil =>
    rw [hqueue, State.work, show s.thread () = .loop from hloop]
    simp [Thread.work, Label.isWake]
  | @start t p hloop hgoes htop =>
    have hpop := List.sum_map_erase (fun p : Item Code => p.function_.work + 1) htop.1
    rw [hqueue, State.work, show s.thread () = .loop from hloop]
    simp only [Thread.work, State.pop, Label.isWake, Bool.false_eq_true, if_false]
    omega
  | @wake t hwait =>
    rw [hqueue, State.work, show s.thread () = .waiting from hwait]
    simp only [Thread.work, Label.isWake, if_true]
    omega

theorem length_le_of_run {ls : List (Label Unit Code)}
    (h : (mainSystem fs low).Run (.initial fun _ => .dispatch (calls fs low)) ls s) :
    ls.length ≤ (State.initial fun _ => Code.dispatch (calls fs low)).work +
      2 * ls.countP Label.isWake := by
  have hbound := (h.length_le (P := fun _ => True) State.work Label.isWake
    (fun _ _ _ _ ht => ⟨trivial, (steps_of_next ht).work⟩) trivial).2
  omega

/-- **The program prints in order of priority.**  For any functions that print, and one of a lower
priority that calls `stop`: when `main` returns, every text was printed, those of higher
priority first, whatever the heap does with equal ones.  It returns: `main` never waits for
ever, and the number of its steps is bounded. -/
theorem prints_by_priority {fs : List (ℤ × String)} {low : ℤ} (hlow : ∀ f ∈ fs, low < f.1) :
    (∀ s, (mainSystem fs low).Reachable s →
      (s.thread () = .done → ∃ order : List (ℤ × String), order.Perm fs ∧
        order.Pairwise (fun f g => g.1 ≤ f.1) ∧ s.output = order.map Prod.snd) ∧
      ((unaidedMain fs low).Stuck s → s.thread () = .done)) ∧
    ∃ bound, ∀ s ls, (mainSystem fs low).Run (.initial fun _ => .dispatch (calls fs low)) ls s →
      ls.length ≤ bound + 2 * ls.countP Label.isWake := by
  refine ⟨fun s hs => ?_, _, fun _ _ hrun => length_le_of_run hrun⟩
  have hinv := mainInv_of_reachable hs
  exact ⟨hinv.printed hlow, hinv.done_of_stuck⟩

/-- A run of the program with two functions that print. -/
def twoRun : List (Label Unit Code) :=
  [.code () none, .code () none, .code () none, .code () none,
    .loop () (some ⟨1, 2, .func (.print "3")⟩), .code () none, .code () none,
    .loop () (some ⟨0, 0, .func (.print "1")⟩), .code () none, .code () none,
    .loop () (some ⟨2, -1, .func .stop⟩), .code () none, .code () none, .loop () none]

theorem prints_by_priority_two : ∃ s : State Unit Code, s.output = ["3", "1"] ∧
    ∃ order : List (ℤ × String), order.Perm [(0, "1"), (2, "3")] ∧
      order.Pairwise (fun f g => g.1 ≤ f.1) ∧ s.output = order.map Prod.snd := by
  let s := (twoRun.foldlM (State.next mainAct fun _ => true)
    (.initial fun _ => .dispatch (calls [(0, "1"), (2, "3")] (-1)))).get (by decide +kernel)
  have hs : (mainSystem [(0, "1"), (2, "3")] (-1)).Reachable s :=
    ⟨_, twoRun, rfl, System.run_ofStep (by rfl)⟩
  have hdone : s.thread () = .done := by rfl
  exact ⟨s, by rfl, ((prints_by_priority (by decide)).1 s hs).1 hdone⟩

end Program

end CppProgramming.Executors.PriorityScheduler
