import CppProgramming.Lib.Counting
import CppProgramming.Lib.Transition
import Mathlib.Data.Multiset.Count
import Mathlib.Data.Multiset.Range
import Mathlib.Algebra.BigOperators.Group.Finset.Defs

/-!
# The pool of `fork_join.cpp`

Functions are given to an executor, and the threads of the pool take them out of one queue.
`join` waits until all functions of an executor have returned, and while it waits its thread
takes functions out of the queue as well, of whatever executor.  So a thread has a stack: a
loop that takes functions, a function on top of it, a join on top of the function, and so on.
When the queue is long, `do_execute` runs the function at once on the stack of its caller.

`work_count_` counts the functions of an executor that have not returned, and `use_count_`
the executors with such functions, and the pool itself until it is stopped.  A critical
section of the mutex is one step.  What the functions do is a parameter: `act` says what
their code does next.

`Inv` says that the counts are right and that every function is in the queue, on one stack or
back, and in one of the three only.  So a `join` returns when every function of its executor
is back (`join_returns`), and the threads of the pool end when every function that was ever
given to it has been run, and run once (`pool_ends`).
-/

namespace CppProgramming.Executors.ForkJoin

open CppProgramming.Lib

/-- What the code of a function does next. -/
inductive Act (K G : Type*)
  /-- A `fork_executor` is constructed. -/
  | fork (k : ℕ → K)
  /-- `execution::execute(ex, f)` -/
  | execute (ex : ℕ) (f k : K)
  /-- `ex.join()` -/
  | join (ex : ℕ) (k : K)
  /-- A step on the memory that the functions share. -/
  | update (g : G) (k : K)
  | ret

/-- A function in the queue: its executor and its code; `id` tells it from all others. -/
structure Func (K : Type*) where
  id : ℕ
  ex : ℕ
  code : K

/-- A function that has not returned. -/
structure Ticket where
  id : ℕ
  ex : ℕ
deriving DecidableEq

def Func.ticket {K : Type*} (f : Func K) : Ticket := ⟨f.id, f.ex⟩

/-- The `stamp` of a function says when it was begun, among all functions. -/
inductive Frame (K : Type*)
  /-- The loop of a thread of the pool. -/
  | worker
  /-- The body of `main`. -/
  | body (k : K)
  | func (k : K) (ticket : Ticket) (stamp : ℕ)
  /-- The loop of `join`. -/
  | join (ex : ℕ)

namespace Frame

variable {K : Type*}

/-- What is left of the code of a frame that is no loop. -/
def code : Frame K → Option K
  | body k | func k _ _ => some k
  | worker | join _ => none

def goto (k : K) : Frame K → Frame K
  | body _ => body k
  | func _ ticket stamp => func k ticket stamp
  | worker => worker
  | join ex => join ex

def stamp : Frame K → ℕ
  | func _ _ stamp => stamp
  | _ => 0

/-- The function that returns with the frame. -/
def tickets : Frame K → Multiset Ticket
  | func _ ticket _ => {ticket}
  | _ => 0

end Frame

structure Thread (K : Type*) where
  /-- The innermost frame is the first. -/
  stack : List (Frame K)
  /-- In `condition_.wait`. -/
  waiting : Bool

/-- `fork_join_pool`, its threads, and the memory of the functions. -/
structure State (P K G : Type*) where
  queue_ : List (Func K)
  use_count_ : ℕ
  /-- `work_count_` of each executor. -/
  work_count_ : ℕ → ℕ
  thread : P → Thread K
  mem : G
  /-- `stop_threads` was called. -/
  stopped : Bool
  /-- How many executors there are. -/
  executors : ℕ
  /-- The stamp of the function that has constructed an executor. -/
  owner : ℕ → ℕ
  /-- How many functions were begun. -/
  clock : ℕ
  /-- How many functions were given to executors. -/
  next_id : ℕ
  /-- The functions that have returned. -/
  ended : Multiset Ticket

inductive Label (P : Type*)
  /-- A step of a function; `woken` is who is woken by its `notify_one`. -/
  | code (t : P) (woken : Option P)
  /-- A turn of a loop. -/
  | loop (t : P)
  /-- A spurious wake-up. -/
  | wake (t : P)

variable {P K G : Type*} [DecidableEq P]

namespace State

/-- The thread goes on with the stack `fs`. -/
def goto (s : State P K G) (t : P) (fs : List (Frame K)) : State P K G :=
  { s with thread := Function.update s.thread t ⟨fs, false⟩ }

/-- `condition_.wait` -/
def wait (s : State P K G) (t : P) : State P K G :=
  { s with thread := Function.update s.thread t ⟨(s.thread t).stack, true⟩ }

def wake (s : State P K G) (t : P) : State P K G :=
  { s with thread := Function.update s.thread t ⟨(s.thread t).stack, false⟩ }

/-- `condition_.notify_all()` -/
def notifyAll (s : State P K G) : State P K G :=
  { s with thread := fun t => ⟨(s.thread t).stack, false⟩ }

/-- `condition_.notify_one()` -/
def notifyOne [Fintype P] (s : State P K G) : Option P → Option (State P K G)
  | some t => if (s.thread t).waiting then some (s.wake t) else none
  | none => if ∀ t, (s.thread t).waiting = false then some s else none

/-- `do_work_started` -/
def doWorkStarted (s : State P K G) (ex : ℕ) : State P K G :=
  { s with
    work_count_ := Function.update s.work_count_ ex (s.work_count_ ex + 1)
    use_count_ := if s.work_count_ ex + 1 = 1 then s.use_count_ + 1 else s.use_count_ }

/-- `do_work_finished` -/
def doWorkFinished (s : State P K G) (ex : ℕ) : State P K G :=
  let s : State P K G :=
    { s with work_count_ := Function.update s.work_count_ ex (s.work_count_ ex - 1) }
  if s.work_count_ ex = 0 then
    let s : State P K G := { s with use_count_ := s.use_count_ - 1 }
    s.notifyAll
  else s

/-- The function of the ticket is begun on top of the stack `fs`. -/
def begin (s : State P K G) (t : P) (fs : List (Frame K)) (k : K) (ticket : Ticket) : State P K G :=
  let s : State P K G := { s with clock := s.clock + 1 }
  s.goto t (.func k ticket s.clock :: fs)

/-- A turn of a loop around `execute_next`: without a function in the queue the thread waits. -/
def executeNext (s : State P K G) (t : P) (fs : List (Frame K)) : State P K G :=
  match s.queue_ with
  | [] => s.wait t
  | f :: rest =>
    let s : State P K G := { s with queue_ := rest }
    s.begin t fs f.code f.ticket

/-- `do_execute` for the function `f`, from a frame `fr` that goes on with `k`. -/
def doExecute [Fintype P] (threadCount : ℕ) (s : State P K G) (t : P) (fr : Frame K)
    (fs : List (Frame K)) (ex : ℕ) (f k : K) (woken : Option P) : Option (State P K G) :=
  let ticket : Ticket := ⟨s.next_id, ex⟩
  let s : State P K G := { s with next_id := s.next_id + 1 }
  if s.queue_.length > threadCount * 16 then
    some ((s.doWorkStarted ex).begin t (fr.goto k :: fs) f ticket)
  else
    let s : State P K G := { s with queue_ := s.queue_ ++ [⟨ticket.id, ex, f⟩] }
    ((s.doWorkStarted ex).goto t (fr.goto k :: fs)).notifyOne woken

/-- The end of a function, or of `main`, with whose return the pool is stopped. -/
def ret (s : State P K G) (t : P) (fr : Frame K) (fs : List (Frame K)) : State P K G :=
  match fr with
  | .func _ ticket _ =>
    let s : State P K G := { s with ended := ticket ::ₘ s.ended }
    (s.goto t fs).doWorkFinished ticket.ex
  | _ =>
    let s : State P K G := { s with use_count_ := s.use_count_ - 1, stopped := true }
    (s.goto t fs).notifyAll

variable [Fintype P] (act : K → G → Act K G) (threadCount : ℕ)

/-- A step of the code of the innermost frame `fr`. -/
def run (s : State P K G) (t : P) (fr : Frame K) (fs : List (Frame K)) (woken : Option P) :
    Act K G → Option (State P K G)
  | .fork k =>
    let ex := s.executors
    let s : State P K G :=
      { s with executors := ex + 1, owner := Function.update s.owner ex fr.stamp }
    some (s.goto t (fr.goto (k ex) :: fs))
  | .execute ex f k =>
    if ex < s.executors then s.doExecute threadCount t fr fs ex f k woken else none
  | .join ex k => if ex < s.executors then some (s.goto t (.join ex :: fr.goto k :: fs)) else none
  | .update g k =>
    let s : State P K G := { s with mem := g }
    some (s.goto t (fr.goto k :: fs))
  | .ret => some (s.ret t fr fs)

def next (s : State P K G) : Label P → Option (State P K G)
  | .code t woken =>
    match (s.thread t).stack with
    | fr :: fs =>
      match fr.code with
      | some k => s.run threadCount t fr fs woken (act k s.mem)
      | none => none
    | [] => none
  | .loop t =>
    if (s.thread t).waiting then none else
    match (s.thread t).stack with
    | .worker :: fs =>
      some (if s.use_count_ > 0 then s.executeNext t (.worker :: fs) else s.goto t fs)
    | .join ex :: fs =>
      some (if s.work_count_ ex > 0 then s.executeNext t (.join ex :: fs) else s.goto t fs)
    | _ => none
  | .wake t => if (s.thread t).waiting then some (s.wake t) else none

end State

/-- The pool at the start of `main`, which has the body `k`: one thread runs it, and all
others are threads of the pool. -/
def State.initial (main : P) (k : K) (g : G) : State P K G where
  queue_ := []
  use_count_ := 1
  work_count_ _ := 0
  thread t := ⟨if t = main then [.body k] else [.worker], false⟩
  mem := g
  stopped := false
  executors := 0
  owner _ := 0
  clock := 0
  next_id := 0
  ended := 0

def system [Fintype P] (act : K → G → Act K G) (threadCount : ℕ) (main : P) (k : K) (g : G) :
    System (State P K G) (Label P) :=
  .ofStep (· = .initial main k g) (State.next act threadCount)

/-! ### What a step does -/

variable [Fintype P] {act : K → G → Act K G} {threadCount : ℕ} {s s' : State P K G} {t : P}
  {fs : List (Frame K)}

/-- The steps, one by one.  A thread at a loop goes on with `fs` behind it. -/
inductive Steps (act : K → G → Act K G) (threadCount : ℕ) (s : State P K G) :
    Label P → State P K G → Prop
  | fork {t : P} {woken : Option P} {fr : Frame K} {fs : List (Frame K)} {c : K} {k : ℕ → K}
      (hstack : (s.thread t).stack = fr :: fs) (hcode : fr.code = some c)
      (hact : act c s.mem = .fork k) :
      Steps act threadCount s (.code t woken) (({ s with
        executors := s.executors + 1
        owner := Function.update s.owner s.executors fr.stamp } : State P K G).goto t
          (fr.goto (k s.executors) :: fs))
  | begin {t : P} {woken : Option P} {fr : Frame K} {fs : List (Frame K)} {c f k : K} {ex : ℕ}
      (hstack : (s.thread t).stack = fr :: fs) (hcode : fr.code = some c)
      (hact : act c s.mem = .execute ex f k) (hex : ex < s.executors)
      (hlong : s.queue_.length > threadCount * 16) :
      Steps act threadCount s (.code t woken)
        ((({ s with next_id := s.next_id + 1 } : State P K G).doWorkStarted ex).begin t
          (fr.goto k :: fs) f ⟨s.next_id, ex⟩)
  | push {t : P} {woken : Option P} {fr : Frame K} {fs : List (Frame K)} {c f k : K} {ex : ℕ}
      {s' : State P K G} (hstack : (s.thread t).stack = fr :: fs) (hcode : fr.code = some c)
      (hact : act c s.mem = .execute ex f k) (hex : ex < s.executors)
      (hnotify : ((({ s with
        next_id := s.next_id + 1
        queue_ := s.queue_ ++ [⟨s.next_id, ex, f⟩] } : State P K G).doWorkStarted ex).goto t
          (fr.goto k :: fs)).notifyOne woken = some s') :
      Steps act threadCount s (.code t woken) s'
  | join {t : P} {woken : Option P} {fr : Frame K} {fs : List (Frame K)} {c k : K} {ex : ℕ}
      (hstack : (s.thread t).stack = fr :: fs) (hcode : fr.code = some c)
      (hact : act c s.mem = .join ex k) (hex : ex < s.executors) :
      Steps act threadCount s (.code t woken) (s.goto t (.join ex :: fr.goto k :: fs))
  | update {t : P} {woken : Option P} {fr : Frame K} {fs : List (Frame K)} {c k : K} {g : G}
      (hstack : (s.thread t).stack = fr :: fs) (hcode : fr.code = some c)
      (hact : act c s.mem = .update g k) :
      Steps act threadCount s (.code t woken)
        (({ s with mem := g } : State P K G).goto t (fr.goto k :: fs))
  | ret {t : P} {woken : Option P} {fs : List (Frame K)} {c : K} {ticket : Ticket} {stamp : ℕ}
      (hstack : (s.thread t).stack = .func c ticket stamp :: fs) (hact : act c s.mem = .ret) :
      Steps act threadCount s (.code t woken)
        ((({ s with ended := ticket ::ₘ s.ended } : State P K G).goto t fs).doWorkFinished
          ticket.ex)
  | stop {t : P} {woken : Option P} {fs : List (Frame K)} {c : K}
      (hstack : (s.thread t).stack = .body c :: fs) (hact : act c s.mem = .ret) :
      Steps act threadCount s (.code t woken)
        (({ s with use_count_ := s.use_count_ - 1, stopped := true } : State P K G).goto t
          fs).notifyAll
  | exit {t : P} {fs : List (Frame K)} (hawake : (s.thread t).waiting = false)
      (hstack : (s.thread t).stack = .worker :: fs) (huse : s.use_count_ = 0) :
      Steps act threadCount s (.loop t) (s.goto t fs)
  | joined {t : P} {fs : List (Frame K)} {ex : ℕ} (hawake : (s.thread t).waiting = false)
      (hstack : (s.thread t).stack = .join ex :: fs) (hwork : s.work_count_ ex = 0) :
      Steps act threadCount s (.loop t) (s.goto t fs)
  | wait {t : P} {fr : Frame K} {fs : List (Frame K)} (hawake : (s.thread t).waiting = false)
      (hstack : (s.thread t).stack = fr :: fs)
      (hloop : fr = .worker ∧ 0 < s.use_count_ ∨ ∃ ex, fr = .join ex ∧ 0 < s.work_count_ ex)
      (hqueue : s.queue_ = []) : Steps act threadCount s (.loop t) (s.wait t)
  | take {t : P} {fr : Frame K} {fs : List (Frame K)} {f : Func K} {rest : List (Func K)}
      (hawake : (s.thread t).waiting = false) (hstack : (s.thread t).stack = fr :: fs)
      (hloop : fr = .worker ∧ 0 < s.use_count_ ∨ ∃ ex, fr = .join ex ∧ 0 < s.work_count_ ex)
      (hqueue : s.queue_ = f :: rest) :
      Steps act threadCount s (.loop t)
        (({ s with queue_ := rest } : State P K G).begin t (fr :: fs) f.code f.ticket)
  | wake {t : P} (hwait : (s.thread t).waiting = true) :
      Steps act threadCount s (.wake t) (s.wake t)

omit [Fintype P] in
theorem executeNext_cases (s : State P K G) (t : P) (fs : List (Frame K)) :
    s.queue_ = [] ∧ s.executeNext t fs = s.wait t ∨ ∃ f rest, s.queue_ = f :: rest ∧
      s.executeNext t fs =
        ({ s with queue_ := rest } : State P K G).begin t fs f.code f.ticket := by
  cases hqueue : s.queue_ with
  | nil => exact Or.inl ⟨rfl, by rw [State.executeNext, hqueue]⟩
  | cons f rest => exact Or.inr ⟨f, rest, rfl, by rw [State.executeNext, hqueue]⟩

theorem steps_of_loop (h : s.next act threadCount (.loop t) = some s') :
    Steps act threadCount s (.loop t) s' := by
  simp only [State.next] at h
  split at h
  · exact nomatch h
  · rename_i hwait
    have hawake : (s.thread t).waiting = false := by simpa using hwait
    split at h
    · rename_i fs hstack
      split at h
      · rcases executeNext_cases s t (.worker :: fs) with ⟨hq, he⟩ | ⟨f, rest, hq, he⟩
        · rw [he] at h
          exact Option.some.inj h ▸ .wait hawake hstack (Or.inl ⟨rfl, ‹_›⟩) hq
        · rw [he] at h
          exact Option.some.inj h ▸ .take hawake hstack (Or.inl ⟨rfl, ‹_›⟩) hq
      · exact Option.some.inj h ▸ .exit hawake hstack (by omega)
    · rename_i ex fs hstack
      split at h
      · rcases executeNext_cases s t (.join ex :: fs) with ⟨hq, he⟩ | ⟨f, rest, hq, he⟩
        · rw [he] at h
          exact Option.some.inj h ▸ .wait hawake hstack (Or.inr ⟨ex, rfl, ‹_›⟩) hq
        · rw [he] at h
          exact Option.some.inj h ▸ .take hawake hstack (Or.inr ⟨ex, rfl, ‹_›⟩) hq
      · exact Option.some.inj h ▸ .joined hawake hstack (by omega)
    · exact nomatch h

theorem steps_of_code {woken : Option P} (h : s.next act threadCount (.code t woken) = some s') :
    Steps act threadCount s (.code t woken) s' := by
  simp only [State.next] at h
  split at h
  · rename_i fr fs hstack
    split at h
    · rename_i c hcode
      cases hact : act c s.mem with
      | fork k =>
        rw [hact] at h
        exact Option.some.inj h ▸ .fork hstack hcode hact
      | execute ex f k =>
        rw [hact, State.run] at h
        split at h
        · rw [State.doExecute] at h
          split at h
          · exact Option.some.inj h ▸ .begin hstack hcode hact ‹_› ‹_›
          · exact .push hstack hcode hact ‹_› h
        · exact nomatch h
      | join ex k =>
        rw [hact, State.run] at h
        split at h
        · exact Option.some.inj h ▸ .join hstack hcode hact ‹_›
        · exact nomatch h
      | update g k =>
        rw [hact] at h
        exact Option.some.inj h ▸ .update hstack hcode hact
      | ret =>
        rw [hact, State.run, Option.some.injEq] at h
        cases fr with
        | func c' ticket stamp =>
          obtain rfl := Option.some.inj hcode
          exact h ▸ .ret hstack hact
        | body c' =>
          obtain rfl := Option.some.inj hcode
          exact h ▸ .stop hstack hact
        | worker | join ex => exact nomatch hcode
    · exact nomatch h
  · exact nomatch h

theorem steps_of_next {l : Label P} (h : s.next act threadCount l = some s') :
    Steps act threadCount s l s' := by
  cases l with
  | code t woken => exact steps_of_code h
  | loop t => exact steps_of_loop h
  | wake t =>
    simp only [State.next] at h
    split at h
    · exact Option.some.inj h ▸ .wake ‹_›
    · exact nomatch h

/-! ### The accounts of the pool -/

/-- What the pool knows of its functions. -/
structure Accounts where
  unfinished : Multiset Ticket
  ended : Multiset Ticket
  next_id : ℕ
  executors : ℕ
  work : ℕ → ℕ
  use : ℕ
  stopped : Bool

namespace Accounts

/-- How many of the executors have functions that have not returned. -/
def busy (n : ℕ) (work : ℕ → ℕ) : ℕ := ((Finset.range n).filter fun ex => work ex ≠ 0).card

theorem busy_update {n ex : ℕ} (hex : ex < n) (work : ℕ → ℕ) (v : ℕ) :
    busy n (Function.update work ex v) + (if work ex = 0 then 0 else 1) =
      busy n work + if v = 0 then 0 else 1 := by
  have hmem : ex ∈ Finset.range n := Finset.mem_range.mpr hex
  have hrest : ∑ x ∈ (Finset.range n).erase ex, (if Function.update work ex v x ≠ 0 then 1 else 0) =
      ∑ x ∈ (Finset.range n).erase ex, if work x ≠ 0 then 1 else 0 :=
    Finset.sum_congr rfl fun x hx => by rw [Function.update_of_ne (Finset.ne_of_mem_erase hx)]
  rw [busy, busy, Finset.card_filter, Finset.card_filter, ← Finset.add_sum_erase _ _ hmem,
    ← Finset.add_sum_erase _ (fun x => if work x ≠ 0 then 1 else 0) hmem, hrest,
    Function.update_self]
  split <;> split <;> simp_all <;> omega

theorem busy_succ {n : ℕ} {work : ℕ → ℕ} (h : work n = 0) : busy (n + 1) work = busy n work := by
  rw [busy, Finset.range_add_one, Finset.filter_insert, if_neg (not_not.mpr h), busy]

/-- **The accounts are right.**  Every function is unfinished or has ended, once; the counts of
the executors and of the pool are what they should be. -/
structure Right (a : Accounts) : Prop where
  once : (a.unfinished + a.ended).map Ticket.id = Multiset.range a.next_id
  known : ∀ ticket ∈ a.unfinished, ticket.ex < a.executors
  work : ∀ ex, a.work ex = a.unfinished.countP (·.ex = ex)
  use : a.use = (!a.stopped).toNat + busy a.executors a.work

/-- A function is given to an executor. -/
def give (a : Accounts) (ex : ℕ) : Accounts :=
  { a with
    unfinished := ⟨a.next_id, ex⟩ ::ₘ a.unfinished
    next_id := a.next_id + 1
    work := Function.update a.work ex (a.work ex + 1)
    use := if a.work ex + 1 = 1 then a.use + 1 else a.use }

/-- A function returns, and leaves `u` unfinished. -/
def back (a : Accounts) (ticket : Ticket) (u : Multiset Ticket) : Accounts :=
  { a with
    unfinished := u
    ended := ticket ::ₘ a.ended
    work := Function.update a.work ticket.ex (a.work ticket.ex - 1)
    use := if a.work ticket.ex - 1 = 0 then a.use - 1 else a.use }

inductive Step (a : Accounts) : Accounts → Prop
  | same : Step a a
  | fork : Step a { a with executors := a.executors + 1 }
  | give (ex : ℕ) (hex : ex < a.executors) : Step a (a.give ex)
  | back (ticket : Ticket) (u : Multiset Ticket) (h : a.unfinished = ticket ::ₘ u) :
      Step a (a.back ticket u)
  | stop (h : a.stopped = false) : Step a { a with use := a.use - 1, stopped := true }

variable {a b : Accounts}

theorem Right.work_of_ge (h : a.Right) {ex : ℕ} (hex : a.executors ≤ ex) : a.work ex = 0 := by
  rw [h.work, Multiset.countP_eq_zero]
  rintro ticket hticket rfl
  exact absurd (h.known ticket hticket) (Nat.not_lt.mpr hex)

theorem Right.fork (h : a.Right) : Right { a with executors := a.executors + 1 } where
  once := h.once
  known ticket hticket := Nat.lt_succ_of_lt (h.known ticket hticket)
  work := h.work
  use := by
    have hnew := h.work_of_ge le_rfl
    rw [h.use, busy_succ hnew]

theorem Right.give (h : a.Right) {ex : ℕ} (hex : ex < a.executors) : (a.give ex).Right where
  once := by
    rw [Accounts.give, Multiset.cons_add, Multiset.map_cons, h.once, Multiset.range_succ]
  known ticket hticket := by
    rcases Multiset.mem_cons.mp hticket with rfl | hticket
    · exact hex
    · exact h.known ticket hticket
  work x := by
    rw [Accounts.give, Multiset.countP_cons, ← h.work]
    rcases eq_or_ne x ex with rfl | hne
    · simp
    · simp [Function.update_of_ne hne, hne.symm]
  use := by
    have hbusy := busy_update hex a.work (a.work ex + 1)
    have huse := h.use
    rw [if_neg (Nat.succ_ne_zero _)] at hbusy
    simp only [Accounts.give]
    split at hbusy <;> split <;> omega

theorem Right.back (h : a.Right) {ticket : Ticket} {u : Multiset Ticket}
    (hu : a.unfinished = ticket ::ₘ u) : (a.back ticket u).Right where
  once := by
    rw [Accounts.back, ← h.once, hu, Multiset.add_cons, Multiset.cons_add]
  known t ht := h.known t (hu ▸ Multiset.mem_cons_of_mem ht)
  work x := by
    have hwork := h.work x
    rw [hu, Multiset.countP_cons] at hwork
    rcases eq_or_ne x ticket.ex with rfl | hne
    · simp only [Accounts.back, Function.update_self]
      rw [if_pos rfl] at hwork
      omega
    · simp only [Accounts.back, Function.update_of_ne hne]
      rwa [if_neg (Ne.symm hne), Nat.add_zero] at hwork
  use := by
    have hpos : a.work ticket.ex ≠ 0 := by
      rw [h.work, hu, Multiset.countP_cons, if_pos rfl]
      omega
    have hbusy := busy_update (h.known ticket (hu ▸ Multiset.mem_cons_self ticket u)) a.work
      (a.work ticket.ex - 1)
    have huse := h.use
    simp only [Accounts.back]
    rw [if_neg hpos] at hbusy
    split <;> split at hbusy <;> omega

theorem Right.step (h : a.Right) (hb : Step a b) : b.Right := by
  cases hb with
  | same => exact h
  | fork => exact h.fork
  | give ex hex => exact h.give hex
  | back ticket u hu => exact h.back hu
  | stop hs =>
    refine ⟨h.once, h.known, h.work, ?_⟩
    have huse := h.use
    rw [hs] at huse
    simp only [Bool.not_false, Bool.toNat_true, Bool.not_true, Bool.toNat_false] at huse ⊢
    omega

end Accounts

/-! ### The pool keeps its accounts right -/

section Total

variable {M : Type*} [AddCancelCommMonoid M] (w : Frame K → M)

/-- A sum over the frames of all threads. -/
def State.total (s : State P K G) : M := ∑ t, ((s.thread t).stack.map w).sum

omit [DecidableEq P] in
theorem total_congr (h : ∀ t, (s'.thread t).stack = (s.thread t).stack) :
    s'.total w = s.total w := by
  simp only [State.total, h]

variable (s : State P K G) (t : P) {fs : List (Frame K)}

theorem total_goto_add {m : M} (h : (fs.map w).sum = m + ((s.thread t).stack.map w).sum) :
    (s.goto t fs).total w = m + s.total w := by
  have hsum := sum_update (fun th : Thread K => (th.stack.map w).sum) s.thread t ⟨fs, false⟩
  rw [show (Thread.mk fs false).stack = fs from rfl, h, ← add_assoc] at hsum
  rw [add_comm m]
  exact add_right_cancel hsum

theorem total_goto (h : (fs.map w).sum = ((s.thread t).stack.map w).sum) :
    (s.goto t fs).total w = s.total w := by
  rw [total_goto_add w s t (h.trans (zero_add _).symm), zero_add]

theorem total_of_goto {m : M} (h : ((s.thread t).stack.map w).sum = m + (fs.map w).sum) :
    s.total w = m + (s.goto t fs).total w := by
  have hsum := sum_update (fun th : Thread K => (th.stack.map w).sum) s.thread t ⟨fs, false⟩
  rw [h, show (Thread.mk fs false).stack = fs from rfl, ← add_assoc] at hsum
  rw [add_comm m]
  exact (add_right_cancel hsum).symm

end Total

section

omit [Fintype P]

@[simp] theorem goto_thread : (s.goto t fs).thread t = ⟨fs, false⟩ := Function.update_self ..

theorem goto_stack : ((s.goto t fs).thread t).stack = fs := by rw [goto_thread]

theorem goto_thread_of_ne {q : P} (hq : q ≠ t) : (s.goto t fs).thread q = s.thread q :=
  Function.update_of_ne hq ..

@[simp] theorem begin_stack {k : K} {ticket : Ticket} :
    ((s.begin t fs k ticket).thread t).stack = .func k ticket (s.clock + 1) :: fs :=
  goto_stack

@[simp] theorem wake_stack (s : State P K G) (t q : P) :
    ((s.wake t).thread q).stack = (s.thread q).stack := by
  rcases eq_or_ne q t with rfl | hne
  · simp [State.wake]
  · simp [State.wake, Function.update_of_ne hne]

@[simp] theorem wait_stack (s : State P K G) (t q : P) :
    ((s.wait t).thread q).stack = (s.thread q).stack := by
  rcases eq_or_ne q t with rfl | hne
  · simp [State.wait]
  · simp [State.wait, Function.update_of_ne hne]

end

theorem notifyOne_cases {woken : Option P} (h : s.notifyOne woken = some s') :
    (∃ q, (s.thread q).waiting = true ∧ s' = s.wake q) ∨
      (∀ q, (s.thread q).waiting = false) ∧ s' = s := by
  cases woken with
  | some q =>
    simp only [State.notifyOne] at h
    split at h
    · exact Or.inl ⟨q, ‹_›, (Option.some.inj h).symm⟩
    · exact nomatch h
  | none =>
    simp only [State.notifyOne] at h
    split at h
    · exact Or.inr ⟨‹_›, (Option.some.inj h).symm⟩
    · exact nomatch h

def Frame.bodies : Frame K → ℕ
  | .body _ => 1
  | _ => 0

@[simp] theorem Frame.tickets_goto (fr : Frame K) (k : K) : (fr.goto k).tickets = fr.tickets := by
  cases fr <;> rfl

@[simp] theorem Frame.bodies_worker : (worker : Frame K).bodies = 0 := rfl

@[simp] theorem Frame.bodies_join (ex : ℕ) : (join ex : Frame K).bodies = 0 := rfl

@[simp] theorem Frame.bodies_body (k : K) : (body k).bodies = 1 := rfl

@[simp] theorem Frame.bodies_func (k : K) (ticket : Ticket) (stamp : ℕ) :
    (func k ticket stamp).bodies = 0 := rfl

@[simp] theorem Frame.bodies_goto (fr : Frame K) (k : K) : (fr.goto k).bodies = fr.bodies := by
  cases fr <;> rfl

@[simp] theorem Frame.tickets_worker : (worker : Frame K).tickets = 0 := rfl

@[simp] theorem Frame.tickets_join (ex : ℕ) : (join ex : Frame K).tickets = 0 := rfl

@[simp] theorem Frame.tickets_body (k : K) : (body k).tickets = 0 := rfl

@[simp] theorem Frame.tickets_func (k : K) (ticket : Ticket) (stamp : ℕ) :
    (func k ticket stamp).tickets = {ticket} := rfl

def State.accounts (s : State P K G) : Accounts where
  unfinished := (s.queue_.map Func.ticket : Multiset Ticket) + s.total Frame.tickets
  ended := s.ended
  next_id := s.next_id
  executors := s.executors
  work := s.work_count_
  use := s.use_count_
  stopped := s.stopped

omit [DecidableEq P] in
theorem accounts_congr (hstack : ∀ t, (s'.thread t).stack = (s.thread t).stack)
    (hqueue : s'.queue_ = s.queue_) (hended : s'.ended = s.ended) (hid : s'.next_id = s.next_id)
    (hex : s'.executors = s.executors) (hwork : s'.work_count_ = s.work_count_)
    (huse : s'.use_count_ = s.use_count_) (hstop : s'.stopped = s.stopped) :
    s'.accounts = s.accounts := by
  simp only [State.accounts, total_congr _ hstack, hqueue, hended, hid, hex, hwork, huse, hstop]

theorem accounts_wake (s : State P K G) (q : P) : (s.wake q).accounts = s.accounts :=
  accounts_congr (wake_stack s q) rfl rfl rfl rfl rfl rfl rfl

/-- A thread that changes its stack and gives back or takes no function. -/
theorem accounts_goto
    (h : (fs.map Frame.tickets).sum = ((s.thread t).stack.map Frame.tickets).sum) :
    (s.goto t fs).accounts = s.accounts := by
  have htotal := total_goto Frame.tickets s t h
  simp only [State.accounts, htotal]
  rfl

/-- A thread that begins a function. -/
theorem accounts_begin {k : K} {ticket : Ticket}
    (h : (fs.map Frame.tickets).sum = ((s.thread t).stack.map Frame.tickets).sum) :
    (s.begin t fs k ticket).accounts =
      { s.accounts with unfinished := ticket ::ₘ s.accounts.unfinished } := by
  have htotal : (({ s with clock := s.clock + 1 } : State P K G).goto t
      (.func k ticket (s.clock + 1) :: fs)).total Frame.tickets =
        {ticket} + s.total Frame.tickets :=
    total_goto_add Frame.tickets _ t (by simp [h])
  simp only [State.accounts, State.begin, htotal, ← Multiset.singleton_add]
  rw [add_left_comm]
  rfl

section

omit [DecidableEq P]

theorem accounts_doWorkFinished {ex : ℕ} (s : State P K G) :
    (s.doWorkFinished ex).accounts = { s.accounts with
      work := Function.update s.work_count_ ex (s.work_count_ ex - 1)
      use := if s.work_count_ ex - 1 = 0 then s.use_count_ - 1 else s.use_count_ } := by
  simp only [State.doWorkFinished, Function.update_self]
  split <;> rfl

theorem unfinished_enqueue (s : State P K G) (f : Func K) :
    (((s.queue_ ++ [f]).map Func.ticket : List Ticket) : Multiset Ticket) + s.total Frame.tickets =
      f.ticket ::ₘ s.accounts.unfinished := by
  rw [List.map_append, ← Multiset.coe_add, List.map_singleton, Multiset.coe_singleton,
    add_right_comm, add_comm, Multiset.singleton_add]
  rfl

theorem accounts_push {ex : ℕ} {f : K} (s : State P K G) :
    (({ s with
      next_id := s.next_id + 1
      queue_ := s.queue_ ++ [⟨s.next_id, ex, f⟩] } : State P K G).doWorkStarted ex).accounts =
      s.accounts.give ex :=
  congrArg (fun u => { s.accounts.give ex with unfinished := u })
    (unfinished_enqueue s ⟨s.next_id, ex, f⟩)

theorem unfinished_dequeue {f : Func K} {rest : List (Func K)} (hqueue : s.queue_ = f :: rest) :
    s.accounts.unfinished =
      f.ticket ::ₘ (({ s with queue_ := rest } : State P K G).accounts.unfinished) := by
  simp only [State.accounts, hqueue, List.map_cons, ← Multiset.cons_coe, Multiset.cons_add]
  rfl

end

theorem accounts_stop
    (h : (fs.map Frame.tickets).sum = ((s.thread t).stack.map Frame.tickets).sum) :
    (({ s with use_count_ := s.use_count_ - 1, stopped := true } : State P K G).goto t
      fs).notifyAll.accounts = { s.accounts with use := s.use_count_ - 1, stopped := true } :=
  congrArg (fun u => { s.accounts with
    unfinished := (s.queue_.map Func.ticket : Multiset Ticket) + u
    use := s.use_count_ - 1
    stopped := true }) (total_goto Frame.tickets s t h)

/-- **The steps of the pool are steps of its accounts.** -/
theorem accounts_step {l : Label P} (hbody : s.total Frame.bodies = (!s.stopped).toNat)
    (h : Steps act threadCount s l s') : Accounts.Step s.accounts s'.accounts := by
  cases h with
  | fork hstack hcode hact =>
    rw [accounts_goto (by simp [hstack])]
    exact .fork
  | begin hstack hcode hact hex hlong =>
    rw [accounts_begin (by simp [State.doWorkStarted, hstack])]
    exact .give _ hex
  | @push t woken fr fs c f k ex s' hstack hcode hact hex hnotify =>
    have hgive : s'.accounts = s.accounts.give ex := by
      rcases notifyOne_cases hnotify with ⟨q, -, rfl⟩ | ⟨-, rfl⟩
      · rw [accounts_wake, accounts_goto (by simp [State.doWorkStarted, hstack]), accounts_push]
      · rw [accounts_goto (by simp [State.doWorkStarted, hstack]), accounts_push]
    rw [hgive]
    exact .give _ hex
  | @join t woken fr fs c k ex hstack hcode hact hex =>
    rw [accounts_goto (by simp [hstack])]
    exact .same
  | update hstack hcode hact =>
    rw [accounts_goto (by simp [hstack])]
    exact .same
  | @ret t woken fs c ticket stamp hstack hact =>
    have htotal : s.total Frame.tickets = {ticket} + (s.goto t fs).total Frame.tickets :=
      total_of_goto Frame.tickets s t (by simp [hstack])
    rw [accounts_doWorkFinished]
    refine .back ticket _ ?_
    simp only [State.accounts, htotal]
    rw [add_left_comm, Multiset.singleton_add]
    rfl
  | @stop t woken fs c hstack hact =>
    have hbodies : s.total Frame.bodies = 1 + (s.goto t fs).total Frame.bodies :=
      total_of_goto Frame.bodies s t (by simp [hstack])
    have hopen : s.stopped = false := by
      cases hstop : s.stopped with
      | false => rfl
      | true =>
        rw [hstop] at hbody
        simp at hbody
        omega
    have hstep := Accounts.Step.stop (a := s.accounts) hopen
    rw [accounts_stop (by simp [hstack])]
    exact hstep
  | exit hawake hstack huse | joined hawake hstack hwork =>
    rw [accounts_goto (by simp [hstack])]
    exact .same
  | wait hawake hstack hloop hqueue =>
    rw [accounts_congr (wait_stack s _) rfl rfl rfl rfl rfl rfl rfl]
    exact .same
  | @take t fr fs f rest hawake hstack hloop hqueue =>
    rw [accounts_begin (by simp [hstack])]
    have hsame : s.accounts = { ({ s with queue_ := rest } : State P K G).accounts with
        unfinished := s.accounts.unfinished } := rfl
    rw [← unfinished_dequeue hqueue, ← hsame]
    exact .same
  | wake hwait =>
    rw [accounts_wake]
    exact .same

theorem bodies_step {l : Label P} (h : Steps act threadCount s l s')
    (hbody : s.total Frame.bodies = (!s.stopped).toNat) :
    s'.total Frame.bodies = (!s'.stopped).toNat := by
  have hgoto : ∀ (u : State P K G) (t : P) (fs : List (Frame K)), u.thread = s.thread →
      u.stopped = s.stopped →
      (fs.map Frame.bodies).sum = ((s.thread t).stack.map Frame.bodies).sum →
      (u.goto t fs).total Frame.bodies = (!(u.goto t fs).stopped).toNat := by
    intro u t fs hthread hstop hsum
    rw [total_goto Frame.bodies u t (hthread ▸ hsum),
      show (u.goto t fs).stopped = s.stopped from hstop, ← hbody, State.total, hthread]
    rfl
  cases h with
  | fork hstack hcode hact | update hstack hcode hact =>
    exact hgoto _ _ _ rfl rfl (by simp [hstack])
  | begin hstack hcode hact hex hlong =>
    exact hgoto _ _ _ rfl rfl (by simp [hstack])
  | @push t woken fr fs c f k ex s' hstack hcode hact hex hnotify =>
    rcases notifyOne_cases hnotify with ⟨q, -, rfl⟩ | ⟨-, rfl⟩
    · rw [total_congr _ (wake_stack _ q)]
      exact hgoto _ _ _ rfl rfl (by simp [hstack])
    · exact hgoto _ _ _ rfl rfl (by simp [hstack])
  | join hstack hcode hact hex => exact hgoto _ _ _ rfl rfl (by simp [hstack])
  | @ret t woken fs c ticket stamp hstack hact =>
    have hback := hgoto { s with ended := ticket ::ₘ s.ended } t fs rfl rfl
      (by simp [hstack])
    rw [State.doWorkFinished]
    dsimp only
    split
    · exact hback
    · exact hback
  | @stop t woken fs c hstack hact =>
    have htotal : s.total Frame.bodies = 1 + (s.goto t fs).total Frame.bodies :=
      total_of_goto Frame.bodies s t (by simp [hstack])
    have hle : (!s.stopped).toNat ≤ 1 := Bool.toNat_le _
    have hzero : (s.goto t fs).total Frame.bodies = 0 := by omega
    exact hzero
  | exit hawake hstack huse | joined hawake hstack hwork =>
    exact hgoto _ _ _ rfl rfl (by simp [hstack])
  | wait hawake hstack hloop hqueue =>
    rw [total_congr _ (wait_stack s _)]
    exact hbody
  | take hawake hstack hloop hqueue => exact hgoto _ _ _ rfl rfl (by simp [hstack])
  | wake hwait =>
    rw [total_congr _ (wake_stack s _)]
    exact hbody

variable {main : P} {k : K} {g : G}

/-- **The invariant.**  As long as the pool is not stopped, one thread runs `main`; and the
accounts are right. -/
structure Inv (s : State P K G) : Prop where
  body : s.total Frame.bodies = (!s.stopped).toNat
  right : s.accounts.Right

theorem Inv.step {l : Label P} (h : Inv s) (ht : s.next act threadCount l = some s') : Inv s' :=
  ⟨bodies_step (steps_of_next ht) h.body, h.right.step (accounts_step h.body (steps_of_next ht))⟩

theorem inv_initial (main : P) (k : K) (g : G) : Inv (State.initial main k g) where
  body := by
    have hthread : ∀ t, (((State.initial main k g).thread t).stack.map Frame.bodies).sum =
        if t = main then 1 else 0 := by
      intro t
      by_cases ht : t = main <;> simp [State.initial, ht]
    rw [State.total, Finset.sum_congr rfl fun t _ => hthread t]
    simp [State.initial]
  right := by
    have htotal : (State.initial main k g).total Frame.tickets = 0 :=
      Finset.sum_eq_zero fun t _ => by
        by_cases ht : t = main <;> simp [State.initial, ht]
    have hnone : (State.initial main k g).accounts.unfinished = 0 := by
      simp only [State.accounts, htotal]
      rfl
    refine ⟨?_, ?_, fun ex => ?_, ?_⟩
    · rw [hnone]
      rfl
    · rw [hnone]
      exact nofun
    · rw [hnone]
      rfl
    · rfl

theorem inv_of_reachable (h : (system act threadCount main k g).Reachable s) : Inv s :=
  h.invariant (fun _ hs => hs ▸ inv_initial main k g) fun _ _ _ _ hs ht => hs.step ht

theorem mem_tickets {fs : List (Frame K)} {ticket : Ticket} :
    ticket ∈ (fs.map Frame.tickets).sum ↔ ∃ c stamp, Frame.func c ticket stamp ∈ fs := by
  induction fs with
  | nil => simp
  | cons fr fs ih => cases fr <;> simp [ih, exists_or]

omit [DecidableEq P] in
/-- A function that has not returned is in the queue or on a stack. -/
theorem mem_unfinished {ticket : Ticket} : ticket ∈ s.accounts.unfinished ↔
    (∃ f ∈ s.queue_, f.ticket = ticket) ∨
      ∃ t c stamp, Frame.func c ticket stamp ∈ (s.thread t).stack := by
  simp [State.accounts, State.total, mem_tickets]

/-! ### What follows -/

/-- The functions that were given to executors so far. -/
def State.given (s : State P K G) : Multiset Ticket := s.accounts.unfinished + s.ended

theorem given_step {l : Label P} (hbody : s.total Frame.bodies = (!s.stopped).toNat)
    (h : Steps act threadCount s l s') {ticket : Ticket} (hticket : ticket ∈ s.given) :
    ticket ∈ s'.given := by
  have hstep := accounts_step hbody h
  show ticket ∈ s'.accounts.unfinished + s'.accounts.ended
  have hgiven : ticket ∈ s.accounts.unfinished + s.accounts.ended := hticket
  generalize s'.accounts = b at hstep ⊢
  generalize s.accounts = a at hstep hgiven
  cases hstep with
  | same | fork | stop hs => exact hgiven
  | give ex hex =>
    rw [Accounts.give, Multiset.cons_add]
    exact Multiset.mem_cons_of_mem hgiven
  | back ticket' u hu =>
    rw [hu] at hgiven
    rw [Accounts.back, Multiset.add_cons, ← Multiset.cons_add]
    exact hgiven

theorem given_of_run {ls : List (Label P)} (hinv : Inv s)
    (h : (system act threadCount main k g).Run s ls s') {ticket : Ticket}
    (hticket : ticket ∈ s.given) : ticket ∈ s'.given :=
  (h.invariant (P := fun u => Inv u ∧ ticket ∈ u.given)
    (fun _ _ _ hu ht => ⟨hu.1.step ht, given_step hu.1.body (steps_of_next ht) hu.2⟩)
    ⟨hinv, hticket⟩).2

omit [DecidableEq P] in
theorem Inv.not_unfinished (h : Inv s) {ex : ℕ} (hwork : s.work_count_ ex = 0) {ticket : Ticket}
    (hticket : ticket ∈ s.accounts.unfinished) : ticket.ex ≠ ex := by
  have hcount := h.right.work ex
  rw [show s.accounts.work ex = 0 from hwork, eq_comm, Multiset.countP_eq_zero] at hcount
  exact hcount ticket hticket

/-- **A join returns when every function of its executor is back.**  What was given to the
executor at any time before has ended then. -/
theorem join_returns {u : State P K G} {ls : List (Label P)} {ex : ℕ}
    (hu : (system act threadCount main k g).Reachable u)
    (hrun : (system act threadCount main k g).Run u ls s)
    (hstack : (s.thread t).stack = .join ex :: fs)
    (hstep : s.next act threadCount (.loop t) = some s') (hreturn : (s'.thread t).stack = fs)
    {ticket : Ticket} (hgiven : ticket ∈ u.given) (hex : ticket.ex = ex) : ticket ∈ s'.ended := by
  have hinv : Inv s := inv_of_reachable (hu.run hrun)
  have hmem := given_of_run (inv_of_reachable hu) hrun hgiven
  have hne : ∀ fs' : List (Frame K), fs' ++ .join ex :: fs ≠ fs := fun fs' h => by
    have hlen := congrArg List.length h
    rw [List.length_append, List.length_cons] at hlen
    omega
  cases steps_of_loop hstep with
  | exit hawake hstack' huse =>
    rw [hstack'] at hstack
    exact nomatch hstack
  | joined hawake hstack' hwork =>
    obtain ⟨hjoin, -⟩ := List.cons.inj (hstack.symm.trans hstack')
    obtain rfl := Frame.join.inj hjoin
    exact (Multiset.mem_add.mp hmem).resolve_left fun hun => hinv.not_unfinished hwork hun hex
  | wait hawake hstack' hloop hqueue =>
    rw [wait_stack, hstack] at hreturn
    exact absurd hreturn (hne [])
  | take hawake hstack' hloop hqueue =>
    obtain ⟨rfl, rfl⟩ := List.cons.inj (hstack.symm.trans hstack')
    rw [begin_stack] at hreturn
    exact absurd hreturn (hne [_])

/-- Code that gives one function to an executor and joins it. -/
def one : ℕ → Unit → Act ℕ Unit
  | 0, _ => .fork fun _ => 1
  | 1, _ => .execute 0 4 2
  | 2, _ => .join 0 3
  | _, _ => .ret

theorem join_returns_one : ∃ u s s' : State (Fin 2) ℕ Unit,
    (⟨0, 0⟩ : Ticket) ∈ u.given ∧ (⟨0, 0⟩ : Ticket) ∈ s'.ended ∧
      s.next one 0 (.loop 0) = some s' := by
  -- `main` joins, the thread of the pool runs the function, and `main` goes on
  let before : List (Label (Fin 2)) := [.code 0 none, .code 0 none]
  let during : List (Label (Fin 2)) := [.code 0 none, .loop 1, .code 1 none]
  let u := (before.foldlM (State.next one 0) (.initial 0 0 ())).get (by decide)
  let s := (during.foldlM (State.next one 0) u).get (by decide)
  let s' := (s.next one 0 (.loop 0)).get (by decide)
  have hu : (system one 0 0 0 ()).Reachable u := ⟨_, before, rfl, System.run_ofStep (by rfl)⟩
  have hrun : (system one 0 0 0 ()).Run u during s := System.run_ofStep (by rfl)
  have hgiven : (⟨0, 0⟩ : Ticket) ∈ u.given := by decide
  have hstack : (s.thread 0).stack = [.join 0, .body 3] := by rfl
  have hstep : s.next one 0 (.loop 0) = some s' := by rfl
  have hreturn : (s'.thread 0).stack = [.body 3] := by rfl
  exact ⟨u, s, s', hgiven, join_returns hu hrun hstack hstep hreturn hgiven rfl, hstep⟩

section

omit [DecidableEq P]

theorem Inv.use (h : Inv s) :
    s.use_count_ = (!s.stopped).toNat + Accounts.busy s.executors s.work_count_ := h.right.use

/-- A pool that is out of use is stopped, and has nothing left to do. -/
theorem Inv.done (h : Inv s) (hzero : s.use_count_ = 0) :
    s.stopped = true ∧ s.accounts.unfinished = 0 := by
  obtain ⟨hstop, hbusy⟩ := Nat.add_eq_zero_iff.mp (h.use.symm.trans hzero)
  refine ⟨by simpa using hstop, Multiset.eq_zero_of_forall_notMem fun ticket hticket => ?_⟩
  have hempty := Finset.card_eq_zero.mp hbusy
  have hwork : s.work_count_ ticket.ex = 0 := by
    by_contra hne
    have hmem : ticket.ex ∈ (Finset.range s.executors).filter fun ex => s.work_count_ ex ≠ 0 :=
      Finset.mem_filter.mpr ⟨Finset.mem_range.mpr (h.right.known ticket hticket), hne⟩
    rw [hempty] at hmem
    exact absurd hmem (Finset.notMem_empty _)
  exact h.not_unfinished hwork hticket rfl

theorem Inv.work_eq_zero (h : Inv s) (hnone : s.accounts.unfinished = 0) (ex : ℕ) :
    s.work_count_ ex = 0 := by
  rw [show s.work_count_ ex = _ from h.right.work ex, hnone, Multiset.countP_zero]

theorem Inv.use_eq_zero (h : Inv s) (hstop : s.stopped = true)
    (hnone : s.accounts.unfinished = 0) : s.use_count_ = 0 := by
  simp [h.use, hstop, Accounts.busy, h.work_eq_zero hnone]

end

/-- **The threads of the pool end when it is stopped and every function is back**; each function
that was ever given to it has been run then, and run once. -/
theorem pool_ends (h : (system act threadCount main k g).Reachable s) :
    (s.use_count_ = 0 ↔ s.stopped = true ∧ s.accounts.unfinished = 0) ∧
      (s.use_count_ = 0 → s.ended.map Ticket.id = Multiset.range s.next_id) := by
  have hinv : Inv s := inv_of_reachable h
  refine ⟨⟨hinv.done, fun ⟨hstop, hnone⟩ => hinv.use_eq_zero hstop hnone⟩, fun hzero => ?_⟩
  have honce := hinv.right.once
  rw [(hinv.done hzero).2, zero_add] at honce
  exact honce

theorem pool_ends_one : ∃ s : State (Fin 2) ℕ Unit, s.stopped = true ∧ s.next_id = 1 ∧
    s.ended.map Ticket.id = Multiset.range s.next_id := by
  let ls : List (Label (Fin 2)) := [.code 0 none, .code 0 none, .code 0 none, .loop 1,
    .code 1 none, .loop 0, .code 0 none]
  let s := (ls.foldlM (State.next one 0) (.initial 0 0 ())).get (by decide)
  have hs : (system one 0 0 0 ()).Reachable s := ⟨_, ls, rfl, System.run_ofStep (by rfl)⟩
  obtain ⟨hiff, honce⟩ := pool_ends hs
  have huse : s.use_count_ = 0 := by decide
  exact ⟨s, (hiff.mp huse).1, by decide, honce huse⟩

end CppProgramming.Executors.ForkJoin
