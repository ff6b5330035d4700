import CppProgramming.Executors.ForkJoin
import Mathlib.Data.Finset.Max

/-!
# The pool of `fork_join.cpp` does not deadlock

A thread that joins an executor may take any function out of the queue, and can go on only
when that function is back, which may join another executor.  So functions wait for each
other: a function waits for those of the executor that it joins, and for the one that runs
on top of it.

If every function joins only executors that it has constructed, as `fork_join_sort` does, then it
waits only for functions that were begun after it (`Stack`), whoever has given them to the
executor.  Among the functions that are begun the last one waits for none.  And no wake-up is
lost: as long as there is something in the queue, a thread is awake that will come to take it
(`Live.awake`).
-/

namespace CppProgramming.Executors.ForkJoin

open CppProgramming.Lib

variable {P K G : Type*} [DecidableEq P] [Fintype P] {act : K → G → Act K G} {threadCount : ℕ}
  {s s' : State P K G} {t : P} {main : P} {k : K} {g : G}

/-- The executor that a step joins. -/
def Act.joined : Act K G → Option ℕ
  | join ex _ => some ex
  | _ => none

/-- A function joins only the executors that it has constructed. -/
def State.OwnOnly (act : K → G → Act K G) (s : State P K G) : Label P → Prop
  | .code t _ => ∀ fr ∈ (s.thread t).stack.head?, ∀ c ∈ fr.code, ∀ ex ∈ (act c s.mem).joined,
      s.owner ex = fr.stamp
  | .loop _ | .wake _ => True

instance State.decidableOwnOnly (act : K → G → Act K G) (s : State P K G) :
    ∀ l, Decidable (s.OwnOnly act l)
  | .code t _ => inferInstanceAs (Decidable (∀ fr ∈ (s.thread t).stack.head?, ∀ c ∈ fr.code,
      ∀ ex ∈ (act c s.mem).joined, s.owner ex = fr.stamp))
  | .loop _ | .wake _ => isTrue trivial

/-- The runs in which the functions join only executors of their own. -/
def nested (act : K → G → Act K G) (threadCount : ℕ) (main : P) (k : K) (g : G) :
    System (State P K G) (Label P) :=
  (system act threadCount main k g).restrict (State.OwnOnly act)

/-! ### The stacks -/

/-- **A stack.**  A function was begun after everything below it and after the function that
owns its executor; a join stands on the function that owns the executor.  The stamps are at
most `n`. -/
inductive Stack (owner : ℕ → ℕ) (executors : ℕ) : ℕ → List (Frame K) → Prop
  | nil {n : ℕ} : Stack owner executors n []
  | worker {n : ℕ} : Stack owner executors n [.worker]
  | body {n : ℕ} (k : K) : Stack owner executors n [.body k]
  | func {m n : ℕ} {k : K} {ticket : Ticket} {stamp : ℕ} {fs : List (Frame K)}
      (h : Stack owner executors m fs) (hbelow : m < stamp) (hle : stamp ≤ n)
      (hex : ticket.ex < executors) (howner : owner ticket.ex < stamp) :
      Stack owner executors n (.func k ticket stamp :: fs)
  | join {n ex : ℕ} {fr : Frame K} {fs : List (Frame K)} (h : Stack owner executors n (fr :: fs))
      (hcode : fr.code.isSome) (hex : ex < executors) (howner : owner ex = fr.stamp) :
      Stack owner executors n (.join ex :: fr :: fs)

namespace Stack

variable {owner : ℕ → ℕ} {executors m n : ℕ} {fr : Frame K} {fs : List (Frame K)}

theorem mono (h : Stack owner executors m fs) (hmn : m ≤ n) : Stack owner executors n fs := by
  induction h generalizing n with
  | nil => exact .nil
  | worker => exact .worker
  | body k => exact .body k
  | func h hbelow hle hex howner => exact .func h hbelow (hle.trans hmn) hex howner
  | join _ hcode hex howner ih => exact .join (ih hmn) hcode hex howner

theorem goto (h : Stack owner executors n (fr :: fs)) (hcode : fr.code.isSome) (k : K) :
    Stack owner executors n (fr.goto k :: fs) := by
  cases h with
  | worker => exact nomatch hcode
  | body => exact .body k
  | func h hbelow hle hex howner => exact .func h hbelow hle hex howner
  | join => exact nomatch hcode

theorem tail (h : Stack owner executors n (fr :: fs)) : Stack owner executors n fs := by
  cases h with
  | worker | body => exact .nil
  | func h hbelow hle => exact h.mono (Nat.le_of_lt (Nat.lt_of_lt_of_le hbelow hle))
  | join h => exact h

/-- A new executor. -/
theorem fork (h : Stack owner executors n fs) (stamp : ℕ) :
    Stack (Function.update owner executors stamp) (executors + 1) n fs := by
  induction h with
  | nil => exact .nil
  | worker => exact .worker
  | body k => exact .body k
  | func _ hbelow hle hex howner ih =>
    refine .func ih hbelow hle (Nat.lt_succ_of_lt hex) ?_
    rwa [Function.update_of_ne (Nat.ne_of_lt hex)]
  | join _ hcode hex howner ih =>
    refine .join ih hcode (Nat.lt_succ_of_lt hex) ?_
    rwa [Function.update_of_ne (Nat.ne_of_lt hex)]

theorem worker_top (h : Stack owner executors n (.worker :: fs)) : fs = [] := by
  cases h
  rfl

theorem join_top {ex : ℕ} (h : Stack owner executors n (.join ex :: fs)) :
    ∃ fr fs', fs = fr :: fs' ∧ Stack owner executors n (fr :: fs') ∧ fr.code.isSome ∧
      owner ex = fr.stamp := by
  cases h with
  | join h hcode hex howner => exact ⟨_, _, rfl, h, hcode, howner⟩

theorem stamp_le (h : Stack owner executors n fs) {c : K} {ticket : Ticket} {stamp : ℕ}
    (hmem : .func c ticket stamp ∈ fs) : stamp ≤ n := by
  induction h with
  | nil => exact absurd hmem (by simp)
  | worker | body => exact absurd hmem (by simp)
  | func _ hbelow hle _ _ ih =>
    rcases List.mem_cons.mp hmem with heq | hmem
    · cases heq
      exact hle
    · exact (ih hmem).trans (Nat.le_of_lt (Nat.lt_of_lt_of_le hbelow hle))
  | join _ _ _ _ ih =>
    rcases List.mem_cons.mp hmem with heq | hmem
    · exact nomatch heq
    · exact ih hmem

/-- Under a frame with code no function was begun later. -/
theorem stamp_le_top (h : Stack owner executors n (fr :: fs)) (hcode : fr.code.isSome) {c : K}
    {ticket : Ticket} {stamp : ℕ} (hmem : .func c ticket stamp ∈ fr :: fs) : stamp ≤ fr.stamp := by
  cases h with
  | worker => exact nomatch hcode
  | body => exact absurd hmem (by simp)
  | func h hbelow hle hex howner =>
    rcases List.mem_cons.mp hmem with heq | hmem
    · cases heq
      exact le_rfl
    · exact (h.stamp_le hmem).trans (Nat.le_of_lt hbelow)
  | join => exact nomatch hcode

theorem stamp_top_le (h : Stack owner executors n (fr :: fs)) : fr.stamp ≤ n := by
  cases h with
  | worker | body => exact Nat.zero_le _
  | func _ _ hle => exact hle
  | join => exact Nat.zero_le _

theorem owner_lt (h : Stack owner executors n fs) {c : K} {ticket : Ticket} {stamp : ℕ}
    (hmem : .func c ticket stamp ∈ fs) : owner ticket.ex < stamp := by
  induction h with
  | nil => exact absurd hmem (by simp)
  | worker | body => exact absurd hmem (by simp)
  | func _ _ _ _ howner ih =>
    rcases List.mem_cons.mp hmem with heq | hmem
    · cases heq
      exact howner
    · exact ih hmem
  | join _ _ _ _ ih =>
    rcases List.mem_cons.mp hmem with heq | hmem
    · exact nomatch heq
    · exact ih hmem

end Stack

/-! ### The threads -/

/-- The thread comes back to a loop that goes on. -/
def Useful (work : ℕ → ℕ) (fs : List (Frame K)) : Prop :=
  .worker ∈ fs ∨ ∃ ex, .join ex ∈ fs ∧ work ex ≠ 0

/-- What a thread that waits has on top of its stack. -/
def Asleep (s : State P K G) (fs : List (Frame K)) : Prop :=
  (∃ fs', fs = .worker :: fs' ∧ s.use_count_ ≠ 0) ∨
    ∃ ex fs', fs = .join ex :: fs' ∧ s.work_count_ ex ≠ 0

/-- A thread that waits has a reason to, and a thread of the pool ends only when nothing is left
to do. -/
structure Seated (main : P) (s : State P K G) : Prop where
  stack : ∀ t, Stack s.owner s.executors s.clock (s.thread t).stack
  owner : ∀ ex < s.executors, s.owner ex ≤ s.clock
  asleep : ∀ t, (s.thread t).waiting = true → Asleep s (s.thread t).stack
  worker : ∀ t, t ≠ main → .worker ∈ (s.thread t).stack ∨ s.use_count_ = 0

/-- **No wake-up is lost.**  While there is something in the queue, and somebody waits, a thread
is awake that comes to take it. -/
def Awake (s : State P K G) : Prop :=
  s.queue_ ≠ [] → (∃ t, (s.thread t).waiting = true) →
    ∃ t, (s.thread t).waiting = false ∧ Useful s.work_count_ (s.thread t).stack

omit [DecidableEq P] [Fintype P] in
theorem asleep_loop {fr : Frame K} (h : Asleep s (fr :: fs)) : fr.code = none := by
  rcases h with ⟨fs', heq, -⟩ | ⟨ex, fs', heq, -⟩
  · cases heq
    rfl
  · cases heq
    rfl

omit [DecidableEq P] [Fintype P] in
theorem useful_of_asleep (h : Asleep s fs) : Useful s.work_count_ fs := by
  rcases h with ⟨fs', rfl, -⟩ | ⟨ex, fs', rfl, hwork⟩
  · exact Or.inl (List.mem_cons_self ..)
  · exact Or.inr ⟨ex, List.mem_cons_self .., hwork⟩

theorem useful_cons {work : ℕ → ℕ} {fr : Frame K} (hcode : fr.code.isSome) :
    Useful work (fr :: fs) ↔ Useful work fs := by
  cases fr with
  | worker | join => exact nomatch hcode
  | body | func => simp [Useful]

theorem useful_join {work : ℕ → ℕ} {ex : ℕ} (h : Useful work fs) :
    Useful work (.join ex :: fs) := by
  rcases h with h | ⟨e, he, hne⟩
  · exact Or.inl (List.mem_cons_of_mem _ h)
  · exact Or.inr ⟨e, List.mem_cons_of_mem _ he, hne⟩

theorem useful_mono {work work' : ℕ → ℕ} (h : Useful work fs)
    (hwork : ∀ ex, work ex ≠ 0 → work' ex ≠ 0) : Useful work' fs := by
  rcases h with h | ⟨ex, hex, hne⟩
  · exact Or.inl h
  · exact Or.inr ⟨ex, hex, hwork ex hne⟩

@[simp] theorem Frame.stamp_goto (fr : Frame K) (k : K) : (fr.goto k).stamp = fr.stamp := by
  cases fr <;> rfl

theorem Frame.code_goto {fr : Frame K} (hcode : fr.code.isSome) (k : K) :
    (fr.goto k).code.isSome := by
  cases fr with
  | worker | join => exact nomatch hcode
  | body | func => rfl

omit [DecidableEq P] in
theorem queue_of_unfinished (h : s.accounts.unfinished = 0) : s.queue_ = [] :=
  List.eq_nil_iff_forall_not_mem.mpr fun f hf => by
    have hmem : f.ticket ∈ s.accounts.unfinished := mem_unfinished.mpr (Or.inl ⟨f, hf, rfl⟩)
    rw [h] at hmem
    exact absurd hmem (Multiset.notMem_zero _)

/-- A frame with code holds the pool in use. -/
theorem Inv.use_ne_zero (h : Inv s) {fr : Frame K} (hstack : (s.thread t).stack = fr :: fs)
    (hcode : fr.code.isSome) : s.use_count_ ≠ 0 := by
  intro hzero
  obtain ⟨hstop, hnone⟩ := h.done hzero
  cases fr with
  | worker | join => exact nomatch hcode
  | func c ticket stamp =>
    have hmem : ticket ∈ s.accounts.unfinished :=
      mem_unfinished.mpr (Or.inr ⟨t, c, stamp, hstack ▸ List.mem_cons_self ..⟩)
    rw [hnone] at hmem
    exact absurd hmem (Multiset.notMem_zero _)
  | body c =>
    have htotal : s.total Frame.bodies = 1 + (s.goto t fs).total Frame.bodies :=
      total_of_goto Frame.bodies s t (by simp [hstack])
    have hbody := h.body
    rw [hstop] at hbody
    simp at hbody
    omega

section Goto

variable {u : State P K G}

section

omit [Fintype P]

theorem forall_goto {Q : P → Thread K → Prop} (hthread : u.thread = s.thread) (ht : Q t ⟨fs, false⟩)
    (h : ∀ q, q ≠ t → Q q (s.thread q)) (q : P) : Q q ((u.goto t fs).thread q) := by
  rcases eq_or_ne q t with rfl | hne
  · rwa [goto_thread]
  · rw [goto_thread_of_ne hne, hthread]
    exact h q hne

/-- A thread that goes on while no count drops to zero. -/
theorem Seated.goto (h : Seated main s) (hthread : u.thread = s.thread)
    (hstack : ∀ q, Stack u.owner u.executors u.clock (s.thread q).stack)
    (hfs : Stack u.owner u.executors u.clock fs) (howner : ∀ ex < u.executors, u.owner ex ≤ u.clock)
    (hwork : ∀ ex, s.work_count_ ex ≠ 0 → u.work_count_ ex ≠ 0)
    (huse : s.use_count_ = 0 ↔ u.use_count_ = 0)
    (hworker : .worker ∈ (s.thread t).stack → .worker ∈ fs ∨ s.use_count_ = 0) :
    Seated main (u.goto t fs) where
  stack := forall_goto (Q := fun _ th => Stack u.owner u.executors u.clock th.stack) hthread hfs
    fun q _ => hstack q
  owner := howner
  asleep := by
    refine forall_goto (Q := fun _ th => th.waiting = true → Asleep _ th.stack) hthread nofun
      fun q _ hwait => ?_
    rcases h.asleep q hwait with ⟨fs', heq, hne⟩ | ⟨ex, fs', heq, hne⟩
    · exact Or.inl ⟨fs', heq, fun hzero => hne (huse.mpr hzero)⟩
    · exact Or.inr ⟨ex, fs', heq, hwork ex hne⟩
  worker := by
    refine forall_goto (Q := fun q th => q ≠ main → .worker ∈ th.stack ∨ u.use_count_ = 0) hthread
      (fun hq => ?_) fun q _ hq => (h.worker q hq).imp_right huse.mp
    rcases h.worker t hq with hmem | hzero
    · exact (hworker hmem).imp_right huse.mp
    · exact Or.inr (huse.mp hzero)

/-- The useful thread is still there, or it is the one that has gone on. -/
theorem Awake.goto (h : Awake s) (hthread : u.thread = s.thread)
    (hawake : (s.thread t).waiting = false)
    (hwork : ∀ ex, s.work_count_ ex ≠ 0 → u.work_count_ ex ≠ 0)
    (huseful : u.queue_ ≠ [] → Useful u.work_count_ fs ∨
      s.queue_ ≠ [] ∧ (Useful s.work_count_ (s.thread t).stack → Useful u.work_count_ fs)) :
    Awake (u.goto t fs) := by
  rintro hqueue ⟨q, hq⟩
  have hwaits : ∃ q, (s.thread q).waiting = true := by
    rcases eq_or_ne q t with rfl | hne
    · rw [goto_thread] at hq
      exact nomatch hq
    · rw [goto_thread_of_ne hne, hthread] at hq
      exact ⟨q, hq⟩
  have hself (hfs : Useful u.work_count_ fs) : ∃ q, ((u.goto t fs).thread q).waiting = false ∧
      Useful u.work_count_ ((u.goto t fs).thread q).stack :=
    ⟨t, by rw [goto_thread], by rwa [goto_stack]⟩
  rcases huseful hqueue with hfs | ⟨hold, hkeep⟩
  · exact hself hfs
  · obtain ⟨r, hr, hru⟩ := h hold hwaits
    rcases eq_or_ne r t with rfl | hne
    · exact hself (hkeep hru)
    · refine ⟨r, ?_, ?_⟩
      · rwa [goto_thread_of_ne hne, hthread]
      · rw [goto_thread_of_ne hne, hthread]
        exact useful_mono hru hwork

theorem wake_eq_goto (s : State P K G) (t : P) : s.wake t = s.goto t (s.thread t).stack := rfl

theorem wait_thread_of_ne {q : P} (hq : q ≠ t) : (s.wait t).thread q = s.thread q :=
  Function.update_of_ne hq ..

theorem Seated.wake (h : Seated main s) (q : P) : Seated main (s.wake q) where
  stack r := by
    rw [wake_stack]
    exact h.stack r
  owner := h.owner
  asleep r hr := by
    rw [wake_stack]
    rcases eq_or_ne r q with rfl | hne
    · rw [wake_eq_goto, goto_thread] at hr
      exact nomatch hr
    · rw [wake_eq_goto, goto_thread_of_ne hne] at hr
      exact h.asleep r hr
  worker r hr := by
    rw [wake_stack]
    exact h.worker r hr

theorem Seated.wait (h : Seated main s) (ht : Asleep s (s.thread t).stack) :
    Seated main (s.wait t) where
  stack r := by
    rw [wait_stack]
    exact h.stack r
  owner := h.owner
  asleep r hr := by
    rw [wait_stack]
    rcases eq_or_ne r t with rfl | hne
    · exact ht
    · rw [wait_thread_of_ne hne] at hr
      exact h.asleep r hr
  worker r hr := by
    rw [wait_stack]
    exact h.worker r hr

end

section

omit [DecidableEq P] [Fintype P]

theorem Seated.notifyAll (hstack : ∀ t, Stack s.owner s.executors s.clock (s.thread t).stack)
    (howner : ∀ ex < s.executors, s.owner ex ≤ s.clock)
    (hworker : ∀ t, t ≠ main → .worker ∈ (s.thread t).stack ∨ s.use_count_ = 0) :
    Seated main s.notifyAll :=
  ⟨hstack, howner, nofun, hworker⟩

theorem Awake.of_queue_nil (h : s.queue_ = []) : Awake s := fun hne => absurd h hne

theorem Awake.of_all (h : ∀ t, (s.thread t).waiting = false) : Awake s :=
  fun _ ⟨t, ht⟩ => absurd ht (by simp [h t])

end

omit [Fintype P] in
theorem Awake.wake (h : Awake s) (q : P) : Awake (s.wake q) := by
  rintro hqueue ⟨r, hr⟩
  have hwaits : ∃ r, (s.thread r).waiting = true := by
    rcases eq_or_ne r q with rfl | hne
    · rw [wake_eq_goto, goto_thread] at hr
      exact nomatch hr
    · rw [wake_eq_goto, goto_thread_of_ne hne] at hr
      exact ⟨r, hr⟩
  obtain ⟨p, hp, huse⟩ := h hqueue hwaits
  refine ⟨p, ?_, by rwa [wake_stack]⟩
  rcases eq_or_ne p q with rfl | hne
  · rw [wake_eq_goto, goto_thread]
  · rwa [wake_eq_goto, goto_thread_of_ne hne]

end Goto

omit [DecidableEq P] [Fintype P] in
theorem Seated.awake_of_code (h : Seated main s) {fr : Frame K}
    (hstack : (s.thread t).stack = fr :: fs) (hcode : fr.code.isSome) :
    (s.thread t).waiting = false := by
  cases hwait : (s.thread t).waiting with
  | false => rfl
  | true =>
    have hloop := asleep_loop (hstack ▸ h.asleep t hwait)
    rw [hloop] at hcode
    exact nomatch hcode

omit [DecidableEq P] [Fintype P] in
/-- A function is begun on top of a stack. -/
theorem Seated.begin_stack (h : Seated main s) {ticket : Ticket} {c : K}
    (hfs : Stack s.owner s.executors s.clock fs) (hex : ticket.ex < s.executors) :
    Stack s.owner s.executors (s.clock + 1) (.func c ticket (s.clock + 1) :: fs) :=
  .func hfs (Nat.lt_add_one _) le_rfl hex (Nat.lt_succ_of_le (h.owner _ hex))

theorem owner_fork {owner : ℕ → ℕ} {m n clock : ℕ} (h : ∀ ex < n, owner ex ≤ clock)
    (hm : m ≤ clock) : ∀ ex < n + 1, Function.update owner n m ex ≤ clock := by
  intro ex hex
  rcases eq_or_ne ex n with rfl | hne
  · rwa [Function.update_self]
  · rw [Function.update_of_ne hne]
    exact h ex (by omega)

theorem work_update {work : ℕ → ℕ} {e v : ℕ} (hv : v ≠ 0) (ex : ℕ) (h : work ex ≠ 0) :
    Function.update work e v ex ≠ 0 := by
  rcases eq_or_ne ex e with rfl | hne
  · rwa [Function.update_self]
  · rwa [Function.update_of_ne hne]

omit [DecidableEq P] [Fintype P] in
theorem use_doWorkStarted (s : State P K G) (e : ℕ) (h : s.use_count_ ≠ 0) :
    (s.doWorkStarted e).use_count_ ≠ 0 := by
  simp only [State.doWorkStarted]
  split
  · exact Nat.succ_ne_zero _
  · exact h

theorem mem_worker_goto {fr : Frame K} (hcode : fr.code.isSome) (k : K) :
    .worker ∈ fr :: fs ↔ .worker ∈ fr.goto k :: fs := by
  cases fr with
  | worker | join => exact nomatch hcode
  | body | func => simp [Frame.goto]

/-- What a frame with code does while no count drops to zero. -/
theorem Seated.code (h : Seated main s) (hinv : Inv s) {u : State P K G} {fr : Frame K}
    {fs' : List (Frame K)} (hstack : (s.thread t).stack = fr :: fs) (hcode : fr.code.isSome)
    (hthread : u.thread = s.thread)
    (hstacks : ∀ q, Stack u.owner u.executors u.clock (s.thread q).stack)
    (hfs : Stack u.owner u.executors u.clock fs')
    (howner : ∀ ex < u.executors, u.owner ex ≤ u.clock)
    (hwork : ∀ ex, s.work_count_ ex ≠ 0 → u.work_count_ ex ≠ 0)
    (huse : s.use_count_ ≠ 0 → u.use_count_ ≠ 0)
    (hworker : .worker ∈ fr :: fs → .worker ∈ fs') : Seated main (u.goto t fs') := by
  have hne := hinv.use_ne_zero hstack hcode
  exact h.goto hthread hstacks hfs howner hwork (by simp [hne, huse hne])
    fun hmem => Or.inl (hworker (hstack ▸ hmem))

theorem Seated.step {l : Label P} (h : Seated main s) (hinv : Inv s)
    (hown : State.OwnOnly act s l) (ht : Steps act threadCount s l s') : Seated main s' := by
  cases ht with
  | @fork t woken fr fs c k hstack hcode hact =>
    have hsome : fr.code.isSome := by simp [hcode]
    have htop := hstack ▸ h.stack t
    exact h.code hinv hstack hsome rfl (fun q => (h.stack q).fork _) ((htop.goto hsome _).fork _)
      (owner_fork h.owner htop.stamp_top_le) (fun _ => id) id (mem_worker_goto hsome _).mp
  | @begin t woken fr fs c f k ex hstack hcode hact hex hlong =>
    have hsome : fr.code.isSome := by simp [hcode]
    have htop := hstack ▸ h.stack t
    exact h.code hinv hstack hsome rfl (fun q => (h.stack q).mono (Nat.le_succ _))
      (h.begin_stack (htop.goto hsome _) hex) (fun ex hex => (h.owner ex hex).trans (Nat.le_succ _))
      (work_update (Nat.succ_ne_zero _)) (use_doWorkStarted _ _)
      fun hmem => List.mem_cons_of_mem _ ((mem_worker_goto hsome _).mp hmem)
  | @push t woken fr fs c f k ex s' hstack hcode hact hex hnotify =>
    have hsome : fr.code.isSome := by simp [hcode]
    have htop := hstack ▸ h.stack t
    have hpush := h.code (u := ({ s with
        next_id := s.next_id + 1
        queue_ := s.queue_ ++ [⟨s.next_id, ex, f⟩] } : State P K G).doWorkStarted ex) hinv hstack
      hsome rfl h.stack (htop.goto hsome k) h.owner (work_update (Nat.succ_ne_zero _))
      (use_doWorkStarted _ _) (mem_worker_goto hsome _).mp
    rcases notifyOne_cases hnotify with ⟨q, -, rfl⟩ | ⟨-, rfl⟩
    · exact hpush.wake q
    · exact hpush
  | @join t woken fr fs c k ex hstack hcode hact hex =>
    have hsome : fr.code.isSome := by simp [hcode]
    have htop := hstack ▸ h.stack t
    refine h.code hinv hstack hsome rfl h.stack
      (.join (htop.goto hsome _) (Frame.code_goto hsome _) hex ?_) h.owner (fun _ => id) id
      fun hmem => List.mem_cons_of_mem _ ((mem_worker_goto hsome _).mp hmem)
    rw [Frame.stamp_goto]
    exact hown fr (by simp [hstack]) c hcode ex (by simp [hact, Act.joined])
  | @update t woken fr fs c k g hstack hcode hact =>
    have hsome : fr.code.isSome := by simp [hcode]
    have htop := hstack ▸ h.stack t
    exact h.code hinv hstack hsome rfl h.stack (htop.goto hsome _) h.owner (fun _ => id) id
      (mem_worker_goto hsome _).mp
  | @ret t woken fs c ticket stamp hstack hact =>
    have htop := hstack ▸ h.stack t
    have hne := hinv.use_ne_zero hstack rfl
    have hmem : .worker ∈ (s.thread t).stack → .worker ∈ fs := fun hmem => by
      rw [hstack] at hmem
      exact (List.mem_cons.mp hmem).resolve_left (by simp)
    rw [State.doWorkFinished]
    dsimp only
    split
    · refine Seated.notifyAll ?_ h.owner ?_
      · exact forall_goto (Q := fun _ th => Stack s.owner s.executors s.clock th.stack) rfl
          htop.tail fun q _ => h.stack q
      · exact forall_goto
          (Q := fun q th => q ≠ main → .worker ∈ th.stack ∨ s.use_count_ - 1 = 0) rfl
          (fun hq => Or.inl (hmem ((h.worker t hq).resolve_right hne)))
          fun q _ hq => Or.inl ((h.worker q hq).resolve_right hne)
    · refine h.goto (u := { s with
        ended := ticket ::ₘ s.ended
        work_count_ := Function.update s.work_count_ ticket.ex (s.work_count_ ticket.ex - 1) }) rfl
        h.stack htop.tail h.owner (work_update ?_) Iff.rfl fun hw => Or.inl (hmem hw)
      rename_i hzero
      rwa [Function.update_self] at hzero
  | @stop t woken fs c hstack hact =>
    have hne := hinv.use_ne_zero hstack rfl
    have htop := hstack ▸ h.stack t
    refine Seated.notifyAll ?_ h.owner ?_
    · exact forall_goto (Q := fun _ th => Stack s.owner s.executors s.clock th.stack) rfl htop.tail
        fun q _ => h.stack q
    · refine forall_goto (Q := fun q th => q ≠ main → .worker ∈ th.stack ∨ s.use_count_ - 1 = 0) rfl
        (fun hq => ?_) fun q _ hq => Or.inl ((h.worker q hq).resolve_right hne)
      have hmem := (h.worker t hq).resolve_right hne
      rw [hstack] at hmem
      exact Or.inl ((List.mem_cons.mp hmem).resolve_left (by simp))
  | @exit t fs hawake hstack huse =>
    have htop := hstack ▸ h.stack t
    exact h.goto rfl h.stack htop.tail h.owner (fun _ => id) Iff.rfl fun _ => Or.inr huse
  | @joined t fs ex hawake hstack hwork =>
    have htop := hstack ▸ h.stack t
    refine h.goto rfl h.stack htop.tail h.owner (fun _ => id) Iff.rfl fun hmem => Or.inl ?_
    rw [hstack] at hmem
    exact (List.mem_cons.mp hmem).resolve_left (by simp)
  | @wait t fr fs hawake hstack hloop hqueue =>
    refine h.wait ?_
    rw [hstack]
    rcases hloop with ⟨rfl, huse⟩ | ⟨ex, rfl, hwork⟩
    · exact Or.inl ⟨fs, rfl, Nat.ne_of_gt huse⟩
    · exact Or.inr ⟨ex, fs, rfl, Nat.ne_of_gt hwork⟩
  | @take t fr fs f rest hawake hstack hloop hqueue =>
    have hex : f.ex < s.executors :=
      hinv.right.known f.ticket (mem_unfinished.mpr (Or.inl ⟨f, by simp [hqueue], rfl⟩))
    exact h.goto rfl (fun q => (h.stack q).mono (Nat.le_succ _))
      (hstack ▸ h.begin_stack (h.stack t) hex)
      (fun ex hex => (h.owner ex hex).trans (Nat.le_succ _))
      (fun _ => id) Iff.rfl fun hmem => Or.inl (List.mem_cons_of_mem _ (hstack ▸ hmem))
  | wake hwait => exact h.wake _

omit [Fintype P] in
/-- A frame with code goes on, and gives nothing to the queue. -/
theorem Awake.code (h : Awake s) (hseat : Seated main s) {u : State P K G} {fr : Frame K}
    {fs' : List (Frame K)} (hstack : (s.thread t).stack = fr :: fs) (hcode : fr.code.isSome)
    (hthread : u.thread = s.thread) (hqueue : u.queue_ = s.queue_)
    (hwork : ∀ ex, s.work_count_ ex ≠ 0 → u.work_count_ ex ≠ 0)
    (huseful : Useful u.work_count_ fs → Useful u.work_count_ fs') : Awake (u.goto t fs') := by
  refine h.goto hthread (hseat.awake_of_code hstack hcode) hwork
    fun hne => Or.inr ⟨hqueue ▸ hne, fun hold => ?_⟩
  rw [hstack] at hold
  exact huseful (useful_mono ((useful_cons hcode).mp hold) hwork)

theorem Awake.step {l : Label P} (h : Awake s) (hseat : Seated main s) (hinv : Inv s)
    (ht : Steps act threadCount s l s') : Awake s' := by
  cases ht with
  | @fork t woken fr fs c k hstack hcode hact =>
    have hsome : fr.code.isSome := by simp [hcode]
    exact h.code hseat hstack hsome rfl rfl (fun _ => id)
      (useful_cons (Frame.code_goto hsome _)).mpr
  | @begin t woken fr fs c f k ex hstack hcode hact hex hlong =>
    have hsome : fr.code.isSome := by simp [hcode]
    exact h.code hseat hstack hsome rfl rfl (work_update (Nat.succ_ne_zero _)) fun hold =>
      (useful_cons rfl).mpr ((useful_cons (Frame.code_goto hsome _)).mpr hold)
  | @push t woken fr fs c f k ex s' hstack hcode hact hex hnotify =>
    rcases notifyOne_cases hnotify with ⟨q, hq, rfl⟩ | ⟨hall, rfl⟩
    · have hne : q ≠ t := fun heq => by
        rw [heq, goto_thread] at hq
        cases hq
      have hwait : (s.thread q).waiting = true := by
        rw [goto_thread_of_ne hne] at hq
        exact hq
      refine fun _ _ => ⟨q, by rw [wake_eq_goto, goto_thread], ?_⟩
      rw [wake_stack, goto_thread_of_ne hne]
      exact useful_mono (useful_of_asleep (hseat.asleep q hwait)) (work_update (Nat.succ_ne_zero _))
    · exact .of_all hall
  | @join t woken fr fs c k ex hstack hcode hact hex =>
    have hsome : fr.code.isSome := by simp [hcode]
    exact h.code hseat hstack hsome rfl rfl (fun _ => id) fun hold =>
      useful_join ((useful_cons (Frame.code_goto hsome _)).mpr hold)
  | @update t woken fr fs c k g hstack hcode hact =>
    have hsome : fr.code.isSome := by simp [hcode]
    exact h.code hseat hstack hsome rfl rfl (fun _ => id)
      (useful_cons (Frame.code_goto hsome _)).mpr
  | @ret t woken fs c ticket stamp hstack hact =>
    rw [State.doWorkFinished]
    dsimp only
    split
    · exact .of_all fun _ => rfl
    · rename_i hzero
      rw [Function.update_self] at hzero
      exact h.code (u := { s with
        ended := ticket ::ₘ s.ended
        work_count_ := Function.update s.work_count_ ticket.ex (s.work_count_ ticket.ex - 1) })
        hseat hstack rfl rfl rfl (work_update hzero) id
  | stop hstack hact => exact .of_all fun _ => rfl
  | @exit t fs hawake hstack huse =>
    have hqueue : s.queue_ = [] := queue_of_unfinished (hinv.done huse).2
    exact .of_queue_nil hqueue
  | @joined t fs ex hawake hstack hwork =>
    refine h.goto rfl hawake (fun _ => id) fun hne => Or.inr ⟨hne, fun hold => ?_⟩
    rw [hstack] at hold
    rcases hold with hmem | ⟨e, hmem, hne⟩
    · exact Or.inl ((List.mem_cons.mp hmem).resolve_left (by simp))
    · refine Or.inr ⟨e, (List.mem_cons.mp hmem).resolve_left fun heq => hne ?_, hne⟩
      rw [Frame.join.inj heq]
      exact hwork
  | wait hawake hstack hloop hqueue => exact .of_queue_nil hqueue
  | @take t fr fs f rest hawake hstack hloop hqueue =>
    refine h.goto rfl hawake (fun _ => id) fun _ => Or.inl ((useful_cons rfl).mpr ?_)
    rcases hloop with ⟨rfl, -⟩ | ⟨ex, rfl, hwork⟩
    · exact Or.inl (List.mem_cons_self ..)
    · exact Or.inr ⟨ex, List.mem_cons_self .., Nat.ne_of_gt hwork⟩
  | wake hwait => exact h.wake _

/-! ### No deadlock -/

/-- Everything that holds in the runs. -/
structure Live (main : P) (s : State P K G) : Prop where
  inv : Inv s
  seated : Seated main s
  awake : Awake s

theorem live_initial (main : P) (k : K) (g : G) : Live main (State.initial main k g) where
  inv := inv_initial main k g
  seated := by
    refine ⟨fun t => ?_, nofun, nofun, fun t ht => Or.inl ?_⟩
    · simp only [State.initial]
      split
      · exact .body k
      · exact .worker
    · simp [State.initial, ht]
  awake := .of_queue_nil rfl

theorem Live.step {l : Label P} (h : Live main s) (hown : State.OwnOnly act s l)
    (ht : s.next act threadCount l = some s') : Live main s' where
  inv := h.inv.step ht
  seated := h.seated.step h.inv hown (steps_of_next ht)
  awake := h.awake.step h.seated h.inv (steps_of_next ht)

theorem live_of_reachable (h : (nested act threadCount main k g).Reachable s) : Live main s :=
  h.invariant (fun _ hs => hs ▸ live_initial main k g) fun _ _ _ _ hs ht => hs.step ht.2 ht.1

namespace Live

variable (h : Live main s) (hall : ∀ t, (s.thread t).waiting = false → (s.thread t).stack = [])

include h hall

section

omit [DecidableEq P]

theorem queue_nil {w : P} (hw : w ≠ main) : s.queue_ = [] := by
  by_contra hne
  by_cases hwaits : ∃ t, (s.thread t).waiting = true
  · obtain ⟨t, ht, huse⟩ := h.awake hne hwaits
    rw [hall t ht] at huse
    simp [Useful] at huse
  · have hempty : (s.thread w).stack = [] :=
      hall w (Bool.not_eq_true _ ▸ fun hwait => hwaits ⟨w, hwait⟩)
    rcases h.seated.worker w hw with hmem | hzero
    · rw [hempty] at hmem
      exact absurd hmem List.not_mem_nil
    · exact hne (queue_of_unfinished (h.inv.done hzero).2)

/-- A function that waits, waits for one that was begun later. -/
theorem later (hqueue : s.queue_ = []) {c : K} {ticket : Ticket} {stamp : ℕ}
    (hmem : .func c ticket stamp ∈ (s.thread t).stack) :
    ∃ t' c' ticket' stamp', Frame.func c' ticket' stamp' ∈ (s.thread t').stack ∧
      stamp < stamp' := by
  have hwait : (s.thread t).waiting = true := by
    by_contra hawake
    rw [hall t (Bool.not_eq_true _ ▸ hawake)] at hmem
    exact absurd hmem List.not_mem_nil
  have hstack := h.seated.stack t
  rcases h.seated.asleep t hwait with ⟨fs, heq, -⟩ | ⟨ex, fs, heq, hwork⟩
  · rw [heq] at hstack hmem
    rw [hstack.worker_top] at hmem
    exact absurd hmem (by simp)
  · rw [heq] at hstack hmem
    obtain ⟨fr, fs, rfl, hbelow, hcode, howner⟩ := hstack.join_top
    have hle : stamp ≤ fr.stamp :=
      hbelow.stamp_le_top hcode ((List.mem_cons.mp hmem).resolve_left nofun)
    -- something of the executor is left, and as the queue is empty it is on a stack
    obtain ⟨ticket', hticket', hex⟩ : ∃ ticket' ∈ s.accounts.unfinished, ticket'.ex = ex := by
      rw [show s.work_count_ ex = _ from h.inv.right.work ex] at hwork
      exact Multiset.countP_pos.mp (Nat.pos_of_ne_zero hwork)
    rcases mem_unfinished.mp hticket' with ⟨f, hf, -⟩ | ⟨t', c', stamp', hmem'⟩
    · rw [hqueue] at hf
      exact absurd hf List.not_mem_nil
    · refine ⟨t', c', ticket', stamp', hmem', ?_⟩
      have hlt := (h.seated.stack t').owner_lt hmem'
      rw [hex] at hlt
      omega

theorem no_func (hqueue : s.queue_ = []) {c : K} {ticket : Ticket} {stamp : ℕ} :
    .func c ticket stamp ∉ (s.thread t).stack := by
  induction hn : s.clock - stamp using Nat.strong_induction_on generalizing t c ticket stamp with
  | h n ih =>
    intro hmem
    obtain ⟨t', c', ticket', stamp', hmem', hlt⟩ := h.later hall hqueue hmem
    have hle := (h.seated.stack t').stamp_le hmem'
    exact ih (s.clock - stamp') (by omega) rfl hmem'

end

end Live

omit [DecidableEq P] in
/-- A thread that has not ended and does not wait. -/
theorem Live.exists_awake (h : Live main s) {w : P} (hw : w ≠ main)
    (hrun : ∃ t, (s.thread t).stack ≠ []) :
    ∃ t, (s.thread t).waiting = false ∧ (s.thread t).stack ≠ [] := by
  by_contra hnone
  have hall : ∀ t, (s.thread t).waiting = false → (s.thread t).stack = [] := fun t ht => by
    by_contra hne
    exact hnone ⟨t, ht, hne⟩
  have hqueue := h.queue_nil hall hw
  have hdone : s.accounts.unfinished = 0 :=
    Multiset.eq_zero_of_forall_notMem fun ticket hticket => by
      rcases mem_unfinished.mp hticket with ⟨f, hf, -⟩ | ⟨t, c, stamp, hmem⟩
      · rw [hqueue] at hf
        exact absurd hf List.not_mem_nil
      · exact h.no_func hall hqueue hmem
  -- who waits now is a thread of the pool with nothing on its stack but its loop
  have hidle : ∀ t, (s.thread t).stack = [] ∨
      (s.thread t).stack = [.worker] ∧ s.use_count_ ≠ 0 := fun t => by
    cases hwait : (s.thread t).waiting with
    | false => exact Or.inl (hall t hwait)
    | true =>
      rcases h.seated.asleep t hwait with ⟨fs, heq, huse⟩ | ⟨ex, fs, -, hwork⟩
      · have htop := heq ▸ h.seated.stack t
        rw [htop.worker_top] at heq
        exact Or.inr ⟨heq, huse⟩
      · exact absurd (h.inv.work_eq_zero hdone ex) hwork
  have hbodies : s.total Frame.bodies = 0 := Finset.sum_eq_zero fun t _ => by
    rcases hidle t with heq | ⟨heq, -⟩ <;> simp [heq]
  have hstop : s.stopped = true := by
    have hbody := h.inv.body
    rw [hbodies] at hbody
    cases hs : s.stopped with
    | true => rfl
    | false =>
      rw [hs] at hbody
      exact nomatch hbody
  obtain ⟨t, ht⟩ := hrun
  rcases hidle t with heq | ⟨-, huse⟩
  · exact ht heq
  · exact huse (h.inv.use_eq_zero hstop hdone)

/-- **The pool does not deadlock.**  If every function joins only executors of its own, and there
is a thread besides `main`, then as long as a thread has not ended, some thread is there that has
not ended and does not wait. -/
theorem no_deadlock {w : P} (hw : w ≠ main) (h : (nested act threadCount main k g).Reachable s)
    (hrun : ∃ t, (s.thread t).stack ≠ []) :
    ∃ t, (s.thread t).waiting = false ∧ (s.thread t).stack ≠ [] :=
  (live_of_reachable h).exists_awake hw hrun

theorem no_deadlock_one : ∃ s : State (Fin 2) ℕ Unit, (s.thread 0).waiting = true ∧
    ∃ t, (s.thread t).waiting = false ∧ (s.thread t).stack ≠ [] := by
  -- `main` joins and waits, while the thread of the pool runs the function
  let ls : List (Label (Fin 2)) := [.code 0 none, .code 0 none, .code 0 none, .loop 1, .loop 0]
  let s := (ls.foldlM (State.next one 0) (.initial 0 0 ())).get (by decide)
  have hs : (nested one 0 0 0 ()).Reachable s := ⟨_, ls, rfl, System.run_restrict (by rfl)⟩
  have hstack : (s.thread 0).stack = [.join 0, .body 3] := by rfl
  have hrun : (s.thread 0).stack ≠ [] := hstack ▸ List.cons_ne_nil _ _
  exact ⟨s, by decide, no_deadlock (w := 1) (by decide) hs ⟨0, hrun⟩⟩

end CppProgramming.Executors.ForkJoin
