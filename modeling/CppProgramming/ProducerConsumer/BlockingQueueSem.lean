import CppProgramming.Lib.SemQueue

/-!
# `BlockingQueue` over a semaphore

`put` and `take` of `blocking_queue_semaphore.h`: a `std::queue` without a bound, a mutex
around each access to it, and the semaphore `not_empty`, which `put` posts behind the mutex
and `take` waits for in front of it.  Each call of the library is a step, and so is what
stands between `lock` and `unlock`.  `front` and `pop` of an empty queue are undefined.

With what the threads have put and taken in place of the queue this is the queue of
`SemQueue` without a bound, step by step (`simulation`), so its counts are those of the
semaphore and the mutex here.  Only a `sem_post` that fails, at `SEM_VALUE_MAX`, is one that the
queue of `SemQueue` gets and this one does not (`State.lost`): an item is then announced by
nobody.  None fails as long as no more items are in the queue than the semaphore can count.
-/

namespace CppProgramming.ProducerConsumer.BlockingQueueSem

open CppProgramming.Lib

variable {Pid V : Type*}

/-- The next step of a thread, outside the calls of the queue or inside one. -/
inductive Pc (V : Type*)
  | idle
  | putLock (item : V)
  | putPush (item : V)
  | putUnlock
  | putPost
  | takeWait
  | takeLock
  | takePop
  | takeUnlock (item : V)
  | ret (item : Option V)
  | undefined
deriving DecidableEq

/-- The queue and its threads; `puts` and `takes` are who has pushed and popped what, in this
order, and `lost` is how often `sem_post` has failed. -/
structure State (Pid V : Type*) where
  queue : List V
  mutex : Bool
  notEmpty : ℕ
  puts : List (Pid × V)
  takes : List (Pid × V)
  lost : ℕ
  pc : Pid → Pc V

inductive Label (Pid V : Type*)
  | put (q : Pid) (item : V)
  | take (q : Pid)
  | step (q : Pid)
  | ret (q : Pid)

variable [DecidableEq Pid]

namespace State

def goto (s : State Pid V) (q : Pid) (c : Pc V) : State Pid V :=
  { s with pc := Function.update s.pc q c }

/-- `pthread_mutex_lock` -/
def lock (s : State Pid V) (q : Pid) (c : Pc V) : Option (State Pid V) :=
  if s.mutex then none else some ({ s with mutex := true }.goto q c)

/-- `pthread_mutex_unlock` -/
def unlock (s : State Pid V) (q : Pid) (c : Pc V) : State Pid V :=
  { s with mutex := false }.goto q c

/-- `sem_post`, whose result `put` does not look at. -/
def post (s : State Pid V) : State Pid V :=
  if s.notEmpty < SemQueue.semValueMax then { s with notEmpty := s.notEmpty + 1 }
  else { s with lost := s.lost + 1 }

/-- A step of `put` or `take`. -/
def step (s : State Pid V) (q : Pid) : Option (State Pid V) :=
  match s.pc q with
  | .putLock item => s.lock q (.putPush item)
  | .putPush item =>
    some ({ s with queue := s.queue ++ [item], puts := s.puts ++ [(q, item)] }.goto q .putUnlock)
  | .putUnlock => some (s.unlock q .putPost)
  | .putPost => some (s.post.goto q (.ret none))
  | .takeWait =>
    if s.notEmpty = 0 then none
    else some ({ s with notEmpty := s.notEmpty - 1 }.goto q .takeLock)
  | .takeLock => s.lock q .takePop
  | .takePop =>
    match s.queue with
    | [] => some (s.goto q .undefined)
    | item :: rest =>
      some ({ s with queue := rest, takes := s.takes ++ [(q, item)] }.goto q (.takeUnlock item))
  | .takeUnlock item => some (s.unlock q (.ret (some item)))
  | .idle | .ret _ | .undefined => none

def next (s : State Pid V) : Label Pid V → Option (State Pid V)
  | .put q item => match s.pc q with
    | .idle => some (s.goto q (.putLock item))
    | _ => none
  | .take q => match s.pc q with
    | .idle => some (s.goto q .takeWait)
    | _ => none
  | .step q => s.step q
  | .ret q => match s.pc q with
    | .ret _ => some (s.goto q .idle)
    | _ => none

/-- What the thread's last `take` popped. -/
def lastTake (s : State Pid V) (q : Pid) : Option V :=
  (s.takes.filter fun take => take.1 = q).getLast?.map Prod.snd

/-- The thread is inside neither `put` nor `take`. -/
def Outside (s : State Pid V) (q : Pid) : Prop := s.pc q = .idle ∨ ∃ item, s.pc q = .ret item

/-- The thread is blocked in `sem_wait`. -/
def Blocked (s : State Pid V) (q : Pid) : Prop := s.pc q = .takeWait ∧ s.notEmpty = 0

end State

/-- `BlockingQueue()`, with any threads that call `put` and `take` whenever they like. -/
def initial : State Pid V := ⟨[], false, 0, [], [], 0, fun _ => .idle⟩

def system : System (State Pid V) (Label Pid V) := System.ofStep (· = initial) State.next

/-! ### The queue of `SemQueue` -/

/-- Threads that make any calls and remember nothing. -/
def client : SemQueue.Client Pid V Unit where
  init _ := ()
  calls _ _ _ := True
  after _ _ _ := ()

def Pc.abs : Pc V → SemQueue.Pc V
  | .idle | .undefined => .idle
  | .putLock item => .putMutex item
  | .putPush item => .putIn item
  | .putUnlock => .putPushed
  | .putPost => .putFull
  | .takeWait => .takeFull
  | .takeLock => .takeMutex
  | .takePop => .takeIn
  | .takeUnlock item => .takePopped item
  | .ret item => .ret item

namespace State

variable {s t : State Pid V} {q : Pid} {c : Pc V}

def abs (s : State Pid V) : SemQueue.State Pid V Unit where
  shared :=
    ⟨if s.mutex then 0 else 1, 0, s.notEmpty + s.lost, s.puts.map Prod.snd, s.takes.length⟩
  pc q := (s.pc q).abs
  loc _ := ()

/-- What was pushed was popped or is in the queue, in this order. -/
def History (s : State Pid V) : Prop :=
  s.puts.map Prod.snd = s.takes.map Prod.snd ++ s.queue

omit [DecidableEq Pid] in
theorem abs_pc (h : s.pc q = c) : s.abs.pc q = c.abs := congrArg Pc.abs h

theorem abs_goto (s : State Pid V) (q : Pid) (c : Pc V) :
    (s.goto q c).abs = { s.abs with pc := Function.update s.abs.pc q c.abs } := by
  have hpc : (fun r => (Function.update s.pc q c r).abs) =
      Function.update (fun r => (s.pc r).abs) q c.abs :=
    funext (Function.apply_update (fun _ => Pc.abs) s.pc q c)
  rw [abs, goto, hpc]
  rfl

omit [DecidableEq Pid] in
/-- The next item to be popped is the first in the queue. -/
theorem History.head (h : s.History) : s.abs.shared.log[s.abs.shared.popped]? = s.queue.head? := by
  show (s.puts.map Prod.snd)[s.takes.length]? = _
  rw [show s.puts.map Prod.snd = _ from h, List.getElem?_append_right (by simp)]
  simp [List.head?_eq_getElem?]

omit [DecidableEq Pid] in
theorem abs_post (s : State Pid V) :
    s.post.abs = { s.abs with shared := { s.abs.shared with full := s.abs.shared.full + 1 } } := by
  rw [post]
  split
  · simp [abs, Nat.add_right_comm]
  · simp [abs, Nat.add_assoc]

omit [DecidableEq Pid] in
theorem post_eq (s : State Pid V) : s.post.queue = s.queue ∧ s.post.puts = s.puts ∧
    s.post.takes = s.takes ∧ s.post.pc = s.pc := by
  rw [post]
  split <;> exact ⟨rfl, rfl, rfl, rfl⟩

theorem lock_eq_some (h : s.lock q c = some t) :
    s.mutex = false ∧ t = { s with mutex := true }.goto q c := by
  rw [lock] at h
  split at h
  · exact absurd h (by simp)
  · exact ⟨Bool.eq_false_iff.mpr ‹_›, (Option.some.inj h).symm⟩

/-- A step that takes the mutex is one of `SemQueue`. -/
theorem lock_abs {d : SemQueue.Pc V} (hpc : (s.pc q).abs = d)
    (hadv : ∀ m : SemQueue.Shared V, SemQueue.advance none m d =
      (SemQueue.wait m.mutex).map fun mutex => ({ m with mutex := mutex }, c.abs))
    (h : s.lock q c = some t) :
    t.queue = s.queue ∧ t.puts = s.puts ∧ t.takes = s.takes ∧
      (SemQueue.system none client).step s.abs (.step q) t.abs := by
  obtain ⟨hfree, rfl⟩ := lock_eq_some h
  refine ⟨rfl, rfl, rfl, _, c.abs, ?_, abs_goto _ _ _⟩
  show SemQueue.advance none _ (s.pc q).abs = _
  rw [hpc, hadv]
  simp [abs, hfree, SemQueue.wait]

/-- **Every step of a call is one of `SemQueue`**, as long as who holds the mutex has locked
it and who pops finds an item. -/
theorem step_abs (hs : s.History) (hpop : s.pc q = .takePop → s.queue ≠ [])
    (hmutex : (s.pc q).abs.inside = 1 → s.mutex = true) (ht : s.step q = some t) :
    t.History ∧ (SemQueue.system none client).step s.abs (.step q) t.abs := by
  cases hq : s.pc q with
  | idle | ret item | undefined => exact absurd ht (by simp [step, hq])
  | putLock item | takeLock =>
    simp only [step, hq] at ht
    obtain ⟨hqueue, hputs, htakes, hstep⟩ := lock_abs (congrArg Pc.abs hq) (fun _ => rfl) ht
    exact ⟨by rw [History, hqueue, hputs, htakes]; exact hs, hstep⟩
  | putPush item =>
    simp only [step, hq] at ht
    obtain rfl := Option.some.inj ht
    refine ⟨?_, _, _, ?_, abs_goto _ _ _⟩
    · show (s.puts ++ [(q, item)]).map Prod.snd = s.takes.map Prod.snd ++ (s.queue ++ [item])
      rw [List.map_append, hs, List.append_assoc]
      rfl
    · show SemQueue.advance none _ (s.pc q).abs = _
      simp [hq, Pc.abs, SemQueue.advance, abs]
  | putUnlock | takeUnlock item =>
    simp only [step, hq] at ht
    obtain rfl := Option.some.inj ht
    have hheld : s.mutex = true := hmutex (by rw [hq]; rfl)
    refine ⟨hs, _, _, ?_, abs_goto _ _ _⟩
    show SemQueue.advance none _ (s.pc q).abs = _
    simp [hq, Pc.abs, SemQueue.advance, abs, hheld]
  | putPost =>
    simp only [step, hq] at ht
    obtain rfl := Option.some.inj ht
    obtain ⟨hqueue, hputs, htakes, -⟩ := s.post_eq
    refine ⟨?_, { s.abs.shared with full := s.abs.shared.full + 1 }, Pc.abs (.ret none), ?_, ?_⟩
    · show s.post.puts.map Prod.snd = s.post.takes.map Prod.snd ++ s.post.queue
      rw [hqueue, hputs, htakes]
      exact hs
    · show SemQueue.advance none _ (s.pc q).abs = _
      rw [hq]
      rfl
    · rw [abs_goto, abs_post]
  | takeWait =>
    simp only [step, hq] at ht
    split at ht
    · exact absurd ht (by simp)
    · obtain rfl := Option.some.inj ht
      have hpos := Nat.pos_of_ne_zero ‹_›
      have hfull : s.notEmpty + s.lost - 1 = s.notEmpty - 1 + s.lost := by omega
      refine ⟨hs, _, _, ?_, abs_goto _ _ _⟩
      show SemQueue.advance none _ (s.pc q).abs = _
      simp [hq, Pc.abs, SemQueue.advance, abs, SemQueue.wait, hpos, hfull]
  | takePop =>
    obtain ⟨item, rest, hqueue⟩ := List.exists_cons_of_ne_nil (hpop hq)
    simp only [step, hq, hqueue] at ht
    obtain rfl := Option.some.inj ht
    refine ⟨?_, _, _, ?_, abs_goto _ _ _⟩
    · show s.puts.map Prod.snd = (s.takes ++ [(q, item)]).map Prod.snd ++ rest
      rw [hs, hqueue, List.map_append, List.append_assoc]
      rfl
    · show SemQueue.advance none _ (s.pc q).abs = _
      have hhead := hs.head
      rw [hqueue] at hhead
      simp only [hq, Pc.abs, SemQueue.advance]
      rw [hhead]
      simp [abs]

/-- What the counts of `SemQueue` say here. -/
structure Counts (s : State Pid V) : Prop where
  history : s.History
  popping : ∀ q, s.pc q = .takePop → s.queue ≠ []
  holding : ∀ q, (s.pc q).abs.inside = 1 → s.mutex = true

theorem counts_of_abs [Fintype Pid] (hs : s.History)
    (h : (SemQueue.system none client).Reachable s.abs) : s.Counts := by
  have hcounts := SemQueue.Counts.of_reachable h
  refine ⟨hs, fun q hq => ?_, fun q hq => ?_⟩
  · have hlt := hcounts.popped_lt (q := q) (congrArg Pc.abs hq)
    have hhead := hs.head
    rw [List.getElem?_eq_getElem hlt] at hhead
    rintro hnil
    simp [hnil] at hhead
  · by_contra hfree
    have hzero := hcounts.outside (by simp [abs, hfree]) q
    exact absurd (hq.symm.trans hzero) (by simp)

/-- **The queue with its semaphore simulates `SemQueue`.** -/
theorem simulation [Fintype Pid] :
    System.Simulation (system : System (State Pid V) (Label Pid V))
    (SemQueue.system none client) (fun s a => a = s.abs ∧ s.History) where
  init s hs := by
    obtain rfl := hs
    exact ⟨_, ⟨rfl, fun _ => rfl, rfl⟩, rfl, rfl⟩
  step := by
    rintro s l t _ _ hreach ⟨rfl, hs⟩ ht
    right
    have hnext : s.next l = some t := ht
    cases l with
    | put q item =>
      simp only [next] at hnext
      split at hnext
      · obtain rfl := Option.some.inj hnext
        exact ⟨.call q (.put item), _,
          ⟨abs_pc ‹s.pc q = .idle›, trivial, abs_goto s q (.putLock item)⟩, rfl, hs⟩
      · exact absurd hnext (by simp)
    | take q =>
      simp only [next] at hnext
      split at hnext
      · obtain rfl := Option.some.inj hnext
        exact ⟨.call q .take, _, ⟨abs_pc ‹s.pc q = .idle›, trivial, abs_goto s q .takeWait⟩,
          rfl, hs⟩
      · exact absurd hnext (by simp)
    | step q =>
      have hcounts := counts_of_abs hs hreach
      obtain ⟨hs', hstep⟩ := step_abs hs (hcounts.popping q) (hcounts.holding q) hnext
      exact ⟨.step q, _, hstep, rfl, hs'⟩
    | ret q =>
      simp only [next] at hnext
      split at hnext
      · obtain rfl := Option.some.inj hnext
        refine ⟨.ret q, _, ⟨_, abs_pc ‹s.pc q = .ret _›, ?_⟩, rfl, hs⟩
        rw [abs_goto, Function.update_eq_self_iff.mpr rfl]
        rfl
      · exact absurd hnext (by simp)

theorem counts_of_reachable [Fintype Pid] (h : system.Reachable s) :
    s.Counts ∧ SemQueue.Counts none s.abs := by
  obtain ⟨_, hreach, rfl, hs⟩ := simulation.reachable h
  exact ⟨counts_of_abs hs hreach, .of_reachable hreach⟩

/-! ### What a `take` returns -/

/-- Nobody has read an empty queue, and what a `take` is about to return it has popped. -/
structure Returns (s : State Pid V) : Prop where
  defined : ∀ q, s.pc q ≠ .undefined
  popped : ∀ q item, s.pc q = .takeUnlock item ∨ s.pc q = .ret (some item) →
    s.lastTake q = some item

theorem lastTake_append (s : State Pid V) (q r : Pid) (item : V) (rest : List V) :
    State.lastTake { s with queue := rest, takes := s.takes ++ [(q, item)] } r =
      if r = q then some item else s.lastTake r := by
  rw [lastTake, List.filter_append]
  by_cases hrq : r = q
  · subst hrq
    simp
  · simp [hrq, Ne.symm hrq, lastTake]

/-- One thread goes on to `c`, and pops nothing. -/
theorem Returns.goto (h : s.Returns) (htakes : t.takes = s.takes) (hpc : t.pc = s.pc)
    (hdefined : c ≠ .undefined) (hpopped : ∀ item, c = .takeUnlock item ∨ c = .ret (some item) →
      s.pc q = .takeUnlock item ∨ s.pc q = .ret (some item)) : (t.goto q c).Returns := by
  refine ⟨fun r => ?_, fun r item hr => ?_⟩
  · by_cases hrq : r = q
    · subst hrq
      simpa [State.goto] using hdefined
    · simpa [State.goto, hrq, hpc] using h.defined r
  · have hlast : (t.goto q c).lastTake r = s.lastTake r := by
      rw [lastTake, lastTake, ← htakes]
      rfl
    rw [hlast]
    by_cases hrq : r = q
    · subst hrq
      exact h.popped r item (hpopped item (by simpa [State.goto] using hr))
    · exact h.popped r item (by simpa [State.goto, hrq, hpc] using hr)

theorem Returns.lock (h : s.Returns) (hdefined : c ≠ .undefined)
    (hpopped : ∀ item, c ≠ .takeUnlock item ∧ c ≠ .ret (some item)) (ht : s.lock q c = some t) :
    t.Returns := by
  obtain ⟨-, rfl⟩ := lock_eq_some ht
  refine h.goto rfl rfl hdefined fun item hc => ?_
  exact hc.elim (fun hc => absurd hc (hpopped item).1) fun hc => absurd hc (hpopped item).2

theorem Returns.step (h : s.Returns) (hpop : s.pc q = .takePop → s.queue ≠ [])
    (ht : s.step q = some t) : t.Returns := by
  cases hq : s.pc q with
  | idle | ret item | undefined => exact absurd ht (by simp [State.step, hq])
  | putLock item | takeLock =>
    simp only [State.step, hq] at ht
    exact h.lock (by simp) (by simp) ht
  | putPush item | putUnlock =>
    simp only [State.step, hq] at ht
    obtain rfl := Option.some.inj ht
    exact h.goto rfl rfl (by simp) (by simp)
  | putPost =>
    simp only [State.step, hq] at ht
    obtain rfl := Option.some.inj ht
    obtain ⟨-, -, htakes, hpc⟩ := s.post_eq
    exact h.goto htakes hpc (by simp) (by simp)
  | takeWait =>
    simp only [State.step, hq] at ht
    split at ht
    · exact absurd ht (by simp)
    · obtain rfl := Option.some.inj ht
      exact h.goto rfl rfl (by simp) (by simp)
  | takeUnlock item =>
    simp only [State.step, hq] at ht
    obtain rfl := Option.some.inj ht
    exact h.goto rfl rfl (by simp) (by simp [hq])
  | takePop =>
    obtain ⟨item, rest, hqueue⟩ := List.exists_cons_of_ne_nil (hpop hq)
    simp only [State.step, hq, hqueue] at ht
    obtain rfl := Option.some.inj ht
    refine ⟨fun r => ?_, fun r item' hr => ?_⟩
    · by_cases hrq : r = q
      · subst hrq
        simp [State.goto]
      · simpa [State.goto, hrq] using h.defined r
    · have hlast := lastTake_append s q r item rest
      by_cases hrq : r = q
      · subst hrq
        rw [if_pos rfl] at hlast
        obtain rfl : item = item' := by simpa [State.goto] using hr
        exact hlast
      · rw [if_neg hrq] at hlast
        exact hlast.trans (h.popped r item' (by simpa [State.goto, hrq] using hr))

theorem Returns.of_reachable [Fintype Pid] (h : system.Reachable s) : s.Returns := by
  refine h.invariant (fun s hs => ?_) fun s l t hreach hs ht => ?_
  · obtain rfl := hs
    exact ⟨fun _ => by simp [initial], fun _ _ hq => by simp [initial] at hq⟩
  · have hnext : s.next l = some t := ht
    cases l with
    | put q item | take q =>
      simp only [next] at hnext
      split at hnext
      · obtain rfl := Option.some.inj hnext
        exact hs.goto rfl rfl (by simp) (by simp)
      · exact absurd hnext (by simp)
    | step q => exact hs.step ((counts_of_reachable hreach).1.popping q) hnext
    | ret q =>
      simp only [next] at hnext
      split at hnext
      · obtain rfl := Option.some.inj hnext
        exact hs.goto rfl rfl (by simp) (by simp)
      · exact absurd hnext (by simp)

omit [DecidableEq Pid] in
theorem item_eq_zero (h : s.Outside q ∨ s.Blocked q) : (s.abs.pc q).item = 0 := by
  rcases h with (hq | ⟨item, hq⟩) | ⟨hq, -⟩ <;> rw [abs_pc hq] <;> rfl

/-- The semaphore can count the items that are in the queue. -/
def Countable (s : State Pid V) : Prop :=
  s.puts.length ≤ s.takes.length + SemQueue.semValueMax

instance (s : State Pid V) : Decidable s.Countable :=
  inferInstanceAs (Decidable (_ ≤ _))

/-- The thread that is about to post has an item in the queue that is not counted yet. -/
theorem notEmpty_lt [Fintype Pid] (h : system.Reachable s) (hs : s.Countable) (hlost : s.lost = 0)
    (hq : s.pc q = .putPost) : s.notEmpty < SemQueue.semValueMax := by
  have hitems := (counts_of_reachable h).2.items
  have hle := weight_le_sum SemQueue.Pc.item s.abs.pc q
  rw [show s.abs.pc q = .putFull from abs_pc hq] at hle
  have hlog : s.abs.shared.log.length = s.puts.length := List.length_map ..
  have hfull : s.abs.shared.full = s.notEmpty + s.lost := rfl
  have hpopped : s.abs.shared.popped = s.takes.length := rfl
  have hone : (SemQueue.Pc.putFull : SemQueue.Pc V).item = 1 := rfl
  have hcountable : s.puts.length ≤ s.takes.length + SemQueue.semValueMax := hs
  omega

theorem lost_of_step (ht : s.step q = some t) :
    t.lost = s.lost ∨ s.pc q = .putPost ∧ t.lost = s.post.lost := by
  cases hq : s.pc q with
  | idle | ret item | undefined => exact absurd ht (by simp [step, hq])
  | putLock item | takeLock =>
    simp only [step, hq] at ht
    obtain ⟨-, rfl⟩ := lock_eq_some ht
    exact Or.inl rfl
  | putPush item | putUnlock | takeUnlock item =>
    simp only [step, hq] at ht
    obtain rfl := Option.some.inj ht
    exact Or.inl rfl
  | putPost =>
    simp only [step, hq] at ht
    obtain rfl := Option.some.inj ht
    exact Or.inr ⟨rfl, rfl⟩
  | takeWait =>
    simp only [step, hq] at ht
    split at ht
    · exact absurd ht (by simp)
    · obtain rfl := Option.some.inj ht
      exact Or.inl rfl
  | takePop =>
    simp only [step, hq] at ht
    split at ht <;> obtain rfl := Option.some.inj ht <;> exact Or.inl rfl

/-- **No `sem_post` fails** as long as the semaphore can count what is in the queue. -/
theorem lost_eq_zero [Fintype Pid]
    (h : (system.restrict fun s _ => s.Countable).Reachable s) : s.lost = 0 := by
  refine h.invariant (P := fun s => s.lost = 0) (fun s hs => ?_) fun s l t hreach hs ht => ?_
  · obtain rfl := hs
    rfl
  · obtain ⟨hnext, hcountable⟩ := ht
    replace hnext : s.next l = some t := hnext
    cases l with
    | put q item | take q | ret q =>
      simp only [next] at hnext
      split at hnext
      · obtain rfl := Option.some.inj hnext
        exact hs
      · exact absurd hnext (by simp)
    | step q =>
      rcases lost_of_step hnext with hlost | ⟨hq, hlost⟩
      · exact hlost.trans hs
      · rw [hlost, post, if_pos (notEmpty_lt hreach.of_restrict hcountable hs hq)]
        exact hs

end State

/-- **The queue over its semaphore**, in every state that any number of threads reach: who
takes finds an item; the `k`-th `take` to pop gets the item of the `k`-th `put` to push, and
returns it; and where the semaphore could count the items all the time, when no thread is on
its way through a call, a thread waits only for an item that was not put. -/
theorem blockingQueue_semaphore [Fintype Pid] (s : State Pid V) (hs : system.Reachable s) :
    (∀ q, s.pc q ≠ .undefined ∧ (s.pc q = .takePop → s.queue ≠ [])) ∧
    (∀ (k : ℕ) (q : Pid) (item : V), s.takes[k]? = some (q, item) →
      ∃ p, s.puts[k]? = some (p, item)) ∧
    (∀ q item, s.pc q = .takeUnlock item ∨ s.pc q = .ret (some item) →
      s.lastTake q = some item) ∧
    ((system.restrict fun s _ => s.Countable).Reachable s → s.takes.length < s.puts.length →
      (∀ q, s.Outside q ∨ s.Blocked q) → ∀ q, ¬ s.Blocked q) := by
  obtain ⟨hcounts, habs⟩ := State.counts_of_reachable hs
  have hreturns := State.Returns.of_reachable hs
  refine ⟨fun q => ⟨hreturns.defined q, hcounts.popping q⟩, fun k q item hk => ?_,
    hreturns.popped, fun hcountable hlt hall q hq => ?_⟩
  · have hlt : k < s.takes.length := (List.getElem?_eq_some_iff.mp hk).1
    have hitem : (s.puts.map Prod.snd)[k]? = some item := by
      rw [show s.puts.map Prod.snd = _ from hcounts.history,
        List.getElem?_append_left (by simpa using hlt), List.getElem?_map, hk]
      rfl
    rw [List.getElem?_map, Option.map_eq_some_iff] at hitem
    obtain ⟨⟨p, item'⟩, hp, rfl⟩ := hitem
    exact ⟨p, hp⟩
  · -- nobody stands between a push and its post, or between a wait and its pop
    have hitems := habs.items
    rw [Finset.sum_eq_zero fun r _ => State.item_eq_zero (hall r)] at hitems
    have hlog : s.abs.shared.log.length = s.puts.length := List.length_map ..
    have hfull : s.abs.shared.full = s.notEmpty + s.lost := rfl
    have hpopped : s.abs.shared.popped = s.takes.length := rfl
    have hlost := State.lost_eq_zero hcountable
    have hzero := hq.2
    omega

/-- A `take` waits for the semaphore, and gets the item behind the other thread's `put`; then
nobody waits while the next item is in the queue. -/
theorem blockingQueue_semaphore_take : ∃ s : State (Fin 2) ℕ, system.Reachable s ∧
    s.pc 1 = .ret (some 7) ∧ s.lastTake 1 = some 7 ∧ s.takes.length < s.puts.length ∧
    ∀ q, ¬ s.Blocked q := by
  have hrun : ∃ s : State (Fin 2) ℕ, [Label.take 1, .put 0 7, .step 0, .step 0, .step 0, .step 0,
      .step 1, .step 1, .step 1, .step 1, .ret 0, .put 0 8, .step 0, .step 0, .step 0,
      .step 0].foldlM (fun s l => if s.Countable then s.next l else none) initial = some s ∧
      s.pc 0 = .ret none ∧ s.pc 1 = .ret (some 7) ∧ s.takes.length < s.puts.length :=
    ⟨_, rfl, rfl, rfl, by decide⟩
  obtain ⟨s, hs, hput, hret, hlt⟩ := hrun
  have hcountable : (system.restrict fun s _ => s.Countable).Reachable s :=
    ⟨_, _, rfl, System.run_restrict hs⟩
  have hreach := hcountable.of_restrict
  have hall : ∀ q, s.Outside q ∨ s.Blocked q :=
    Fin.forall_fin_two.mpr ⟨Or.inl (Or.inr ⟨_, hput⟩), Or.inl (Or.inr ⟨_, hret⟩)⟩
  obtain ⟨-, -, hpopped, hwaits⟩ := blockingQueue_semaphore s hreach
  exact ⟨s, hreach, hret, hpopped 1 7 (Or.inr hret), hlt, hwaits hcountable hlt hall⟩

/-! ### Beyond `SEM_VALUE_MAX` -/

/-- No thread is inside `put` or `take`. -/
def quiet (queue : List V) (notEmpty : ℕ) (puts takes : List (Pid × V)) (lost : ℕ) : State Pid V :=
  ⟨queue, false, notEmpty, puts, takes, lost, fun _ => .idle⟩

section Overflow

variable {queue : List V} {k lost : ℕ} {puts takes : List (Pid × V)}

theorem reachable_put (h : system.Reachable (quiet queue k puts takes lost)) (q : Pid) (item : V) :
    system.Reachable (quiet (queue ++ [item]) (if k < SemQueue.semValueMax then k + 1 else k)
      (puts ++ [(q, item)]) takes (if k < SemQueue.semValueMax then lost else lost + 1)) := by
  have hrun : [Label.put q item, .step q, .step q, .step q, .step q, .ret q].foldlM State.next
      (quiet queue k puts takes lost) =
        some (quiet (queue ++ [item]) (if k < SemQueue.semValueMax then k + 1 else k)
          (puts ++ [(q, item)]) takes (if k < SemQueue.semValueMax then lost else lost + 1)) := by
    by_cases hk : k < SemQueue.semValueMax <;>
      simp [State.next, State.step, quiet, State.goto, State.lock, State.unlock, State.post, hk]
  exact h.run (System.run_ofStep hrun)

theorem reachable_take {item : V}
    (h : system.Reachable (quiet (item :: queue) (k + 1) puts takes lost)) (q : Pid) :
    system.Reachable (quiet queue k puts (takes ++ [(q, item)]) lost) := by
  have hrun : [Label.take q, .step q, .step q, .step q, .step q, .ret q].foldlM State.next
      (quiet (item :: queue) (k + 1) puts takes lost) =
        some (quiet queue k puts (takes ++ [(q, item)]) lost) := by
    simp [State.next, State.step, quiet, State.goto, State.lock, State.unlock]
  exact h.run (System.run_ofStep hrun)

theorem reachable_puts (q : Pid) (item : V) : k ≤ SemQueue.semValueMax →
    system.Reachable (quiet (List.replicate k item) k (List.replicate k (q, item)) [] 0) := by
  induction k with
  | zero => exact fun _ => .of_init rfl
  | succ k ih =>
    intro hk
    replace hk : k < SemQueue.semValueMax := hk
    have hput := reachable_put (ih hk.le) q item
    rw [if_pos hk, if_pos hk, ← List.replicate_succ', ← List.replicate_succ'] at hput
    exact hput

theorem reachable_takes (q : Pid) {item : V} {n : ℕ}
    (h : system.Reachable (quiet (List.replicate (n + k) item) k puts takes lost)) :
    system.Reachable (quiet (List.replicate n item) 0 puts (takes ++ List.replicate k (q, item))
      lost) := by
  induction k generalizing takes with
  | zero => simpa using h
  | succ k ih =>
    rw [← Nat.add_assoc, List.replicate_succ] at h
    have htakes := ih (reachable_take h q)
    rwa [List.append_assoc, List.singleton_append, ← List.replicate_succ] at htakes

theorem reachable_wait (h : system.Reachable (quiet queue k puts takes lost)) (q : Pid) :
    system.Reachable ((quiet queue k puts takes lost).goto q .takeWait) :=
  h.run (System.run_ofStep (show [Label.take q].foldlM State.next _ = some _ from rfl))

end Overflow

/-- The promise is not kept where the semaphore cannot count the items: of `SEM_VALUE_MAX + 1`
one is left in the queue, and the thread that comes for it waits. -/
theorem blockingQueue_semaphore_overflows : ¬ ∀ s : State (Fin 2) ℕ, system.Reachable s →
    s.takes.length < s.puts.length → (∀ q, s.Outside q ∨ s.Blocked q) → ∀ q, ¬ s.Blocked q := by
  intro hall
  have hfull := reachable_put (reachable_puts (0 : Fin 2) 7 (Nat.le_refl SemQueue.semValueMax)) 0 7
  rw [if_neg (Nat.lt_irrefl _), if_neg (Nat.lt_irrefl _), ← List.replicate_succ',
    Nat.add_comm] at hfull
  refine hall _ (reachable_wait (reachable_takes 1 hfull) 1) ?_
    (Fin.forall_fin_two.mpr ⟨Or.inl (Or.inl rfl), Or.inr ⟨rfl, rfl⟩⟩) 1 ⟨rfl, rfl⟩
  show ([] ++ List.replicate SemQueue.semValueMax ((1 : Fin 2), 7)).length <
    (List.replicate SemQueue.semValueMax ((0 : Fin 2), 7) ++ [(0, 7)]).length
  rw [List.nil_append, List.length_append, List.length_replicate, List.length_replicate]
  exact Nat.lt_succ_self _

end CppProgramming.ProducerConsumer.BlockingQueueSem
