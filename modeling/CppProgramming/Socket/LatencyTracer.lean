import CppProgramming.Lib.Ring
import CppProgramming.Socket.BenchClient
import Mathlib.Algebra.BigOperators.Group.List.Basic
import Mathlib.Algebra.Order.Sub.Basic
import Mathlib.Data.Multiset.OrderedMonoid

/-!
# The sample ring of the benchmark client

`LatencyTracer` of `tcp_echo/client_epoll_bench.cpp`.  The thread of an event loop pushes;
the main thread calls `report` once a second, with a `Total` that is new each second and that
the tracers of all loops share.  The loop of `report` is taken apart into its tests and its
reads, and a push can come between any two of them.

The index wraps; the counters `f` and `p` are of 64 bits, and a push behind the last value of
`p` is undefined and is no step here, so that they never wrap.  `Inv` says what a slot holds: as
long as `p` is at most a ring ahead of `f`, the slots of `f`, …, `p - 1` are different ones and
hold the samples with these numbers.
-/

namespace CppProgramming.Socket.BenchClient

open CppProgramming.Lib

/-- The fields of a `Total` that the latencies go to. -/
structure Total where
  num : ℕ
  tails : Histogram ℤ

namespace Total

/-- `Total()` -/
def new : Total := ⟨0, .empty⟩

/-- The percentile that `Total::report` prints. -/
def latencyP99 (t : Total) : ℤ := getP99 t.tails.entries (t.num / 100 : ℕ)

end Total

structure LatencyTracer where
  data : ℕ → ℤ
  f : ℕ
  p : ℕ

namespace LatencyTracer

def bits : ℕ := 18

def size : ℕ := 1 <<< bits

def mask : ℕ := size - 1

def bufBits : ℕ := 8

def bufSize : ℕ := 1 <<< bufBits

/-- `data[p++ & mask] = x` -/
def push (x : ℤ) (t : LatencyTracer) : LatencyTracer :=
  { t with data := fun j => if j = t.p &&& mask then x else t.data j, p := t.p + 1 }

theorem and_mask (i : ℕ) : i &&& mask = i % size := by
  rw [mask, size, Nat.one_shiftLeft, Nat.and_two_pow_sub_one_eq_mod]

theorem size_pos : 0 < size := by decide

/-- Two numbers less than a ring apart have different slots. -/
theorem and_mask_ne {i j : ℕ} (hij : i < j) (hj : j < i + size) : i &&& mask ≠ j &&& mask := by
  rw [and_mask, and_mask]
  intro h
  have hmod : (i + 0) % size = (i + (j - i)) % size := by
    rwa [Nat.add_zero, Nat.add_sub_cancel' (Nat.le_of_lt hij)]
  have hzero := add_mod_injOn size_pos (by omega) hmod
  omega

/-- `(p >> buf_bits) - (f >> buf_bits) > 0` -/
def BlockReady (t : LatencyTracer) : Prop :=
  ((t.p >>> bufBits : ℕ) : ℤ) - ((t.f >>> bufBits : ℕ) : ℤ) > 0

instance (t : LatencyTracer) : Decidable t.BlockReady := inferInstanceAs (Decidable (_ > _))

theorem bufSize_eq : bufSize = 256 := rfl

theorem blockReady_iff (t : LatencyTracer) : t.BlockReady ↔ t.f / 256 < t.p / 256 := by
  rw [BlockReady, Nat.shiftRight_eq_div_pow, Nat.shiftRight_eq_div_pow,
    show 2 ^ bufBits = 256 from rfl]
  omega

end LatencyTracer

open LatencyTracer (bufSize mask size)

/-- Where a call of `report` is: in front of the test of the `while`, or of a round of the
`for` with its `i`. -/
inductive Loop
  | test
  | body (i : ℕ)

/-- A call of `report`: `*total` as it was given and as it is, and the locals. -/
structure Report where
  given : Total
  total : Total
  num : ℕ
  loop : Loop

/-- The samples that a call has added to its histogram. -/
def Report.added (r : Report) : Multiset ℤ := r.total.tails.samples - r.given.tails.samples

/-- A round of the `for`, with the sample that it reads. -/
def Report.read (x : ℤ) (i : ℕ) (r : Report) : Report :=
  { r with
    num := r.num + 1
    total := { r.total with tails := r.total.tails.bump x }
    loop := if i + 1 < bufSize then .body (i + 1) else .test }

/-- Behind the `while`. -/
def Report.returned (r : Report) : Report :=
  { r with total := { r.total with num := r.total.num + r.num } }

/-- The tracer, the call of `report` that is going on, all that was pushed and the calls that
have returned. -/
structure State where
  tracer : LatencyTracer
  report : Option Report
  pushed : List ℤ
  finished : List Report

inductive Label
  | push (x : ℤ)
  | call (total : Total)
  | report

def Label.isReport : Label → Bool
  | .report => true
  | _ => false

def Label.isPush : Label → Bool
  | .push _ => true
  | _ => false

namespace State

/-- `LatencyTracer()`: what `new ll[size]` holds is not set. -/
def initial (data : ℕ → ℤ) : State := ⟨⟨data, 0, 0⟩, none, [], []⟩

/-- The next step of the call `r` of `report`. -/
def reportStep (s : State) (r : Report) : State :=
  match r.loop with
  | .test =>
    if s.tracer.BlockReady then { s with report := some { r with loop := .body 0 } }
    else { s with report := none, finished := s.finished ++ [r.returned] }
  | .body i =>
    { s with
      tracer := { s.tracer with f := s.tracer.f + 1 }
      report := some (r.read (s.tracer.data (s.tracer.f &&& mask)) i) }

def next (s : State) : Label → Option State
  | .push x =>
    if s.tracer.p = 2 ^ 63 - 1 then none
    else some { s with tracer := s.tracer.push x, pushed := s.pushed ++ [x] }
  | .call total =>
    match s.report with
    | none => some { s with report := some ⟨total, total, 0, .test⟩ }
    | some _ => none
  | .report => s.report.map s.reportStep

theorem next_push {s t : State} {x : ℤ} (h : s.next (.push x) = some t) :
    s.tracer.p ≠ 2 ^ 63 - 1 ∧
      t = { s with tracer := s.tracer.push x, pushed := s.pushed ++ [x] } := by
  rw [next] at h
  split at h
  · exact absurd h (by simp)
  · exact ⟨‹_›, (Option.some.inj h).symm⟩

/-- All calls, with the one that is going on. -/
def reports (s : State) : List Report := s.finished ++ s.report.toList

/-- What all calls have added to histograms. -/
def added (s : State) : Multiset ℤ := (s.reports.map Report.added).sum

theorem added_of_none {s : State} (h : s.report = none) :
    s.added = (s.finished.map Report.added).sum := by
  rw [added, reports, h, Option.toList_none, List.append_nil]

theorem added_of_some {s : State} {r : Report} (h : s.report = some r) :
    s.added = (s.finished.map Report.added).sum + r.added := by
  rw [added, reports, h, Option.toList_some, List.map_append, List.sum_append, List.map_singleton,
    List.sum_singleton]

end State

open State

def system : System State Label := .ofStep (fun s => ∃ data, s = .initial data) State.next

/-- A push leaves `p` at most a ring ahead of `f`. -/
def Room (s : State) : Label → Prop
  | .push _ => s.tracer.p + 1 ≤ s.tracer.f + size
  | _ => True

instance (s : State) : ∀ l, Decidable (Room s l)
  | .push _ => inferInstanceAs (Decidable (_ ≤ _))
  | .call _ | .report => inferInstanceAs (Decidable True)

/-! ### What a call adds -/

/-- A call only adds to the histogram, `num` counts what it adds, and the sum of the `Total`
waits for the end. -/
structure Report.Counts (r : Report) : Prop where
  le : r.given.tails.samples ≤ r.total.tails.samples
  num : r.num = r.added.card
  total : r.total.num = r.given.num

theorem Report.added_start (total : Total) : Report.added ⟨total, total, 0, .test⟩ = 0 :=
  tsub_self _

theorem Report.Counts.start (total : Total) : Report.Counts ⟨total, total, 0, .test⟩ where
  le := le_rfl
  num := by rw [Report.added_start, Multiset.card_zero]
  total := rfl

theorem Report.added_read {r : Report} (h : r.Counts) (x : ℤ) (i : ℕ) :
    (r.read x i).added = x ::ₘ r.added := by
  simp only [Report.added, Report.read, Histogram.samples_bump]
  exact Multiset.cons_sub_of_le x h.le

theorem Report.Counts.read {r : Report} (h : r.Counts) (x : ℤ) (i : ℕ) : (r.read x i).Counts where
  le := by
    simp only [Report.read, Histogram.samples_bump]
    exact h.le.trans (Multiset.le_cons_self _ _)
  num := by
    rw [Report.added_read h, Multiset.card_cons, ← h.num]
    rfl
  total := h.total

/-! ### The invariant -/

/-- At the test `f` is at the start of a block; in the block it is where `i` is, and the block
is full. -/
def LoopAt (t : LatencyTracer) : Loop → Prop
  | .test => t.f % 256 = 0
  | .body i => i < 256 ∧ t.f % 256 = i ∧ t.f / 256 < t.p / 256

structure Inv (s : State) : Prop where
  le : s.tracer.f ≤ s.tracer.p
  room : s.tracer.p ≤ s.tracer.f + size
  length : s.pushed.length = s.tracer.p
  slot : ∀ i, s.tracer.f ≤ i → i < s.tracer.p →
    s.pushed[i]? = some (s.tracer.data (i &&& mask))
  between : s.report = none → s.tracer.f % 256 = 0
  loop : ∀ r, s.report = some r → LoopAt s.tracer r.loop
  counts : ∀ r, s.report = some r → r.Counts
  finished : ∀ r ∈ s.finished, r.given.tails.samples ≤ r.total.tails.samples ∧
    r.total.num = r.given.num + r.added.card
  added : s.added = (s.pushed.take s.tracer.f : Multiset ℤ)

theorem inv_initial (data : ℕ → ℤ) : Inv (.initial data) where
  le := le_rfl
  room := Nat.zero_le _
  length := rfl
  slot i _ hi := absurd hi (Nat.not_lt_zero i)
  between _ := rfl
  loop _ hr := nomatch hr
  counts _ hr := nomatch hr
  finished := by simp [initial]
  added := rfl

theorem Inv.push {s : State} (h : Inv s) (x : ℤ) (hroom : Room s (.push x)) :
    Inv { s with tracer := s.tracer.push x, pushed := s.pushed ++ [x] } where
  le := h.le.trans (Nat.le_succ _)
  room := hroom
  length := by rw [List.length_append, h.length, List.length_singleton]; rfl
  slot i hle hlt := by
    rcases Nat.lt_succ_iff_lt_or_eq.mp hlt with hold | rfl
    · -- the slot that is written is none of those that are waiting
      have hfull : s.tracer.p < s.tracer.f + size := hroom
      have hne : i &&& mask ≠ s.tracer.p &&& mask :=
        LatencyTracer.and_mask_ne hold (Nat.lt_of_lt_of_le hfull (Nat.add_le_add_right hle _))
      rw [List.getElem?_append_left (by rw [h.length]; exact hold), h.slot i hle hold]
      simp [LatencyTracer.push, hne]
    · rw [← h.length, List.getElem?_concat_length, h.length]
      simp [LatencyTracer.push]
  between := h.between
  loop r hr := by
    have hat := h.loop r hr
    cases hloop : r.loop with
    | test => rwa [hloop] at hat
    | body i =>
      rw [hloop] at hat
      obtain ⟨hi, hf, hready⟩ := hat
      exact ⟨hi, hf, Nat.lt_of_lt_of_le hready (Nat.div_le_div_right (Nat.le_succ _))⟩
  counts := h.counts
  finished := h.finished
  added := by
    rw [List.take_append_of_le_length (by rw [h.length]; exact h.le)]
    exact h.added

theorem Inv.call {s : State} (h : Inv s) (total : Total) (hnone : s.report = none) :
    Inv { s with report := some ⟨total, total, 0, .test⟩ } where
  le := h.le
  room := h.room
  length := h.length
  slot := h.slot
  between hr := nomatch hr
  loop r hr := by
    obtain rfl := Option.some.inj hr
    exact h.between hnone
  counts r hr := by
    obtain rfl := Option.some.inj hr
    exact .start total
  finished := h.finished
  added := by
    rw [← h.added, added_of_some rfl, added_of_none hnone, Report.added_start, add_zero]

/-- The test finds a full block. -/
theorem Inv.enter {s : State} (h : Inv s) {r : Report} (hr : s.report = some r)
    (hloop : r.loop = .test) (hready : s.tracer.BlockReady) :
    Inv { s with report := some { r with loop := .body 0 } } where
  le := h.le
  room := h.room
  length := h.length
  slot := h.slot
  between hr := nomatch hr
  loop r' hr' := by
    obtain rfl := Option.some.inj hr'
    have hat := h.loop r hr
    rw [hloop] at hat
    exact ⟨by omega, hat, (LatencyTracer.blockReady_iff _).mp hready⟩
  counts r' hr' := by
    obtain rfl := Option.some.inj hr'
    obtain ⟨hle, hnum, htotal⟩ := h.counts r hr
    exact ⟨hle, hnum, htotal⟩
  finished := h.finished
  added := by
    rw [← h.added, added_of_some rfl, added_of_some hr]
    rfl

/-- The test ends the call. -/
theorem Inv.leave {s : State} (h : Inv s) {r : Report} (hr : s.report = some r)
    (hloop : r.loop = .test) :
    Inv { s with report := none, finished := s.finished ++ [r.returned] } where
  le := h.le
  room := h.room
  length := h.length
  slot := h.slot
  between _ := by
    have hat := h.loop r hr
    rwa [hloop] at hat
  loop _ hr := nomatch hr
  counts _ hr := nomatch hr
  finished r' hr' := by
    rcases List.mem_append.mp hr' with hr' | hr'
    · exact h.finished r' hr'
    · obtain rfl := List.mem_singleton.mp hr'
      obtain ⟨hle, hnum, htotal⟩ := h.counts r hr
      refine ⟨hle, ?_⟩
      show r.total.num + r.num = r.given.num + r.added.card
      rw [hnum, htotal]
  added := by
    rw [← h.added, added_of_none rfl, added_of_some hr, List.map_append, List.sum_append,
      List.map_singleton, List.sum_singleton]
    rfl

/-- A round of the `for` takes the sample with the number `f`. -/
theorem Inv.read {s : State} (h : Inv s) {r : Report} {i : ℕ} (hr : s.report = some r)
    (hloop : r.loop = .body i) :
    Inv { s with
      tracer := { s.tracer with f := s.tracer.f + 1 }
      report := some (r.read (s.tracer.data (s.tracer.f &&& mask)) i) } := by
  have hat := h.loop r hr
  rw [hloop] at hat
  obtain ⟨hi, hf, hready⟩ := hat
  have hlt : s.tracer.f < s.tracer.p := by omega
  have hcounts := h.counts r hr
  exact {
    le := hlt
    room := h.room.trans (Nat.add_le_add_right (Nat.le_succ _) _)
    length := h.length
    slot := fun j hle hlt => h.slot j (Nat.le_of_succ_le hle) hlt
    between := fun hr => nomatch hr
    loop := by
      intro r' hr'
      obtain rfl := Option.some.inj hr'
      rw [Report.read, LatencyTracer.bufSize_eq]
      dsimp only
      split
      · exact ⟨by omega, by dsimp only; omega, by dsimp only; omega⟩
      · show (s.tracer.f + 1) % 256 = 0
        omega
    counts := by
      intro r' hr'
      obtain rfl := Option.some.inj hr'
      exact hcounts.read _ _
    finished := h.finished
    added := by
      have hold := h.added
      rw [added_of_some hr] at hold
      rw [added_of_some rfl, Report.added_read hcounts, Multiset.add_cons, hold, List.take_add_one,
        h.slot _ le_rfl hlt, Option.toList_some, ← Multiset.coe_add, Multiset.coe_singleton,
        Multiset.add_comm, Multiset.singleton_add] }

theorem Inv.report {s : State} (h : Inv s) {r : Report} (hr : s.report = some r) :
    Inv (s.reportStep r) := by
  unfold reportStep
  cases hloop : r.loop with
  | test =>
    dsimp only
    split
    · rename_i hready
      exact h.enter hr hloop hready
    · exact h.leave hr hloop
  | body i => exact h.read hr hloop

theorem Inv.step {s t : State} {l : Label} (h : Inv s) (hst : (system.restrict Room).step s l t) :
    Inv t := by
  obtain ⟨hst, hroom⟩ := hst
  cases l with
  | push x =>
    obtain ⟨-, rfl⟩ := next_push hst
    exact h.push x hroom
  | call total =>
    have hst : State.next s (.call total) = some t := hst
    rw [State.next] at hst
    split at hst
    · rename_i hnone
      obtain rfl := Option.some.inj hst
      exact h.call total hnone
    · exact absurd hst (by simp)
  | report =>
    obtain ⟨r, hr, rfl⟩ := Option.map_eq_some_iff.mp hst
    exact h.report hr

theorem inv_of_reachable {s : State} (h : (system.restrict Room).Reachable s) : Inv s := by
  refine h.invariant ?_ fun _ _ _ _ hs hst => hs.step hst
  rintro s ⟨data, rfl⟩
  exact inv_initial data

/-! ### The calls return -/

/-- Twice what was read, one more inside of a block, and the calls that have returned. -/
def reportSteps (s : State) : ℕ :=
  2 * s.tracer.f + s.finished.length +
    match s.report with
    | some ⟨_, _, _, .body _⟩ => 1
    | _ => 0

/-- Every step of a call reads, enters a block or returns. -/
theorem reportSteps_reportStep (s : State) {r : Report} (hr : s.report = some r) :
    reportSteps s + 1 ≤ reportSteps (s.reportStep r) := by
  obtain ⟨given, total, num, loop⟩ := r
  cases loop with
  | test =>
    simp only [reportStep]
    split
    · simp [reportSteps, hr]
    · simp [reportSteps, hr, Nat.add_assoc]
  | body i =>
    simp only [reportSteps, reportStep, hr]
    omega

/-- A call returns from its test, when there is no full block. -/
theorem eq_test_of_report_eq_none (s : State) {r : Report} (h : (s.reportStep r).report = none) :
    r.loop = .test ∧ ¬ s.tracer.BlockReady ∧ (s.reportStep r).tracer = s.tracer := by
  cases hloop : r.loop with
  | test =>
    by_cases hready : s.tracer.BlockReady
    · simp [reportStep, hloop, hready] at h
    · exact ⟨rfl, hready, by simp [reportStep, hloop, hready]⟩
  | body i => simp [reportStep, hloop] at h

theorem finished_of_report_eq_some (s : State) {r r' : Report}
    (h : (s.reportStep r).report = some r') : (s.reportStep r).finished = s.finished := by
  cases hloop : r.loop with
  | test =>
    by_cases hready : s.tracer.BlockReady
    · simp [reportStep, hloop, hready]
    · simp [reportStep, hloop, hready] at h
  | body i => simp [reportStep, hloop]

theorem reportSteps_step {s t : State} {l : Label} (hst : State.next s l = some t) :
    reportSteps s + (if l.isReport then 1 else 0) ≤ reportSteps t ∧
      t.tracer.p = s.tracer.p + if l.isPush then 1 else 0 := by
  cases l with
  | push x =>
    obtain ⟨-, rfl⟩ := next_push hst
    exact ⟨le_rfl, rfl⟩
  | call total =>
    rw [State.next] at hst
    split at hst
    · rename_i hnone
      obtain rfl := Option.some.inj hst
      exact ⟨by simp [reportSteps, hnone, Label.isReport], rfl⟩
    · exact absurd hst (by simp)
  | report =>
    obtain ⟨r, hr, rfl⟩ := Option.map_eq_some_iff.mp hst
    refine ⟨reportSteps_reportStep s hr, ?_⟩
    unfold reportStep
    split
    · split
      · rfl
      · rfl
    · rfl

theorem reportSteps_run {s t : State} {ls : List Label} (h : system.Run s ls t) :
    reportSteps s + ls.countP Label.isReport ≤ reportSteps t ∧
      t.tracer.p = s.tracer.p + ls.countP Label.isPush := by
  induction h with
  | nil => exact ⟨by simp, by simp⟩
  | snoc _ hst ih =>
    obtain ⟨hsteps, hp⟩ := ih
    obtain ⟨hsteps', hp'⟩ := reportSteps_step hst
    rw [List.countP_append, List.countP_append, List.countP_singleton, List.countP_singleton]
    omega

/-- Nothing is read that was not pushed. -/
theorem Inv.reportSteps_le {s : State} (h : Inv s) :
    reportSteps s ≤ 2 * s.tracer.p + s.finished.length := by
  have hle := h.le
  unfold reportSteps
  split
  · rename_i heq
    have hat := h.loop _ heq
    obtain ⟨_, _, hready⟩ := hat
    omega
  · omega

/-- **The steps of the calls are bounded** by the samples that are there or come in, and one
more for each call that returns. -/
theorem countP_isReport_le {s t : State} {ls : List Label} (hs : Inv s)
    (h : (system.restrict Room).Run s ls t) :
    ls.countP Label.isReport ≤ 2 * (s.tracer.p - s.tracer.f + ls.countP Label.isPush) +
      (t.finished.length - s.finished.length) := by
  have ht : Inv t := h.invariant (fun _ _ _ hu hst => hu.step hst) hs
  obtain ⟨hsteps, hp⟩ := reportSteps_run h.of_restrict
  have hbound := ht.reportSteps_le
  have hstart : 2 * s.tracer.f + s.finished.length ≤ reportSteps s := by
    unfold reportSteps
    omega
  have hle := hs.le
  omega

/-- A call that is left alone returns. -/
theorem report_alone {s : State} (hs : Inv s) : ∀ {r : Report}, s.report = some r →
    ∃ n t, (system.restrict Room).Run s (List.replicate n .report) t ∧ t.report = none := by
  induction hk : 2 * s.tracer.p + s.finished.length + 1 - reportSteps s
    using Nat.strongRecOn generalizing s with
  | ind k ih =>
    intro r hr
    have hstep : (system.restrict Room).step s .report (s.reportStep r) :=
      ⟨by show s.report.map s.reportStep = _; rw [hr]; rfl, trivial⟩
    have ht : Inv (s.reportStep r) := hs.step hstep
    cases hr' : (s.reportStep r).report with
    | none => exact ⟨1, _, .single hstep, hr'⟩
    | some r' =>
      obtain ⟨hsteps, hp⟩ := reportSteps_step hstep.1
      have hfinished := finished_of_report_eq_some s hr'
      have hsteps : reportSteps s + 1 ≤ reportSteps (s.reportStep r) := hsteps
      have hp : (s.reportStep r).tracer.p = s.tracer.p := hp
      have hbound := ht.reportSteps_le
      rw [hfinished, hp] at hbound
      obtain ⟨n, t, hrun, hend⟩ := ih _ (by rw [hfinished, hp]; omega) ht rfl hr'
      exact ⟨n + 1, t, by rw [List.replicate_succ]; exact .cons hstep hrun, hend⟩

/-- **Exactness of the ring.**  As long as a push leaves `p` at most a ring ahead of `f`, the
calls of `report` have added the first `f` samples to histograms, each of them once, and the
slots of the samples behind hold them for a later call.  Every call returns, with `f` at the
start of the block of `p`. -/
theorem latencyTracer_exact {s : State} (h : (system.restrict Room).Reachable s) :
    s.added = (s.pushed.take s.tracer.f : Multiset ℤ) ∧
    (∀ r ∈ s.reports, r.given.tails.samples ≤ r.total.tails.samples) ∧
    (∀ r ∈ s.finished, r.total.num = r.given.num + r.added.card) ∧
    (s.tracer.f ≤ s.tracer.p ∧ s.tracer.p = s.pushed.length ∧
      ∀ i, s.tracer.f ≤ i → i < s.tracer.p →
        s.pushed[i]? = some (s.tracer.data (i &&& mask))) ∧
    (∀ t, (system.restrict Room).step s .report t → t.report = none →
      t.tracer.f = 256 * (t.tracer.p / 256)) ∧
    (s.report ≠ none →
      ∃ n t, (system.restrict Room).Run s (List.replicate n .report) t ∧ t.report = none) ∧
    ∀ ls t, (system.restrict Room).Run s ls t →
      ls.countP Label.isReport ≤ 2 * (s.tracer.p - s.tracer.f + ls.countP Label.isPush) +
        (t.finished.length - s.finished.length) := by
  have hs := inv_of_reachable h
  refine ⟨hs.added, ?_, fun r hr => (hs.finished r hr).2, ⟨hs.le, hs.length.symm, hs.slot⟩, ?_, ?_,
    fun ls t hrun => countP_isReport_le hs hrun⟩
  · intro r hr
    rcases List.mem_append.mp hr with hr | hr
    · exact (hs.finished r hr).1
    · exact (hs.counts r (Option.mem_toList.mp hr)).le
  · intro t hst hnone
    obtain ⟨r, hr, rfl⟩ := Option.map_eq_some_iff.mp hst.1
    obtain ⟨hloop, hready, htracer⟩ := eq_test_of_report_eq_none s hnone
    have hat := hs.loop r hr
    rw [hloop] at hat
    have hat : s.tracer.f % 256 = 0 := hat
    rw [LatencyTracer.blockReady_iff] at hready
    have hle := hs.le
    rw [htracer]
    omega
  · intro hne
    obtain ⟨r, hr⟩ := Option.ne_none_iff_exists'.mp hne
    exact report_alone hs hr

/-- Two samples more than a block, and a call of `report` for them. -/
def blockAndTwo : List Label :=
  List.replicate 258 (.push 5) ++ .call .new :: List.replicate 258 .report

theorem latencyTracer_exact_block : ∃ s : State, s.tracer.f = 256 ∧ s.tracer.p = 258 ∧
    s.added = (s.pushed.take 256 : Multiset ℤ) := by
  have hrun : (blockAndTwo.foldlM (fun s l => if Room s l then State.next s l else none)
      (.initial fun _ => 0)).any (fun s => s.tracer.f = 256 ∧ s.tracer.p = 258) = true := by
    decide +kernel
  obtain ⟨s, hs, hfp⟩ := (Option.any_eq_true _ _).mp hrun
  obtain ⟨hf, hp⟩ := of_decide_eq_true hfp
  have hreach : (system.restrict Room).Reachable s :=
    ⟨_, _, ⟨fun _ => 0, rfl⟩, System.run_restrict hs⟩
  exact ⟨s, hf, hp, hf ▸ (latencyTracer_exact hreach).1⟩

/-! ### The percentile of a second -/

/-- A call keeps the sum of its `Total` in step with the histogram. -/
theorem total_of_finished {s : State} (h : (system.restrict Room).Reachable s) {r : Report}
    (hr : r ∈ s.finished) (hgiven : r.given.num = r.given.tails.total) :
    r.total.num = r.total.tails.total := by
  obtain ⟨hle, hnum⟩ := (inv_of_reachable h).finished r hr
  rw [hnum, hgiven, ← Histogram.card_samples, ← Histogram.card_samples, ← Multiset.card_add,
    Report.added, add_tsub_cancel_of_le hle]

/-- **What `Total::report` prints** of a `Total` with samples is the greatest one that at least
a hundredth of them reach; `num` is of 64 bits. -/
theorem latencyP99_isGreatest {t : Total} (hnum : t.num = t.tails.total) (hpos : 0 < t.num)
    (hfits : t.num < 2 ^ 63) :
    IsGreatest {v | v ∈ t.tails.keys ∧ t.num / 100 ≤ t.tails.atLeast v} t.latencyP99 := by
  have hne : t.tails.keys ≠ [] := by
    intro hnil
    rw [hnum, Histogram.total, List.map_eq_nil_iff.mp hnil] at hpos
    exact absurd hpos (by simp)
  have htail : ((t.num / 100 : ℕ) : ℤ) ≤ t.tails.total := by
    rw [← hnum]
    omega
  have hgreatest := isGreatest_getP99 (hnum ▸ hfits) hne htail
  rw [Total.latencyP99]
  simpa only [Nat.cast_le] using hgreatest

end CppProgramming.Socket.BenchClient
