import CppProgramming.Lib.CondQueue
import Mathlib.Data.Fintype.Sum
import Mathlib.Data.List.FinRange

/-!
# The shutdown by a flag

`c/thread/pthread/bounded_blocking_queue.cpp`: consumers and producers around a queue with
a mutex and two condition variables, in loops `while (running)`.  `test2` sets `running` to
`false` after a while and joins all of them.

The flag is tested outside the waits only.  So a thread that has passed its test finishes
its round, whatever happens to the flag, and afterwards nobody begins one.  What will be in
the queue in the end is therefore settled when the flag is lowered (`surplus_step`): what is
there, and what the producers in a round still put, less what the consumers in a round still
take.  The shutdown works if and only if this is a number between `0` and the size of the
queue (`Balanced`); otherwise some of the threads wait for ever, and `test2` with them.
-/

namespace CppProgramming.ProducerConsumer.Pthread

open Lib

/-- The consumers and the producers. -/
abbrev Tid (n k : ℕ) := Fin n ⊕ Fin k

/-- `test2` before it lowers the flag, and behind it, with the threads that it has still to
join. -/
inductive Main (n k : ℕ)
  | sleeping
  | joining (rest : List (Tid n k))
  deriving DecidableEq

structure Program (n k : ℕ) where
  running : Bool
  exited : Tid n k → Bool
  main : Main n k

inductive Act
  | stop
  | join

variable {n k : ℕ}

/-- In the order of the loops of `test2`. -/
def threads (n k : ℕ) : List (Tid n k) :=
  (List.finRange n).map .inl ++ (List.finRange k).map .inr

/-- The rounds of `consumer` and `producer`: one call of the queue, as long as the flag is
up. -/
def Program.round (g : Program n k) (q : Tid n k) (op : CondQueue.Op ℤ) : Option (Program n k) :=
  match q, op with
  | .inl _, .take | .inr _, .put _ => if g.running ∧ g.exited q = false then some g else none
  | _, _ => none

/-- `pthread_exit`, when the flag is down. -/
def Program.exit (g : Program n k) (q : Tid n k) : Option (Program n k) :=
  if g.running = false ∧ g.exited q = false then
    some { g with exited := Function.update g.exited q true }
  else none

def Program.test2 (g : Program n k) (a : Act) : Option (Program n k) :=
  match a, g.main with
  | .stop, .sleeping => some { g with running := false, main := .joining (threads n k) }
  | .join, .joining (q :: rest) =>
    if g.exited q then some { g with main := .joining rest } else none
  | _, _ => none

def client (n k : ℕ) : CondQueue.Client (Tid n k) ℤ (Program n k) Act where
  init g := g = ⟨true, fun _ => false, .sleeping⟩
  call := Program.round
  ret g _ _ := some g
  between := Program.exit
  act := Program.test2

abbrev State (n k : ℕ) := CondQueue.State (Tid n k) ℤ (Program n k)

abbrev Label (n k : ℕ) := CondQueue.Label (Tid n k) ℤ Act

def start (n k : ℕ) : State n k :=
  ⟨⟨false, []⟩, fun _ => .idle, ⟨true, fun _ => false, .sleeping⟩⟩

/-- `n` consumers and `k` producers around a queue of `queueSize`. -/
abbrev system (n k queueSize : ℕ) : System (State n k) (Label n k) :=
  CondQueue.system (some queueSize) (client n k)

/-- The same without spurious wake-ups. -/
abbrev unaided (n k queueSize : ℕ) : System (State n k) (Label n k) :=
  CondQueue.unaided (some queueSize) (client n k)

/-- Every thread has exited and the joins of `test2` have returned. -/
def Finished (s : State n k) : Prop := (∀ q, s.client.exited q = true) ∧ s.client.main = .joining []

/-- What is in the queue and what is still put into it is enough for what is still taken, and
does not overfill the queue. -/
def Balanced (queueSize : ℕ) (s : State n k) : Prop :=
  ∑ q, (s.pc q).toTake ≤ s.shared.queue.length + ∑ q, (s.pc q).toPut ∧
  s.shared.queue.length + ∑ q, (s.pc q).toPut ≤ queueSize + ∑ q, (s.pc q).toTake

variable {queueSize : ℕ} {s t : State n k} {l : Label n k} {q : Tid n k}

/-! ### The flag and the threads -/

theorem round_eq_some {g g' : Program n k} {op : CondQueue.Op ℤ} (h : g.round q op = some g') :
    g' = g ∧ g.running = true ∧ g.exited q = false := by
  unfold Program.round at h
  split at h
  · split at h
    · exact ⟨(Option.some.inj h).symm, ‹_›⟩
    · exact absurd h (by simp)
  · split at h
    · exact ⟨(Option.some.inj h).symm, ‹_›⟩
    · exact absurd h (by simp)
  · exact absurd h (by simp)

theorem exit_eq_some {g g' : Program n k} (h : g.exit q = some g') :
    g.running = false ∧ g.exited q = false ∧
      g' = { g with exited := Function.update g.exited q true } := by
  unfold Program.exit at h
  split at h
  · obtain ⟨hrunning, hexited⟩ := ‹_ ∧ _›
    exact ⟨hrunning, hexited, (Option.some.inj h).symm⟩
  · exact absurd h (by simp)

theorem test2_eq_some {g g' : Program n k} {a : Act} (h : g.test2 a = some g') :
    a = .stop ∧ g.main = .sleeping ∧
        g' = { g with running := false, main := .joining (threads n k) } ∨
      a = .join ∧ ∃ q rest, g.main = .joining (q :: rest) ∧ g.exited q = true ∧
        g' = { g with main := .joining rest } := by
  unfold Program.test2 at h
  split at h
  · exact Or.inl ⟨rfl, ‹_›, (Option.some.inj h).symm⟩
  · split at h
    · exact Or.inr ⟨rfl, _, _, ‹_›, ‹_›, (Option.some.inj h).symm⟩
    · exact absurd h (by simp)
  · exact absurd h (by simp)

/-- The flag is up while `test2` sleeps, and who has exited is in no call. -/
structure Inv (s : State n k) : Prop where
  main : s.client.running = true ∧ s.client.main = .sleeping ∨
    s.client.running = false ∧ ∃ rest, s.client.main = .joining rest
  exited : ∀ q, s.client.exited q = true → s.pc q = .idle

theorem reachable_start : (system n k queueSize).Reachable (start n k) :=
  .of_init ⟨rfl, fun _ => rfl, rfl⟩

theorem Inv.start (hs : (system n k queueSize).init s) : Inv s := by
  obtain ⟨-, -, hclient⟩ := hs
  have hclient : s.client = ⟨true, fun _ => false, .sleeping⟩ := hclient
  refine ⟨Or.inl (by simp [hclient]), fun q hq => ?_⟩
  simp [hclient] at hq

/-- A thread that has not exited moves. -/
theorem Inv.goto (h : Inv s) {m : CondQueue.Shared ℤ} {c : CondQueue.Pc ℤ}
    (hq : s.client.exited q = false) : Inv { s.goto q c with shared := m } := by
  refine ⟨h.main, fun r hr => ?_⟩
  have hne : r ≠ q := by
    rintro rfl
    exact absurd hr (by simp [CondQueue.State.goto, hq])
  show Function.update s.pc q c r = .idle
  rw [Function.update_of_ne hne]
  exact h.exited r hr

theorem Inv.exited_eq_false (h : Inv s) (hq : s.pc q ≠ .idle) : s.client.exited q = false :=
  Bool.eq_false_iff.mpr fun hexited => hq (h.exited q hexited)

theorem Inv.step (h : Inv s) (ht : (system n k queueSize).step s l t) : Inv t := by
  have ht := CondQueue.next_cases ht
  cases l with
  | call q op =>
    obtain ⟨-, g, hg, rfl⟩ := ht
    obtain ⟨rfl, -, hq⟩ := round_eq_some hg
    exact h.goto hq
  | step q =>
    obtain ⟨m, c, hadv, rfl⟩ := ht
    refine h.goto (h.exited_eq_false ?_)
    intro hq
    rw [hq] at hadv
    exact absurd hadv (by simp [CondQueue.advance])
  | signal q woken =>
    obtain ⟨done, hq, hsub, -, rfl⟩ := ht
    refine ⟨h.main, fun r hr => ?_⟩
    have hidle := h.exited r hr
    have hne : r ≠ q := by
      rintro rfl
      exact absurd hidle (by simp [hq])
    have hwoken : r ∉ woken := by
      intro hr
      have hwaits := CondQueue.mem_waiters.mp (hsub hr)
      rw [hidle] at hwaits
      exact absurd hwaits (by cases done <;> simp [CondQueue.Pc.waitsFor])
    simp [CondQueue.State.signalled, hne, hwoken, hidle]
  | wake q =>
    obtain ⟨op, hq, rfl⟩ := ht
    exact h.goto (h.exited_eq_false (by simp [hq]))
  | ret q =>
    obtain ⟨done, g, hq, hg, rfl⟩ := ht
    obtain rfl := Option.some.inj hg
    exact h.goto (h.exited_eq_false (by simp [hq]))
  | between q =>
    obtain ⟨hq, g, hg, rfl⟩ := ht
    obtain ⟨-, -, rfl⟩ := exit_eq_some hg
    refine ⟨h.main, fun r hr => ?_⟩
    by_cases hrq : r = q
    · rw [hrq]
      exact hq
    · exact h.exited r (by simpa [hrq] using hr)
  | act a =>
    obtain ⟨g, hg, rfl⟩ := ht
    rcases test2_eq_some hg with ⟨-, -, rfl⟩ | ⟨-, q, rest, hmain, -, rfl⟩
    · exact ⟨Or.inr ⟨rfl, _, rfl⟩, h.exited⟩
    · refine ⟨?_, h.exited⟩
      rcases h.main with ⟨-, hsleeping⟩ | ⟨hrunning, -⟩
      · exact absurd hmain (by simp [hsleeping])
      · exact Or.inr ⟨hrunning, _, rfl⟩

theorem Inv.of_reachable (h : (system n k queueSize).Reachable s) : Inv s :=
  h.invariant (fun _ => Inv.start) fun _ _ _ _ hs ht => hs.step ht

/-! ### Behind the flag -/

/-- Only `test2` lowers the flag, and a call begins only while it is up. -/
theorem running_cases (ht : (system n k queueSize).step s l t) :
    t.client.running = s.client.running ∧ (∀ q op, l = .call q op → s.client.running = true) ∨
      l = .act .stop ∧ t.client.running = false := by
  have ht := CondQueue.next_cases ht
  cases l with
  | call q op =>
    obtain ⟨-, g, hg, rfl⟩ := ht
    obtain ⟨rfl, hrunning, -⟩ := round_eq_some hg
    exact Or.inl ⟨rfl, fun _ _ _ => hrunning⟩
  | step q =>
    obtain ⟨m, c, -, rfl⟩ := ht
    exact Or.inl ⟨rfl, by simp⟩
  | signal q woken =>
    obtain ⟨done, -, -, -, rfl⟩ := ht
    exact Or.inl ⟨rfl, by simp⟩
  | wake q =>
    obtain ⟨op, -, rfl⟩ := ht
    exact Or.inl ⟨rfl, by simp⟩
  | ret q =>
    obtain ⟨done, g, -, hg, rfl⟩ := ht
    obtain rfl := Option.some.inj hg
    exact Or.inl ⟨rfl, by simp⟩
  | between q =>
    obtain ⟨-, g, hg, rfl⟩ := ht
    obtain ⟨-, -, rfl⟩ := exit_eq_some hg
    exact Or.inl ⟨rfl, by simp⟩
  | act a =>
    obtain ⟨g, hg, rfl⟩ := ht
    rcases test2_eq_some hg with ⟨rfl, -, rfl⟩ | ⟨-, q, rest, -, -, rfl⟩
    · exact Or.inr ⟨rfl, rfl⟩
    · exact Or.inl ⟨rfl, by simp⟩

theorem running_step (h : s.client.running = false) (ht : (system n k queueSize).step s l t) :
    t.client.running = false ∧ ∀ q op, l ≠ .call q op := by
  rcases running_cases ht with ⟨hsame, hcall⟩ | ⟨rfl, hdown⟩
  · refine ⟨hsame.trans h, fun q op hl => ?_⟩
    exact absurd (hcall q op hl) (by simp [h])
  · exact ⟨hdown, by simp⟩

/-- **The balance is settled when the flag is lowered.** -/
theorem balanced_step (h : s.client.running = false) (ht : (system n k queueSize).step s l t) :
    Balanced queueSize t ↔ Balanced queueSize s := by
  have hsurplus := CondQueue.surplus_step ht (running_step h ht).2
  unfold Balanced
  omega

/-- Lowering the flag moves no thread. -/
theorem stop_step (ht : (system n k queueSize).step s (.act .stop) t) :
    t.client.running = false ∧ t.client.main = .joining (threads n k) ∧
      (Balanced queueSize t ↔ Balanced queueSize s) := by
  obtain ⟨g, hg, rfl⟩ := CondQueue.next_cases ht
  rcases test2_eq_some hg with ⟨-, -, rfl⟩ | ⟨hjoin, -⟩
  · exact ⟨rfl, rfl, Iff.rfl⟩
  · exact absurd hjoin (by simp)

/-- The runs in which the flag is lowered in a balanced state only. -/
abbrev balancedRuns (n k queueSize : ℕ) : System (State n k) (Label n k) :=
  (system n k queueSize).restrict fun s l => l = .act .stop → Balanced queueSize s

theorem balanced_of_reachable (h : (balancedRuns n k queueSize).Reachable s)
    (hrunning : s.client.running = false) : Balanced queueSize s := by
  refine h.invariant (P := fun s => s.client.running = false → Balanced queueSize s) ?_ ?_ hrunning
  · rintro s ⟨-, -, hclient⟩ hrunning
    have hclient : s.client = ⟨true, fun _ => false, .sleeping⟩ := hclient
    exact absurd hrunning (by simp [hclient])
  · rintro s l t - ih ⟨ht, hbalanced⟩ hrunning
    cases hs : s.client.running with
    | false => exact (balanced_step hs ht).mpr (ih hs)
    | true =>
      rcases running_cases ht with ⟨hsame, -⟩ | ⟨rfl, -⟩
      · exact absurd hrunning (by simp [hsame, hs])
      · exact (stop_step ht).2.2.mpr (hbalanced rfl)

/-! ### Stuck states -/

/-- In a stuck state the flag is down, and every thread has exited or waits for a signal. -/
theorem waiting_of_stuck (hreach : (system n k queueSize).Reachable s)
    (hstuck : (unaided n k queueSize).Stuck s) : s.client.running = false ∧
      ∀ q, s.pc q = .idle ∧ s.client.exited q = true ∨ ∃ op, s.pc q = .waiting op := by
  have hinv := Inv.of_reachable hreach
  have hdown : s.client.running = false := by
    rcases hinv.main with ⟨-, hmain⟩ | ⟨hdown, -⟩
    · refine absurd ⟨?_, by simp⟩ (hstuck (.act .stop)
        { s with client := { s.client with running := false, main := .joining (threads n k) } })
      show (s.client.test2 .stop).map _ = _
      simp [Program.test2, hmain]
    · exact hdown
  refine ⟨hdown, fun q => ?_⟩
  rcases ((CondQueue.Guarded.of_reachable hreach).stuck hstuck).1 q with hq | ⟨done, hq⟩ | hq
  · cases hexited : s.client.exited q with
    | true => exact Or.inl ⟨hq, rfl⟩
    | false =>
      refine absurd ⟨?_, by simp⟩ (hstuck (.between q) { s with
        client := { s.client with exited := Function.update s.client.exited q true } })
      show CondQueue.State.next _ _ _ _ = _
      simp [CondQueue.State.next, hq, client, Program.exit, hdown, hexited]
  · refine absurd ⟨?_, by simp⟩ (hstuck (.ret q) (s.goto q .idle))
    show CondQueue.State.next _ _ _ _ = _
    simp [CondQueue.State.next, hq, client]
    rfl
  · exact Or.inr hq

/-- A consumer that waits is one too many: the queue is empty, and nobody puts into it. -/
theorem not_waiting_take (hsize : 0 < queueSize) (hreach : (system n k queueSize).Reachable s)
    (hstuck : (unaided n k queueSize).Stuck s) (hbalanced : Balanced queueSize s) :
    s.pc q ≠ .waiting .take := by
  intro hq
  obtain ⟨-, hitems, hroom⟩ := (CondQueue.Guarded.of_reachable hreach).stuck hstuck
  have hempty := hitems q hq
  have hput : ∀ r, (s.pc r).toPut = 0 := by
    intro r
    rcases (waiting_of_stuck hreach hstuck).2 r with ⟨hr, -⟩ | ⟨op, hr⟩
    · rw [hr]
      rfl
    · cases op with
      | take =>
        rw [hr]
        rfl
      | put v =>
        have hfull := hroom queueSize rfl r v hr
        omega
  have htake := weight_le_sum CondQueue.Pc.toTake s.pc q
  have hone : (s.pc q).toTake = 1 := by
    rw [hq]
    rfl
  have hle := hbalanced.1
  rw [Finset.sum_eq_zero fun r _ => hput r] at hle
  omega

/-- A producer that waits is one too many: the queue is full, and nobody takes from it. -/
theorem not_waiting_put (hsize : 0 < queueSize) (hreach : (system n k queueSize).Reachable s)
    (hstuck : (unaided n k queueSize).Stuck s) (hbalanced : Balanced queueSize s) (v : ℤ) :
    s.pc q ≠ .waiting (.put v) := by
  intro hq
  obtain ⟨-, hitems, hroom⟩ := (CondQueue.Guarded.of_reachable hreach).stuck hstuck
  have hfull := hroom queueSize rfl q v hq
  have htake : ∀ r, (s.pc r).toTake = 0 := by
    intro r
    rcases (waiting_of_stuck hreach hstuck).2 r with ⟨hr, -⟩ | ⟨op, hr⟩
    · rw [hr]
      rfl
    · cases op with
      | put w =>
        rw [hr]
        rfl
      | take =>
        have hempty := hitems r hr
        omega
  have hput := weight_le_sum CondQueue.Pc.toPut s.pc q
  have hone : (s.pc q).toPut = 1 := by
    rw [hq]
    rfl
  have hle := hbalanced.2
  rw [Finset.sum_eq_zero fun r _ => htake r] at hle
  omega

/-- **A balanced shutdown gets stuck at the end only.** -/
theorem finished_of_stuck (hsize : 0 < queueSize) (hreach : (system n k queueSize).Reachable s)
    (hstuck : (unaided n k queueSize).Stuck s) (hbalanced : Balanced queueSize s) : Finished s := by
  obtain ⟨hdown, hcases⟩ := waiting_of_stuck hreach hstuck
  have hexited : ∀ q, s.client.exited q = true := by
    intro q
    rcases hcases q with ⟨-, hq⟩ | ⟨op, hq⟩
    · exact hq
    · cases op with
      | take => exact absurd hq (not_waiting_take hsize hreach hstuck hbalanced)
      | put v => exact absurd hq (not_waiting_put hsize hreach hstuck hbalanced v)
  refine ⟨hexited, ?_⟩
  rcases (Inv.of_reachable hreach).main with ⟨hup, -⟩ | ⟨-, rest, hmain⟩
  · exact absurd hup (by simp [hdown])
  · cases rest with
    | nil => exact hmain
    | cons q rest =>
      refine absurd ⟨?_, by simp⟩ (hstuck (.act .join)
        { s with client := { s.client with main := .joining rest } })
      show (s.client.test2 .join).map _ = _
      simp [Program.test2, hmain, hexited q]

/-! ### The end of a run -/

/-- What is left to do when the flag is down. -/
def left (s : State n k) : ℕ :=
  s.weight + ∑ q, (if s.client.exited q then 0 else 1) +
    match s.client.main with
    | .sleeping => 0
    | .joining rest => rest.length

/-- Without spurious wake-ups a run behind the flag comes to an end. -/
theorem left_lt (hreach : (system n k queueSize).Reachable s) (h : s.client.running = false)
    (ht : (unaided n k queueSize).step s l t) : left t < left s := by
  obtain ⟨ht, hwake⟩ := ht
  have hcall := (running_step h ht).2
  have hweight := CondQueue.weight_lt ht
  have hcases := CondQueue.next_cases ht
  cases l with
  | call q op => exact absurd rfl (hcall q op)
  | wake q => exact absurd rfl (hwake q)
  | step q =>
    obtain ⟨m, c, -, rfl⟩ := hcases
    exact Nat.add_lt_add_right (Nat.add_lt_add_right (hweight trivial) _) _
  | signal q woken =>
    obtain ⟨done, -, -, -, rfl⟩ := hcases
    exact Nat.add_lt_add_right (Nat.add_lt_add_right (hweight trivial) _) _
  | ret q =>
    obtain ⟨done, g, -, hg, rfl⟩ := hcases
    obtain rfl := Option.some.inj hg
    exact Nat.add_lt_add_right (Nat.add_lt_add_right (hweight trivial) _) _
  | between q =>
    obtain ⟨-, g, hg, rfl⟩ := hcases
    obtain ⟨-, hq, rfl⟩ := exit_eq_some hg
    refine Nat.add_lt_add_right (Nat.add_lt_add_left ?_ _) _
    have hsum := sum_update (fun b : Bool => if b then 0 else 1) s.client.exited q true
    simp only [hq, Bool.false_eq_true, if_false, if_true] at hsum
    dsimp only
    omega
  | act a =>
    obtain ⟨g, hg, rfl⟩ := hcases
    rcases test2_eq_some hg with ⟨-, hmain, -⟩ | ⟨-, q, rest, hmain, -, rfl⟩
    · rcases (Inv.of_reachable hreach).main with ⟨hup, -⟩ | ⟨-, rest, hjoining⟩
      · exact absurd hup (by simp [h])
      · exact absurd hmain (by simp [hjoining])
    · refine Nat.add_lt_add_left ?_ _
      rw [hmain]
      exact Nat.lt_succ_self _

theorem exists_stuck (hreach : (system n k queueSize).Reachable s)
    (h : s.client.running = false) :
    ∃ ls u, (system n k queueSize).Run s ls u ∧ (unaided n k queueSize).Stuck u := by
  obtain ⟨ls, u, hrun, hstuck⟩ := System.exists_stuck (M := unaided n k queueSize)
    (P := fun s => (system n k queueSize).Reachable s ∧ s.client.running = false) left
    (fun s l t ⟨hs, hdown⟩ ht => ⟨⟨hs.step ht.1, (running_step hdown ht.1).1⟩, left_lt hs hdown ht⟩)
    ⟨hreach, h⟩
  exact ⟨ls, u, hrun.of_restrict, hstuck⟩

/-- A program that has finished was balanced. -/
theorem Finished.balanced (h : Finished s) (hreach : (system n k queueSize).Reachable s) :
    Balanced queueSize s := by
  have hidle : ∀ q, s.pc q = .idle := fun q => (Inv.of_reachable hreach).exited q (h.1 q)
  have hbound := (CondQueue.Guarded.of_reachable hreach).bound queueSize rfl
  have hput : ∑ q, (s.pc q).toPut = 0 := Finset.sum_eq_zero fun q _ => by rw [hidle q]; rfl
  have htake : ∑ q, (s.pc q).toTake = 0 := Finset.sum_eq_zero fun q _ => by rw [hidle q]; rfl
  refine ⟨?_, ?_⟩ <;> omega

theorem not_finished (hreach : (system n k queueSize).Reachable s) (h : s.client.running = false)
    (hbalanced : ¬ Balanced queueSize s) {ls : List (Label n k)}
    (hrun : (system n k queueSize).Run s ls t) : ¬ Finished t := by
  have hinv := hrun.invariant (P := fun s => (system n k queueSize).Reachable s ∧
      s.client.running = false ∧ ¬ Balanced queueSize s)
    (fun s l t ⟨hs, hdown, hnot⟩ ht =>
      ⟨hs.step ht, (running_step hdown ht).1, fun hb => hnot ((balanced_step hdown ht).mp hb)⟩)
    ⟨hreach, h, hbalanced⟩
  exact fun hfinished => hinv.2.2 (hfinished.balanced hinv.1)

/-- **The shutdown by the flag.**  Where `test2` lowers the flag in balanced states only, no
state is stuck but the end, when every thread has exited and the joins have returned.  And
where it lowers the flag in another state, the program never finishes, and gets stuck. -/
theorem pthread_shutdown (hsize : 0 < queueSize) :
    (∀ s : State n k, (balancedRuns n k queueSize).Reachable s →
      (unaided n k queueSize).Stuck s → Finished s) ∧
    ∀ s t : State n k, (system n k queueSize).Reachable s →
      (system n k queueSize).step s (.act .stop) t → ¬ Balanced queueSize s →
      (∃ ls u, (system n k queueSize).Run t ls u ∧ (unaided n k queueSize).Stuck u) ∧
        ∀ ls u, (system n k queueSize).Run t ls u → ¬ Finished u := by
  refine ⟨fun s hreach hstuck => ?_, fun s t hreach ht hbalanced => ?_⟩
  · have hs := System.Reachable.of_restrict hreach
    have hdown := (waiting_of_stuck hs hstuck).1
    exact finished_of_stuck hsize hs hstuck (balanced_of_reachable hreach hdown)
  · obtain ⟨hdown, -, hiff⟩ := stop_step ht
    have hreach' := hreach.step ht
    refine ⟨exists_stuck hreach' hdown, fun ls u hrun => ?_⟩
    exact not_finished hreach' hdown (fun hb => hbalanced (hiff.mp hb)) hrun

theorem Finished.stuck (h : Finished s) (hreach : (system n k queueSize).Reachable s) :
    (unaided n k queueSize).Stuck s := by
  have hidle : ∀ q, s.pc q = .idle := fun q => (Inv.of_reachable hreach).exited q (h.1 q)
  rintro l t ⟨ht, -⟩
  have ht := CondQueue.next_cases ht
  cases l with
  | call q op =>
    obtain ⟨-, g, hg, -⟩ := ht
    exact absurd (h.1 q) (by simp [(round_eq_some hg).2.2])
  | step q =>
    obtain ⟨m, c, hadv, -⟩ := ht
    exact absurd hadv (by simp [hidle, CondQueue.advance])
  | signal q woken =>
    obtain ⟨done, hq, -⟩ := ht
    exact absurd hq (by simp [hidle])
  | wake q =>
    obtain ⟨op, hq, -⟩ := ht
    exact absurd hq (by simp [hidle])
  | ret q =>
    obtain ⟨done, g, hq, -⟩ := ht
    exact absurd hq (by simp [hidle])
  | between q =>
    obtain ⟨-, g, hg, -⟩ := ht
    exact absurd (h.1 q) (by simp [(exit_eq_some hg).2.1])
  | act a =>
    obtain ⟨g, hg, -⟩ := ht
    rcases test2_eq_some hg with ⟨-, hsleeping, -⟩ | ⟨-, q, rest, hjoining, -, -⟩
    · exact absurd hsleeping (by simp [h.2])
    · exact absurd hjoining (by simp [h.2])

instance (s : State n k) : Decidable (Balanced queueSize s) :=
  inferInstanceAs (Decidable (_ ∧ _))

instance (s : State n k) : ∀ l : Label n k, Decidable (l = .act .stop → Balanced queueSize s)
  | .act .stop => decidable_of_iff (Balanced queueSize s) (by simp)
  | .act .join | .call _ _ | .step _ | .signal _ _ | .wake _ | .ret _ | .between _ => isTrue nofun

/-- An item is put, and the flag is lowered while the consumer is on its way to take it. -/
def schedule (consumer producer : Fin 1 ⊕ Fin 1) : List (Label 1 1) :=
  .call producer (.put 5) :: List.replicate 4 (.step producer) ++
    [.signal producer ∅, .ret producer, .call consumer .take, .step consumer, .act .stop] ++
    List.replicate 3 (.step consumer) ++ [.signal consumer ∅, .ret consumer, .between producer,
      .between consumer, .act .join, .act .join]

theorem pthread_shutdown_schedule : ∃ s : State 1 1,
    (balancedRuns 1 1 1).Run (start 1 1) (schedule (.inl 0) (.inr 0)) s ∧ Finished s := by
  have hrun : (((schedule (.inl 0) (.inr 0)).foldlM (fun s l =>
      if l = .act .stop → Balanced 1 s then CondQueue.State.next (some 1) (client 1 1) s l
      else none) (start 1 1)).map
        fun s => decide ((∀ q, s.client.exited q = true) ∧ s.client.main = .joining [])) =
      some true := by
    decide
  obtain ⟨s, hs, hend⟩ := Option.map_eq_some_iff.mp hrun
  have hrun : (balancedRuns 1 1 1).Run (start 1 1) (schedule (.inl 0) (.inr 0)) s :=
    System.run_restrict hs
  have hreach : (balancedRuns 1 1 1).Reachable s :=
    ⟨start 1 1, schedule (.inl 0) (.inr 0), ⟨rfl, fun _ => rfl, rfl⟩, hrun⟩
  have hend := of_decide_eq_true hend
  have hfinished : Finished s := hend
  have hstuck := hfinished.stuck hreach.of_restrict
  exact ⟨s, hrun, (pthread_shutdown (by decide)).1 s hreach hstuck⟩

/-! ### A shutdown that fails -/

/-- Every consumer waits for an item, and every producer has seen the flag down. -/
def Abandoned (s : State n k) : Prop :=
  (∀ i, s.pc (.inl i) = .waiting .take) ∧ (∀ j, s.pc (.inr j) = .idle) ∧
    (∀ j, s.client.exited (.inr j) = true) ∧ (∀ i, s.client.exited (.inl i) = false) ∧
    s.client.running = false ∧ s.client.main = .joining (threads n k)

theorem Abandoned.stuck (h : Abandoned s) (hn : 0 < n) : (unaided n k queueSize).Stuck s := by
  obtain ⟨hwaiting, hidle, hexited, hblocked, hdown, hmain⟩ := h
  rintro l t ⟨ht, hwake⟩
  have hcall := (running_step hdown ht).2
  have ht := CondQueue.next_cases ht
  cases l with
  | call q op => exact hcall q op rfl
  | wake q => exact hwake q rfl
  | step q =>
    obtain ⟨m, c, hadv, -⟩ := ht
    rcases q with i | j
    · exact absurd hadv (by simp [hwaiting, CondQueue.advance])
    · exact absurd hadv (by simp [hidle, CondQueue.advance])
  | signal q woken =>
    obtain ⟨done, hq, -⟩ := ht
    rcases q with i | j
    · exact absurd hq (by simp [hwaiting])
    · exact absurd hq (by simp [hidle])
  | ret q =>
    obtain ⟨done, g, hq, -⟩ := ht
    rcases q with i | j
    · exact absurd hq (by simp [hwaiting])
    · exact absurd hq (by simp [hidle])
  | between q =>
    obtain ⟨hq, g, hg, -⟩ := ht
    rcases q with i | j
    · exact absurd hq (by simp [hwaiting])
    · obtain ⟨-, hnot, -⟩ := exit_eq_some hg
      exact absurd (hexited j) (by simp [hnot])
  | act a =>
    obtain ⟨g, hg, -⟩ := ht
    rcases test2_eq_some hg with ⟨-, hsleeping, -⟩ | ⟨-, q, rest, hjoining, hq, -⟩
    · exact absurd hsleeping (by simp [hmain])
    · obtain ⟨i, rfl⟩ : ∃ i, q = .inl i := by
        obtain ⟨k, rfl⟩ := Nat.exists_eq_succ_of_ne_zero hn.ne'
        rw [hmain, threads, List.finRange_succ] at hjoining
        simp only [List.map_cons, List.cons_append, Main.joining.injEq, List.cons.injEq] at hjoining
        exact ⟨0, hjoining.1.symm⟩
      exact absurd hq (by simp [hblocked])

instance (s : State n k) : Decidable (Abandoned s) := by
  unfold Abandoned
  infer_instance

/-- Every consumer finds the queue empty before a producer begins; then `test2` lowers the
flag, and the producers exit. -/
def abandon (n k : ℕ) : List (Label n k) :=
  (List.finRange n).flatMap (fun i => [.call (.inl i) .take, .step (.inl i), .step (.inl i)]) ++
    .act .stop :: (List.finRange k).map fun j => .between (.inr j)

/-- The shutdown of `test2` can fail. -/
theorem pthread_shutdown_hangs :
    ¬ ∀ s, (system 4 4 10).Reachable s → (unaided 4 4 10).Stuck s → Finished s := by
  intro hall
  have hrun : ((abandon 4 4).foldlM (CondQueue.State.next (some 10) (client 4 4))
      (start 4 4)).map (decide <| Abandoned ·) = some true := by decide
  obtain ⟨s, hs, habandoned⟩ := Option.map_eq_some_iff.mp hrun
  have habandoned := of_decide_eq_true habandoned
  have hreach : (system 4 4 10).Reachable s := reachable_start.run (System.run_ofStep hs)
  have hfinished := hall s hreach (habandoned.stuck (by decide))
  exact absurd (hfinished.1 (.inl 0)) (by simp [habandoned.2.2.2.1])

end CppProgramming.ProducerConsumer.Pthread
