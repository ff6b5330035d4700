import CppProgramming.Lib.Except
import Mathlib.Data.Finset.Card
import Mathlib.Data.List.Nodup
import Mathlib.Data.Int.Notation
import Mathlib.Logic.Function.Basic
import Mathlib.Tactic.Common

/-!
# The `Poller`

`Poller` of `tcp_echo/server_poll_handle.cpp`: the array that `poll` is called with, and for
each descriptor the handler that the loop calls.

`remove_fd` leaves `-1` in its slot, and the slots are never reused: `add_fd` appends.  What
comes of it (`survives_iff`) is that the `Poller` does its work up to the first `add_fd`
behind a `remove_fd`.  That one appends behind a hole; when the array is full it writes behind
it, and else the `show_fds` at its end reads `handlers[-1]` for the hole.  While there is no
hole the array cannot overflow, as the descriptors in it are distinct and there are as many
slots as descriptors.

An access to an array is checked (`OutOfBounds`), where it is not inside by what the type
says: the loops read `pfds` below `num`.
-/

namespace CppProgramming.Socket

open CppProgramming.Lib

def POLLIN : BitVec 16 := 0x001

namespace Poll

/-- `Poller::max_fds` -/
def maxFds : ℕ := 4096

/-- `Poller::fd_range` -/
def fdRange : ℕ := 4096

/-- `struct pollfd` -/
structure PollFd where
  fd : ℤ
  events : BitVec 16
  revents : BitVec 16
deriving DecidableEq

/-- An access that is outside of its array. -/
inductive OutOfBounds
  | pfds (i : ℤ)
  | handlers (i : ℤ)
deriving DecidableEq

/-- The first `num` of the `pfds`, and the `handlers`, of which those below `fdRange` are
there.  A handler is known by its number. -/
structure Poller where
  pfds : List PollFd
  num_le : pfds.length ≤ maxFds
  handlers : ℕ → Option ℕ

namespace Poller

def new : Poller := ⟨[], Nat.zero_le _, fun _ => none⟩

/-- `handlers[fd]` -/
def handler (fd : ℤ) (p : Poller) : Except OutOfBounds (Option ℕ) :=
  if 0 ≤ fd ∧ fd < fdRange then .ok (p.handlers fd.toNat) else .error (.handlers fd)

/-- `handlers[fd] = h` -/
def setHandler (fd : ℤ) (h : Option ℕ) (p : Poller) : Except OutOfBounds Poller :=
  if 0 ≤ fd ∧ fd < fdRange then
    .ok { p with handlers := Function.update p.handlers fd.toNat h }
  else .error (.handlers fd)

/-- `pfds[num] = e` and `num++` -/
def push (e : PollFd) (p : Poller) : Except OutOfBounds Poller :=
  if h : p.pfds.length < maxFds then
    .ok { p with
      pfds := p.pfds ++ [e]
      num_le := by
        rw [List.length_append, List.length_singleton]
        exact h }
  else .error (.pfds p.pfds.length)

/-- What `show_fds` reads to print it. -/
def showFds (p : Poller) : Except OutOfBounds (List (Option ℕ)) :=
  p.pfds.mapM fun e => p.handler e.fd

/-- `add_fd` up to `show_fds`. -/
def enter (fd : ℤ) (events : BitVec 16) (h : Option ℕ) (p : Poller) :
    Except OutOfBounds (ℤ × Poller) :=
  if fdRange ≤ fd then .ok (-1, p)
  else if p.pfds.any (·.fd = fd) then .ok (-1, p)
  else do
    let p ← p.push ⟨fd, events, 0⟩
    let p ← p.setHandler fd h
    .ok (0, p)

def addFd (fd : ℤ) (events : BitVec 16) (h : Option ℕ) (p : Poller) :
    Except OutOfBounds (ℤ × Poller) := do
  let (ret, p) ← p.enter fd events h
  if ret = 0 then
    let _ ← p.showFds
    .ok (0, p)
  else .ok (ret, p)

/-- The first entry with `fd` becomes a hole. -/
def clear (fd : ℤ) : List PollFd → List PollFd
  | [] => []
  | e :: pfds => if e.fd = fd then { e with fd := -1 } :: pfds else e :: clear fd pfds

theorem length_clear (fd : ℤ) (pfds : List PollFd) : (clear fd pfds).length = pfds.length := by
  induction pfds with
  | nil => rfl
  | cons e pfds ih =>
    rw [clear]
    split
    · rfl
    · rw [List.length_cons, List.length_cons, ih]

def removeFd (fd : ℤ) (p : Poller) : Except OutOfBounds (ℤ × Poller) :=
  if p.pfds.any (·.fd = fd) then do
    let p ← setHandler fd none { p with
      pfds := clear fd p.pfds
      num_le := (length_clear fd p.pfds).trans_le p.num_le }
    .ok (0, p)
  else .ok (-1, p)

/-- The descriptors in a table. -/
def openFds (pfds : List PollFd) : List ℕ :=
  pfds.filterMap fun e => if 0 ≤ e.fd then some e.fd.toNat else none

/-- The descriptors that are open, as far as the `Poller` goes. -/
def opened (p : Poller) : List ℕ := openFds p.pfds

end Poller

inductive Call
  | addFd (fd : ℕ) (events : BitVec 16) (h : Option ℕ)
  | removeFd (fd : ℕ)

namespace Poller

def call (p : Poller) : Call → Except OutOfBounds (ℤ × Poller)
  | .addFd fd events h => p.addFd fd events h
  | .removeFd fd => p.removeFd fd

/-- A new `Poller` after some calls. -/
def after (calls : List Call) : Except OutOfBounds Poller :=
  calls.foldlM (fun p c => (p.call c).map Prod.snd) new

/-- **What a call has to do**: no access is out of bounds, a descriptor is refused for one of
the reasons there are, and what is refused changes nothing. -/
def Right (p : Poller) : Call → Prop
  | .addFd fd events h =>
    if fd < fdRange ∧ fd ∉ p.opened ∧ p.opened.length < maxFds then
      ∃ q, p.addFd fd events h = .ok (0, q) ∧ q.opened = p.opened ++ [fd] ∧
        q.handlers = Function.update p.handlers fd h
    else p.addFd fd events h = .ok (-1, p)
  | .removeFd fd =>
    if fd ∈ p.opened then
      ∃ q, p.removeFd fd = .ok (0, q) ∧ q.opened = p.opened.erase fd ∧
        q.handlers = Function.update p.handlers fd none
    else p.removeFd fd = .ok (-1, p)

/-- Every call of a sequence does what it has to do. -/
def Survives (calls : List Call) : Prop :=
  ∀ before c, before ++ [c] <+: calls → ∃ p, after before = .ok p ∧ p.Right c

/-- An `add_fd` that gets past its two checks, in a table with a hole. -/
def AddsBehindHole (p : Poller) (c : Call) : Prop :=
  ∃ fd events h, c = .addFd fd events h ∧ fd < fdRange ∧ fd ∉ p.opened ∧ ∃ e ∈ p.pfds, e.fd = -1

/-! ### The table -/

theorem mem_openFds {pfds : List PollFd} {fd : ℕ} :
    fd ∈ openFds pfds ↔ ∃ e ∈ pfds, e.fd = fd := by
  rw [openFds, List.mem_filterMap]
  refine exists_congr fun e => and_congr_right fun _ => ?_
  constructor
  · intro h
    split at h
    · have := Option.some.inj h
      omega
    · exact absurd h (by simp)
  · intro h
    rw [h, if_pos (Int.natCast_nonneg fd), Int.toNat_natCast]

theorem any_eq_true {pfds : List PollFd} {fd : ℕ} :
    pfds.any (·.fd = (fd : ℤ)) = true ↔ fd ∈ openFds pfds := by
  rw [List.any_eq_true, mem_openFds]
  simp

theorem openFds_append (pfds pfds' : List PollFd) :
    openFds (pfds ++ pfds') = openFds pfds ++ openFds pfds' := List.filterMap_append

theorem openFds_cons_hole {e : PollFd} (h : e.fd = -1) (pfds : List PollFd) :
    openFds (e :: pfds) = openFds pfds := by
  simp [openFds, h]

theorem openFds_cons {e : PollFd} {fd : ℕ} (h : e.fd = fd) (pfds : List PollFd) :
    openFds (e :: pfds) = fd :: openFds pfds := by
  simp [openFds, h]

/-- Each entry is a hole or has a descriptor. -/
def Entries (pfds : List PollFd) : Prop :=
  ∀ e ∈ pfds, e.fd = -1 ∨ ∃ fd : ℕ, e.fd = fd ∧ fd < fdRange

theorem openFds_clear {pfds : List PollFd} (hpfds : Entries pfds) (fd : ℕ) :
    openFds (clear fd pfds) = (openFds pfds).erase fd := by
  induction pfds with
  | nil => rfl
  | cons e pfds ih =>
    have ih := ih fun i hi => hpfds i (List.mem_cons_of_mem _ hi)
    rw [clear]
    rcases hpfds e List.mem_cons_self with hhole | ⟨fd', hfd', -⟩
    · rw [if_neg (by omega), openFds_cons_hole hhole, openFds_cons_hole hhole, ih]
    · rw [openFds_cons hfd']
      by_cases heq : fd' = fd
      · rw [if_pos (by omega), openFds_cons_hole rfl, heq, List.erase_cons_head]
      · rw [if_neg (by omega), openFds_cons hfd', ih, List.erase_cons_tail (by simpa using heq)]

/-- A table without a hole has as many descriptors as slots. -/
theorem length_openFds {pfds : List PollFd} (hpfds : Entries pfds)
    (hholes : ∀ e ∈ pfds, e.fd ≠ -1) : (openFds pfds).length = pfds.length := by
  induction pfds with
  | nil => rfl
  | cons e pfds ih =>
    have ih := ih (fun i hi => hpfds i (List.mem_cons_of_mem _ hi))
      fun i hi => hholes i (List.mem_cons_of_mem _ hi)
    obtain ⟨fd, hfd, -⟩ := (hpfds e List.mem_cons_self).resolve_left (hholes e List.mem_cons_self)
    rw [openFds_cons hfd, List.length_cons, List.length_cons, ih]

/-- **The pigeonhole**: where all descriptors are distinct and as many as there can be, each
of them is there. -/
theorem mem_of_full {fds : List ℕ} (hnodup : fds.Nodup) (hlt : ∀ fd ∈ fds, fd < fdRange)
    (hfull : fdRange ≤ fds.length) {fd : ℕ} (hfd : fd < fdRange) : fd ∈ fds := by
  have hsubset : fds.toFinset ⊆ Finset.range fdRange := by
    intro i hi
    exact Finset.mem_range.mpr (hlt i (List.mem_toFinset.mp hi))
  have heq := Finset.eq_of_subset_of_card_le hsubset (by
    rw [Finset.card_range, List.toFinset_card_of_nodup hnodup]
    exact hfull)
  exact List.mem_toFinset.mp (heq ▸ Finset.mem_range.mpr hfd)

/-- **The invariant**: no descriptor is in the table twice. -/
structure WellFormed (p : Poller) : Prop where
  entries : Entries p.pfds
  nodup : p.opened.Nodup

variable {p q : Poller} {fd : ℕ} {events : BitVec 16} {h : Option ℕ}

theorem WellFormed.new : new.WellFormed := ⟨fun _ he => absurd he (by simp [Poller.new]), by
  simp [Poller.new, opened, openFds]⟩

theorem WellFormed.lt_of_mem (hp : p.WellFormed) (hfd : fd ∈ p.opened) : fd < fdRange := by
  obtain ⟨e, he, hefd⟩ := mem_openFds.mp hfd
  rcases hp.entries e he with hhole | ⟨fd', hfd', hlt⟩
  · omega
  · omega

/-! ### What the calls do -/

theorem setHandler_eq (hfd : fd < fdRange) (h : Option ℕ) :
    p.setHandler fd h = .ok { p with handlers := Function.update p.handlers fd h } := by
  rw [setHandler, if_pos ⟨Int.natCast_nonneg fd, by omega⟩]
  rfl

theorem handler_eq (hfd : fd < fdRange) : p.handler fd = .ok (p.handlers fd) := by
  rw [handler, if_pos ⟨Int.natCast_nonneg fd, by omega⟩]
  rfl

theorem enter_refused (hfd : fdRange ≤ fd ∨ fd ∈ p.opened) : p.enter fd events h = .ok (-1, p) := by
  rw [enter]
  split
  · rfl
  · rw [if_pos (any_eq_true.mpr (hfd.resolve_left (by omega)))]

theorem enter_full (hfd : fd < fdRange) (hnew : fd ∉ p.opened) (hfull : p.pfds.length = maxFds) :
    p.enter fd events h = .error (.pfds maxFds) := by
  rw [enter, if_neg (by omega), if_neg (fun hany => hnew (any_eq_true.mp hany)), push,
    dif_neg (by omega), hfull]
  rfl

theorem push_eq (e : PollFd) (hroom : p.pfds.length < maxFds) :
    ∃ q, p.push e = .ok q ∧ q.pfds = p.pfds ++ [e] ∧ q.handlers = p.handlers :=
  ⟨_, dif_pos hroom, rfl, rfl⟩

/-- The table with one more entry. -/
theorem enter_eq (events : BitVec 16) (h : Option ℕ) (hfd : fd < fdRange) (hnew : fd ∉ p.opened)
    (hroom : p.pfds.length < maxFds) :
    ∃ q, p.enter fd events h = .ok (0, q) ∧ q.pfds = p.pfds ++ [⟨fd, events, 0⟩] ∧
      q.handlers = Function.update p.handlers fd h := by
  obtain ⟨q, hq, hpfds, hhandlers⟩ := push_eq ⟨fd, events, 0⟩ hroom
  rw [enter, if_neg (by omega), if_neg (fun hany => hnew (any_eq_true.mp hany)), hq]
  refine ⟨{ q with handlers := Function.update q.handlers fd h }, ?_, hpfds, ?_⟩
  · rw [ok_bind, setHandler_eq hfd, ok_bind]
  · rw [hhandlers]

theorem opened_of_enter (hq : q.pfds = p.pfds ++ [⟨fd, events, 0⟩]) :
    q.opened = p.opened ++ [fd] := by
  rw [opened, hq, openFds_append]
  exact congrArg (p.opened ++ ·) (openFds_cons rfl [])

theorem removeFd_eq (hfd : fd < fdRange) (hmem : fd ∈ p.opened) :
    ∃ q, p.removeFd fd = .ok (0, q) ∧ q.pfds = clear fd p.pfds ∧
      q.handlers = Function.update p.handlers fd none := by
  rw [removeFd, if_pos (any_eq_true.mpr hmem), setHandler_eq hfd]
  exact ⟨_, rfl, rfl, rfl⟩

theorem removeFd_refused (hmem : fd ∉ p.opened) : p.removeFd fd = .ok (-1, p) := by
  rw [removeFd, if_neg (fun hany => hmem (any_eq_true.mp hany))]

theorem addFd_refused (hfd : fdRange ≤ fd ∨ fd ∈ p.opened) :
    p.addFd fd events h = .ok (-1, p) := by
  rw [addFd, enter_refused hfd, ok_bind]
  exact if_neg (by decide)

theorem addFd_full (hfd : fd < fdRange) (hnew : fd ∉ p.opened) (hfull : p.pfds.length = maxFds) :
    p.addFd fd events h = .error (.pfds maxFds) := by
  rw [addFd, enter_full hfd hnew hfull, error_bind]

/-- Behind the new entry, `show_fds` decides. -/
theorem addFd_entered (hq : p.enter fd events h = .ok (0, q)) :
    p.addFd fd events h = q.showFds >>= fun _ => .ok (0, q) := by
  rw [addFd, hq, ok_bind]
  exact if_pos rfl

/-- `show_fds` reads inside of `handlers` as long as there is no hole. -/
theorem mapM_handler {pfds : List PollFd} (hpfds : Entries pfds)
    (hholes : ∀ e ∈ pfds, e.fd ≠ -1) : ∃ l, pfds.mapM (fun e => p.handler e.fd) = .ok l := by
  induction pfds with
  | nil => exact ⟨[], rfl⟩
  | cons e pfds ih =>
    obtain ⟨l, hl⟩ := ih (fun i hi => hpfds i (List.mem_cons_of_mem _ hi))
      fun i hi => hholes i (List.mem_cons_of_mem _ hi)
    obtain ⟨fd, hfd, hlt⟩ := (hpfds e List.mem_cons_self).resolve_left (hholes e List.mem_cons_self)
    refine ⟨p.handlers fd :: l, ?_⟩
    rw [List.mapM_cons, hfd, handler_eq hlt, hl]
    rfl

/-- For a hole it reads `handlers[-1]`. -/
theorem mapM_handler_hole {pfds : List PollFd} (hpfds : Entries pfds)
    (hhole : ∃ e ∈ pfds, e.fd = -1) :
    pfds.mapM (fun e => p.handler e.fd) = .error (.handlers (-1)) := by
  induction pfds with
  | nil => exact absurd hhole (by simp)
  | cons e pfds ih =>
    rw [List.mapM_cons]
    rcases hpfds e List.mem_cons_self with hfd | ⟨fd, hfd, hlt⟩
    · rw [hfd]
      rfl
    · obtain ⟨i, hi, hihole⟩ := hhole
      rcases List.mem_cons.mp hi with rfl | hi
      · omega
      · rw [hfd, handler_eq hlt,
          ih (fun i hi => hpfds i (List.mem_cons_of_mem _ hi)) ⟨i, hi, hihole⟩]
        rfl

theorem entries_append (hpfds : Entries p.pfds) (hfd : fd < fdRange)
    (hq : q.pfds = p.pfds ++ [⟨fd, events, 0⟩]) : Entries q.pfds := by
  intro e he
  rw [hq] at he
  rcases List.mem_append.mp he with he | he
  · exact hpfds e he
  · rw [List.mem_singleton.mp he]
    exact Or.inr ⟨fd, rfl, hfd⟩

theorem entries_clear {pfds : List PollFd} (hpfds : Entries pfds) (fd : ℤ) :
    Entries (clear fd pfds) := by
  induction pfds with
  | nil => exact hpfds
  | cons e pfds ih =>
    have ih := ih fun i hi => hpfds i (List.mem_cons_of_mem _ hi)
    rw [clear]
    split
    · intro i hi
      rcases List.mem_cons.mp hi with rfl | hi
      · exact Or.inl rfl
      · exact hpfds i (List.mem_cons_of_mem _ hi)
    · intro i hi
      rcases List.mem_cons.mp hi with rfl | hi
      · exact hpfds i List.mem_cons_self
      · exact ih i hi

/-- **Without a hole there is room** for a descriptor that is not in the table. -/
theorem WellFormed.room (hp : p.WellFormed) (hholes : ∀ e ∈ p.pfds, e.fd ≠ -1)
    (hfd : fd < fdRange) (hnew : fd ∉ p.opened) : p.pfds.length < maxFds := by
  by_contra hfull
  refine hnew (mem_of_full hp.nodup (fun _ => hp.lt_of_mem) ?_ hfd)
  rw [opened, length_openFds hp.entries hholes]
  exact not_lt.mp hfull

/-- **An `add_fd` behind a hole** is out of bounds in any case. -/
theorem WellFormed.addFd_behindHole (hp : p.WellFormed) (events : BitVec 16) (h : Option ℕ)
    (hfd : fd < fdRange) (hnew : fd ∉ p.opened) (hhole : ∃ e ∈ p.pfds, e.fd = -1) :
    p.addFd fd events h =
      .error (if p.pfds.length < maxFds then .handlers (-1) else .pfds maxFds) := by
  by_cases hroom : p.pfds.length < maxFds
  · obtain ⟨q, hq, hpfds, -⟩ := enter_eq events h hfd hnew hroom
    obtain ⟨e, he, hefd⟩ := hhole
    have hshow : q.showFds = .error (.handlers (-1)) :=
      mapM_handler_hole (entries_append hp.entries hfd hpfds)
        ⟨e, hpfds ▸ List.mem_append_left _ he, hefd⟩
    rw [addFd_entered hq, hshow, error_bind, if_pos hroom]
  · rw [addFd_full hfd hnew (le_antisymm p.num_le (not_lt.mp hroom)), if_neg hroom]

/-- A descriptor that is refused. -/
theorem right_addFd_refused (hrefused : fdRange ≤ fd ∨ fd ∈ p.opened) :
    p.Right (.addFd fd events h) := by
  have hroom : ¬ (fd < fdRange ∧ fd ∉ p.opened ∧ p.opened.length < maxFds) := by
    rintro ⟨hfd, hnew, -⟩
    exact hrefused.elim (fun hle => absurd hfd (not_lt.mpr hle)) hnew
  rw [Right, if_neg hroom]
  exact addFd_refused hrefused

/-- **An `add_fd` in a table without a hole** finds room. -/
theorem WellFormed.right_addFd (hp : p.WellFormed) (hholes : ∀ e ∈ p.pfds, e.fd ≠ -1)
    (hfd : fd < fdRange) (hnew : fd ∉ p.opened) : p.Right (.addFd fd events h) := by
  have hroom := hp.room hholes hfd hnew
  have hlength : p.opened.length = p.pfds.length := length_openFds hp.entries hholes
  obtain ⟨q, hq, hpfds, hhandlers⟩ := enter_eq events h hfd hnew hroom
  have hqholes : ∀ e ∈ q.pfds, e.fd ≠ -1 := by
    intro e he
    rw [hpfds] at he
    rcases List.mem_append.mp he with he | he
    · exact hholes e he
    · rw [List.mem_singleton.mp he]
      dsimp only
      omega
  obtain ⟨l, hl⟩ := mapM_handler (p := q) (entries_append hp.entries hfd hpfds) hqholes
  have hshow : q.showFds = .ok l := hl
  rw [Right, if_pos ⟨hfd, hnew, hlength ▸ hroom⟩]
  exact ⟨q, by rw [addFd_entered hq, hshow, ok_bind], opened_of_enter hpfds, hhandlers⟩

theorem WellFormed.right_removeFd (hp : p.WellFormed) (fd : ℕ) : p.Right (.removeFd fd) := by
  rw [Right]
  split
  · rename_i hmem
    obtain ⟨q, hq, hpfds, hhandlers⟩ := removeFd_eq (hp.lt_of_mem hmem) hmem
    refine ⟨q, hq, ?_, hhandlers⟩
    rw [opened, hpfds, openFds_clear hp.entries]
    rfl
  · rename_i hmem
    exact removeFd_refused hmem

/-! ### Sequences of calls -/

theorem WellFormed.append (hp : p.WellFormed) (hfd : fd < fdRange) (hnew : fd ∉ p.opened)
    (hq : q.pfds = p.pfds ++ [⟨fd, events, 0⟩]) : q.WellFormed := by
  refine ⟨entries_append hp.entries hfd hq, ?_⟩
  rw [opened_of_enter hq]
  exact List.nodup_append.mpr ⟨hp.nodup, List.nodup_singleton fd, fun i hi j hj => by
    rw [List.mem_singleton.mp hj]
    rintro rfl
    exact hnew hi⟩

theorem WellFormed.cleared (hp : p.WellFormed) (hq : q.pfds = clear fd p.pfds) : q.WellFormed := by
  refine ⟨hq ▸ entries_clear hp.entries fd, ?_⟩
  rw [opened, hq, openFds_clear hp.entries]
  exact hp.nodup.erase fd

/-- What an `add_fd` that comes back has done. -/
theorem addFd_cases {ret : ℤ} (hq : p.addFd fd events h = .ok (ret, q)) :
    q = p ∨ fd < fdRange ∧ fd ∉ p.opened ∧ q.pfds = p.pfds ++ [⟨fd, events, 0⟩] := by
  by_cases hrefused : fdRange ≤ fd ∨ fd ∈ p.opened
  · rw [addFd_refused hrefused] at hq
    exact Or.inl (Prod.mk.inj (Except.ok.inj hq)).2.symm
  · obtain ⟨hfd, hnew⟩ := not_or.mp hrefused
    have hfd := not_le.mp hfd
    refine Or.inr ⟨hfd, hnew, ?_⟩
    by_cases hroom : p.pfds.length < maxFds
    · obtain ⟨q', hq', hpfds, -⟩ := enter_eq events h hfd hnew hroom
      rw [addFd_entered hq'] at hq
      obtain ⟨_, _, hq⟩ := finished_of_bind hq
      rw [← (Prod.mk.inj (Except.ok.inj hq)).2]
      exact hpfds
    · rw [addFd_full hfd hnew (le_antisymm p.num_le (not_lt.mp hroom))] at hq
      exact absurd hq (by simp)

theorem WellFormed.call (hp : p.WellFormed) {c : Call} {ret : ℤ}
    (hq : p.call c = .ok (ret, q)) : q.WellFormed := by
  cases c with
  | addFd fd events h =>
    rcases addFd_cases hq with rfl | ⟨hfd, hnew, hpfds⟩
    · exact hp
    · exact hp.append hfd hnew hpfds
  | removeFd fd =>
    have hq : p.removeFd fd = .ok (ret, q) := hq
    by_cases hmem : fd ∈ p.opened
    · obtain ⟨q', hq', hpfds, -⟩ := removeFd_eq (hp.lt_of_mem hmem) hmem
      rw [hq'] at hq
      rw [← (Prod.mk.inj (Except.ok.inj hq)).2]
      exact hp.cleared hpfds
    · rw [removeFd_refused hmem] at hq
      rw [← (Prod.mk.inj (Except.ok.inj hq)).2]
      exact hp

theorem after_concat (calls : List Call) (c : Call) :
    after (calls ++ [c]) = after calls >>= fun p => (p.call c).map Prod.snd := by
  rw [after, List.foldlM_append]
  exact bind_congr fun p => by simp

theorem WellFormed.after {calls : List Call} (hp : after calls = .ok p) : p.WellFormed := by
  induction calls using List.reverseRecOn generalizing p with
  | nil =>
    obtain rfl := Except.ok.inj hp
    exact .new
  | append_singleton calls c ih =>
    rw [after_concat] at hp
    obtain ⟨q, hq, hp⟩ := finished_of_bind hp
    cases hc : q.call c with
    | error o =>
      rw [hc] at hp
      exact absurd hp (by simp [Except.map])
    | ok r =>
      rw [hc] at hp
      obtain rfl := Except.ok.inj hp
      exact (ih hq).call hc

/-- **One call** is right if and only if it does not append behind a hole. -/
theorem WellFormed.right_iff (hp : p.WellFormed) (c : Call) :
    p.Right c ↔ ¬ p.AddsBehindHole c := by
  constructor
  · rintro hright ⟨fd, events, h, rfl, hfd, hnew, hhole⟩
    have herror := hp.addFd_behindHole events h hfd hnew hhole
    rw [Right] at hright
    split at hright
    · obtain ⟨q, hq, -⟩ := hright
      exact absurd (herror.symm.trans hq) (by simp)
    · exact absurd (herror.symm.trans hright) (by simp)
  · intro hnone
    cases c with
    | removeFd fd => exact hp.right_removeFd fd
    | addFd fd events h =>
      by_cases hrefused : fdRange ≤ fd ∨ fd ∈ p.opened
      · exact right_addFd_refused hrefused
      · obtain ⟨hfd, hnew⟩ := not_or.mp hrefused
        apply hp.right_addFd ?_ (not_le.mp hfd) hnew
        intro e he hhole
        exact hnone ⟨fd, events, h, rfl, not_le.mp hfd, hnew, e, he, hhole⟩

/-- A call that is right comes back. -/
theorem Right.call {c : Call} (hc : p.Right c) : ∃ ret q, p.call c = .ok (ret, q) := by
  cases c with
  | addFd fd events h =>
    rw [Right] at hc
    split at hc
    · obtain ⟨q, hq, -⟩ := hc
      exact ⟨0, q, hq⟩
    · exact ⟨-1, p, hc⟩
  | removeFd fd =>
    rw [Right] at hc
    split at hc
    · obtain ⟨q, hq, -⟩ := hc
      exact ⟨0, q, hq⟩
    · exact ⟨-1, p, hc⟩

/-- **How long the `Poller` lasts**: a sequence of calls is served if and only if none of its
`add_fd`s appends to a table with a hole. -/
theorem survives_iff (calls : List Call) :
    Survives calls ↔
      ∀ before c, before ++ [c] <+: calls → ∀ p, Poller.after before = .ok p →
        ¬ p.AddsBehindHole c := by
  constructor
  · intro hs before c hprefix p hp
    obtain ⟨p', hp', hright⟩ := hs before c hprefix
    obtain rfl := Except.ok.inj (hp.symm.trans hp')
    exact ((WellFormed.after hp).right_iff c).mp hright
  · intro hnone
    have hafter : ∀ before, before <+: calls → ∃ p, Poller.after before = .ok p := by
      intro before
      induction before using List.reverseRecOn with
      | nil => exact fun _ => ⟨new, rfl⟩
      | append_singleton before c ih =>
        intro hpre
        obtain ⟨p, hp⟩ := ih ((List.prefix_append before [c]).trans hpre)
        obtain ⟨ret, q, hq⟩ :=
          (((WellFormed.after hp).right_iff c).mpr (hnone before c hpre p hp)).call
        exact ⟨q, by rw [after_concat, hp, ok_bind, hq]; rfl⟩
    intro before c hpre
    obtain ⟨p, hp⟩ := hafter before ((List.prefix_append before [c]).trans hpre)
    exact ⟨p, hp, ((WellFormed.after hp).right_iff c).mpr (hnone before c hpre p hp)⟩

/-- One client comes and goes, and the next one gets its descriptor. -/
theorem not_survives_reconnect :
    ¬ ∀ calls, Survives calls := by
  intro hall
  obtain ⟨p, hp, hright⟩ := hall
    [.addFd 3 POLLIN none, .addFd 4 POLLIN (some 1), .removeFd 4, .addFd 4 POLLIN (some 2)]
    [.addFd 3 POLLIN none, .addFd 4 POLLIN (some 1), .removeFd 4] (.addFd 4 POLLIN (some 2))
    (List.prefix_refl _)
  have hbehind := ((WellFormed.after hp).right_iff _).mp hright
  obtain rfl := Except.ok.inj hp
  exact hbehind ⟨4, POLLIN, some 2, rfl, by decide, by decide, by decide⟩

end Poller

end Poll

end CppProgramming.Socket
