import CppProgramming.Lib.Transition
import CppProgramming.Socket.Kernel
import Mathlib.Algebra.Ring.Nat
import Mathlib.Data.Int.Notation
import Mathlib.Data.List.Nodup
import Mathlib.Data.List.Perm.Lattice

/-!
# The slots of the benchmark server

`EventLoop` of `tcp_echo/server_epoll_bench.cpp`.  The thread of the acceptor hands its
connections over in a queue (`buf_conns`); the thread of the loop moves them into a vector
(`conns`), gives epoll the index of each one with its descriptor, and gets the indices back
with the events.  A connection that is done is moved out of its slot, which stays empty.

The two threads meet in `buf_conns_mutex` only: what is done under it is one step, and so is
each call of `epoll_wait`, `handle` and `rm_conn`.

epoll keeps the index in 32 bits and the loop reads it as an `int`.  The vector only grows,
so that a slot beyond `2 ^ 31` is read as a negative index (`slots_index_negative`); below
it, what comes back is what was given (`bench_slots`).
-/

namespace CppProgramming.Socket.Bench

open CppProgramming.Lib

/-- A `Connection`, known by the number of its construction. -/
structure Conn where
  id : ℕ
  fd : ℤ
deriving DecidableEq

/-- A `struct epoll_event`, and the descriptor that it is for. -/
structure Event where
  fd : ℤ
  events : BitVec 32
  u32 : BitVec 32

/-- Where the thread of the loop is: behind some of the events, in front of `rm_conn` for one
of them, or in front of `epoll_wait`.  With no events left it is in front of `dump_conn`. -/
inductive Loop
  | events (batch : List Event)
  | rmConn (e : Event) (batch : List Event)
  | epollWait

/-- The queue and the vector, the index that epoll has for a descriptor, and the numbers of
the connections that were destroyed. -/
structure State where
  bufConns : List Conn
  conns : List (Option Conn)
  registered : ℤ → Option (BitVec 32)
  loop : Loop
  next : ℕ
  destroyed : List ℕ

inductive Fault
  | outOfRange
  | emptySlot

/-- `max_events` -/
def maxEvents : ℕ := 1024

def EPOLLERR : BitVec 32 := 0x008

namespace State

/-- `conns[idx]->`, where a negative `idx` is converted to a `size_t` that no vector has. -/
def conn (idx : ℤ) (s : State) : Except Fault Conn :=
  if 0 ≤ idx then
    match s.conns[idx.toNat]? with
    | none => .error .outOfRange
    | some none => .error .emptySlot
    | some (some c) => .ok c
  else .error .outOfRange

/-- `Acceptor::accept` and `add_conn`; the descriptor is `-1` when `accept4` has failed. -/
def addConn (fd : ℤ) (s : State) : State :=
  { s with bufConns := s.bufConns ++ [⟨s.next, fd⟩], next := s.next + 1 }

/-- One turn of the loop of `dump_conn`; `epoll_ctl` fails for `-1` only. -/
def push (s : State) (c : Conn) : State :=
  { s with
    registered :=
      if 0 ≤ c.fd then
        Function.update s.registered c.fd (some (BitVec.ofNat 32 s.conns.length))
      else s.registered
    conns := s.conns ++ [some c] }

def dumpConn (s : State) : State :=
  { s.bufConns.foldl push s with bufConns := [], loop := .epollWait }

/-- `epoll_wait` with what it reports; it may also fail, and then there are no events. -/
def epollWait (reported : List (ℤ × BitVec 32)) (s : State) : State :=
  { s with loop := .events (reported.filterMap fun r =>
      (s.registered r.1).map fun u32 => ⟨r.1, r.2, u32⟩) }

/-- `int idx = events[i].data.u32` -/
def idx (e : Event) : ℤ := e.u32.toInt

/-- The body of the loop over the events, up to `rm_conn`; `ret` is what `handle` returns. -/
def handle (e : Event) (batch : List Event) (ret : ℤ) (s : State) : Except Fault State :=
  if e.events ||| EPOLLIN ≠ 0 then do
    let _ ← s.conn (idx e)
    if ret ≤ 0 then .ok { s with loop := .rmConn e batch }
    else .ok { s with loop := .events batch }
  else if e.events ||| EPOLLERR ≠ 0 then .ok { s with loop := .rmConn e batch }
  else .ok { s with loop := .events batch }

/-- `rm_conn(std::move(conns[idx]))`, at whose end the connection is destroyed. -/
def rmConn (e : Event) (batch : List Event) (s : State) : Except Fault State := do
  let c ← s.conn (idx e)
  .ok { s with
    conns := s.conns.set (idx e).toNat none
    registered := Function.update s.registered c.fd none
    destroyed := s.destroyed ++ [c.id]
    loop := .events batch }

/-- The connections that have not been destroyed. -/
def live (s : State) : List Conn := s.bufConns ++ s.conns.filterMap id

end State

inductive Label
  | addConn (fd : ℤ)
  | dumpConn
  | epollWait (reported : List (ℤ × BitVec 32))
  | handle (ret : ℤ)
  | rmConn

def start : State := ⟨[], [], fun _ => none, .events [], 0, []⟩

/-- The two threads.  `addConn` is a step of the acceptor and possible at any time; its
descriptor is not one that a connection has.  epoll reports at most one event for a
registered descriptor and none for another. -/
def system : System (Except Fault State) Label where
  init r := r = .ok start
  step r l q := ∃ s, r = .ok s ∧
    match l with
    | .addConn fd => (fd = -1 ∨ 0 ≤ fd ∧ ∀ c ∈ s.live, c.fd ≠ fd) ∧ q = .ok (s.addConn fd)
    | .dumpConn => s.loop = .events [] ∧ q = .ok s.dumpConn
    | .epollWait reported =>
      s.loop = .epollWait ∧ reported.length ≤ maxEvents ∧ (reported.map Prod.fst).Nodup ∧
        (∀ r ∈ reported, (s.registered r.1).isSome) ∧ q = .ok (s.epollWait reported)
    | .handle ret => ∃ e batch, s.loop = .events (e :: batch) ∧ q = s.handle e batch ret
    | .rmConn => ∃ e batch, s.loop = .rmConn e batch ∧ q = s.rmConn e batch

/-- The events that have been delivered and are not done with. -/
def State.pending (s : State) : List Event :=
  match s.loop with
  | .events batch => batch
  | .rmConn e batch => e :: batch
  | .epollWait => []

/-- **What the slots are for**: a delivered event finds the connection whose descriptor it is
for, and each connection is in one place, and destroyed once. -/
structure Correct (s : State) : Prop where
  events : ∀ e ∈ s.pending, e.u32.toNat < s.conns.length ∧
    ∃ c, s.conns[e.u32.toNat]? = some (some c) ∧ c.fd = e.fd
  places : (s.bufConns.map Conn.id ++ (s.conns.filterMap id).map Conn.id ++ s.destroyed).Perm
    (List.range s.next)

/-- `dump_conn` does not fill more slots than an `int` can count. -/
def SlotsLeft (r : Except Fault State) (l : Label) : Prop :=
  ∀ s, r = .ok s → l = .dumpConn → s.conns.length + s.bufConns.length ≤ 2 ^ 31

/-! ### The invariant -/

/-- **What epoll knows is in its slot**, and what has been delivered is still registered. -/
structure Inv (s : State) : Prop where
  size : s.conns.length ≤ 2 ^ 31
  registered : ∀ fd u32, s.registered fd = some u32 →
    ∃ c, s.conns[u32.toNat]? = some (some c) ∧ c.fd = fd
  pending : ∀ e ∈ s.pending, s.registered e.fd = some e.u32
  nodup : (s.pending.map Event.fd).Nodup
  places : (s.bufConns.map Conn.id ++ (s.conns.filterMap id).map Conn.id ++ s.destroyed).Perm
    (List.range s.next)

variable {s t : State} {e : Event} {batch : List Event} {c : Conn}

/-- **The index that comes back** is the one that was given. -/
theorem Inv.conn (h : Inv s) (he : e ∈ s.pending) :
    ∃ c, s.conn (State.idx e) = .ok c ∧ s.conns[e.u32.toNat]? = some (some c) ∧
      (State.idx e).toNat = e.u32.toNat ∧ c.fd = e.fd := by
  obtain ⟨c, hc, hfd⟩ := h.registered e.fd e.u32 (h.pending e he)
  have hlt : e.u32.toNat < s.conns.length := (List.getElem?_eq_some_iff.mp hc).1
  have hidx : State.idx e = e.u32.toNat := by
    have hsize := h.size
    rw [State.idx, BitVec.toInt_eq_toNat_of_lt]
    omega
  refine ⟨c, ?_, hc, by omega, hfd⟩
  rw [State.conn, hidx, if_pos (Int.natCast_nonneg _), Int.toNat_natCast, hc]

theorem Inv.start : Inv start where
  size := Nat.zero_le _
  registered _ _ h := absurd h (by simp [Bench.start])
  pending _ h := absurd h List.not_mem_nil
  nodup := List.nodup_nil
  places := .nil

theorem Inv.addConn (h : Inv s) (fd : ℤ) : Inv (s.addConn fd) := by
  refine ⟨h.size, h.registered, h.pending, h.nodup, ?_⟩
  dsimp only [State.addConn]
  rw [List.map_append, List.map_singleton, List.range_succ, List.append_assoc, List.append_assoc]
  refine (List.perm_append_comm.append_left (s.bufConns.map Conn.id)).trans ?_
  rw [← List.append_assoc, ← List.append_assoc]
  exact h.places.append_right [s.next]

theorem foldl_push (buf : List Conn) (s : State) :
    (buf.foldl State.push s).conns = s.conns ++ buf.map some ∧
      (buf.foldl State.push s).next = s.next ∧
      (buf.foldl State.push s).destroyed = s.destroyed := by
  induction buf generalizing s with
  | nil => exact ⟨(List.append_nil _).symm, rfl, rfl⟩
  | cons c buf ih =>
    obtain ⟨hconns, hnext, hdestroyed⟩ := ih (s.push c)
    refine ⟨?_, hnext, hdestroyed⟩
    rw [List.foldl_cons, hconns, List.map_cons, State.push, List.append_assoc]
    rfl

/-- What epoll knows is in its slot. -/
def Registered (s : State) : Prop :=
  ∀ fd u32, s.registered fd = some u32 → ∃ c, s.conns[u32.toNat]? = some (some c) ∧ c.fd = fd

theorem Registered.push (h : Registered s) (hsize : s.conns.length < 2 ^ 31) (c : Conn) :
    Registered (s.push c) := by
  intro fd u32 hu
  by_cases hcase : 0 ≤ c.fd ∧ fd = c.fd
  · obtain ⟨hvalid, rfl⟩ := hcase
    simp only [State.push, if_pos hvalid, Function.update_self] at hu
    obtain rfl := Option.some.inj hu
    refine ⟨c, ?_, rfl⟩
    rw [BitVec.toNat_ofNat, Nat.mod_eq_of_lt (by omega)]
    exact List.getElem?_concat_length
  · have hold : s.registered fd = some u32 := by
      simp only [State.push] at hu
      split at hu
      · rename_i hvalid
        rwa [Function.update_of_ne fun heq => hcase ⟨hvalid, heq⟩] at hu
      · exact hu
    obtain ⟨c', hc', hfd⟩ := h fd u32 hold
    refine ⟨c', ?_, hfd⟩
    dsimp only [State.push]
    rw [List.getElem?_append_left (List.getElem?_eq_some_iff.mp hc').1]
    exact hc'

theorem Registered.foldl (buf : List Conn) (h : Registered s)
    (hsize : s.conns.length + buf.length ≤ 2 ^ 31) : Registered (buf.foldl State.push s) := by
  induction buf generalizing s with
  | nil => exact h
  | cons c buf ih =>
    rw [List.length_cons] at hsize
    refine ih (h.push (by omega) c) ?_
    dsimp only [State.push]
    rw [List.length_append, List.length_singleton]
    omega

theorem Inv.dumpConn (h : Inv s) (hsize : s.conns.length + s.bufConns.length ≤ 2 ^ 31) :
    Inv s.dumpConn := by
  obtain ⟨hconns, hnext, hdestroyed⟩ := foldl_push s.bufConns s
  refine ⟨?_, Registered.foldl s.bufConns h.registered hsize, fun e he => absurd he List.not_mem_nil,
    List.nodup_nil, ?_⟩
  · dsimp only [State.dumpConn]
    rw [hconns, List.length_append, List.length_map]
    exact hsize
  · dsimp only [State.dumpConn]
    rw [hconns, hnext, hdestroyed, List.filterMap_append, List.filterMap_map]
    refine List.Perm.trans ?_ h.places
    have hbuf : s.bufConns.filterMap (id ∘ some) = s.bufConns := List.filterMap_some
    rw [hbuf, List.map_append, List.map_nil, List.nil_append]
    exact List.perm_append_comm.append_right s.destroyed

/-- **What is delivered is registered.** -/
theorem Inv.epollWait (h : Inv s) {reported : List (ℤ × BitVec 32)}
    (hnodup : (reported.map Prod.fst).Nodup) : Inv (s.epollWait reported) := by
  refine ⟨h.size, h.registered, ?_, ?_, h.places⟩
  · intro e he
    obtain ⟨r, -, hr⟩ := List.mem_filterMap.mp he
    obtain ⟨u32, hu, rfl⟩ := Option.map_eq_some_iff.mp hr
    exact hu
  · rw [List.Nodup, List.pairwise_map] at hnodup
    rw [List.Nodup, List.pairwise_map]
    refine List.pairwise_filterMap.mpr (hnodup.imp ?_)
    intro r r' hne e he e' he'
    obtain ⟨u32, -, rfl⟩ := Option.map_eq_some_iff.mp he
    obtain ⟨u32', -, rfl⟩ := Option.map_eq_some_iff.mp he'
    exact hne

theorem perm_set_none {conns : List (Option Conn)} {i : ℕ} (hi : conns[i]? = some (some c)) :
    (conns.filterMap id).Perm (c :: (conns.set i none).filterMap id) := by
  induction conns generalizing i with
  | nil => exact absurd hi (by simp)
  | cons x conns ih =>
    cases i with
    | zero =>
      obtain rfl := Option.some.inj hi
      exact List.Perm.refl _
    | succ i =>
      have ih := ih (show conns[i]? = some (some c) from hi)
      cases x with
      | none => exact ih
      | some d => exact (ih.cons d).trans (List.Perm.swap c d _)

theorem Inv.rmConn (h : Inv s) (hloop : s.loop = .rmConn e batch) :
    ∃ t, s.rmConn e batch = .ok t ∧ Inv t := by
  have hpending : s.pending = e :: batch := by rw [State.pending, hloop]
  obtain ⟨c, hconn, hc, hidx, hfd⟩ := h.conn (hpending ▸ List.mem_cons_self)
  have hnodup := h.nodup
  rw [hpending, List.map_cons, List.nodup_cons] at hnodup
  refine ⟨_, by rw [State.rmConn, hconn]; rfl, ?_, ?_, ?_, ?_, ?_⟩
  · dsimp only
    rw [List.length_set]
    exact h.size
  · intro fd u32 hu
    dsimp only at hu ⊢
    have hne : fd ≠ c.fd := by
      rintro rfl
      rw [Function.update_self] at hu
      exact absurd hu (by simp)
    rw [Function.update_of_ne hne] at hu
    obtain ⟨c', hc', hfd'⟩ := h.registered fd u32 hu
    refine ⟨c', ?_, hfd'⟩
    rw [List.getElem?_set_ne]
    · exact hc'
    · intro heq
      rw [hidx] at heq
      rw [← heq, hc] at hc'
      obtain rfl := Option.some.inj (Option.some.inj hc')
      exact hne hfd'.symm
  · intro e' he'
    have hne : e'.fd ≠ c.fd := by
      intro heq
      exact hnodup.1 (List.mem_map.mpr ⟨e', he', heq.trans hfd⟩)
    exact (Function.update_of_ne hne ..).trans (h.pending e' (hpending ▸ List.mem_cons_of_mem _ he'))
  · exact hnodup.2
  · dsimp only
    rw [hidx, ← List.append_assoc]
    refine List.Perm.trans ?_ h.places
    rw [List.append_assoc, List.append_assoc, List.append_assoc]
    refine List.Perm.append_left _ ?_
    rw [← List.append_assoc]
    refine List.perm_append_comm.trans ?_
    rw [← List.append_assoc]
    exact ((perm_set_none hc).map Conn.id).symm.append_right _

theorem or_EPOLLIN_ne_zero (events : BitVec 32) : events ||| EPOLLIN ≠ 0 := by
  intro h
  have hbit := congrArg (fun mask : BitVec 32 => mask.getLsbD 0) h
  simp [EPOLLIN] at hbit

theorem Inv.goOn (h : Inv s) {loop : Loop}
    (hsub : ({ s with loop := loop } : State).pending.Sublist s.pending) :
    Inv { s with loop := loop } :=
  ⟨h.size, h.registered, fun e he => h.pending e (hsub.subset he),
    h.nodup.sublist (hsub.map Event.fd), h.places⟩

theorem Inv.handle (h : Inv s) (hloop : s.loop = .events (e :: batch)) (ret : ℤ) :
    ∃ t, s.handle e batch ret = .ok t ∧ Inv t := by
  have hpending : s.pending = e :: batch := by rw [State.pending, hloop]
  obtain ⟨c, hconn, -⟩ := h.conn (hpending ▸ List.mem_cons_self)
  rw [State.handle, if_pos (or_EPOLLIN_ne_zero e.events), hconn]
  by_cases hret : ret ≤ 0
  · refine ⟨{ s with loop := .rmConn e batch }, if_pos hret, h.goOn ?_⟩
    rw [hpending]
    exact List.Sublist.refl _
  · refine ⟨{ s with loop := .events batch }, if_neg hret, h.goOn ?_⟩
    rw [hpending]
    exact List.sublist_cons_self e batch

theorem Inv.of_reachable {r : Except Fault State} (hr : (system.restrict SlotsLeft).Reachable r) :
    ∃ s, r = .ok s ∧ Inv s := by
  refine hr.invariant (P := fun r => ∃ s, r = .ok s ∧ Inv s) (fun r hr => ⟨_, hr, .start⟩)
    (fun r l q _ hs hstep => ?_)
  obtain ⟨s, rfl, hs⟩ := hs
  obtain ⟨⟨s', hs', hstep⟩, hslots⟩ := hstep
  obtain rfl := Except.ok.inj hs'
  cases l with
  | addConn fd =>
    obtain ⟨-, rfl⟩ := hstep
    exact ⟨_, rfl, hs.addConn fd⟩
  | dumpConn =>
    obtain ⟨-, rfl⟩ := hstep
    exact ⟨_, rfl, hs.dumpConn (hslots s rfl rfl)⟩
  | epollWait reported =>
    obtain ⟨-, -, hnodup, -, rfl⟩ := hstep
    exact ⟨_, rfl, hs.epollWait hnodup⟩
  | handle ret =>
    obtain ⟨e, batch, hloop, rfl⟩ := hstep
    exact hs.handle hloop ret
  | rmConn =>
    obtain ⟨e, batch, hloop, rfl⟩ := hstep
    exact hs.rmConn hloop

theorem Inv.correct (h : Inv s) : Correct s := by
  refine ⟨fun e he => ?_, h.places⟩
  obtain ⟨c, -, hc, -, hfd⟩ := h.conn he
  exact ⟨(List.getElem?_eq_some_iff.mp hc).1, c, hc, hfd⟩

/-! ### Clients that come and go -/

/-- `n` clients, one behind the other, have come and gone with descriptor 5. -/
def served (n : ℕ) : State :=
  ⟨[], List.replicate n none, fun _ => none, .events [], n, List.range n⟩

/-- The next one has sent something. -/
def ready (n : ℕ) : State :=
  ⟨[], List.replicate n none ++ [some ⟨n, 5⟩],
    Function.update (fun _ => none) 5 (some (BitVec.ofNat 32 n)),
    .events [⟨5, EPOLLIN, BitVec.ofNat 32 n⟩], n + 1, List.range n⟩

theorem step_addConn (n : ℕ) :
    system.step (.ok (served n)) (.addConn 5) (.ok ((served n).addConn 5)) := by
  refine ⟨_, rfl, Or.inr ⟨by decide, fun c hc => ?_⟩, rfl⟩
  exact absurd hc (by simp [State.live, served])

theorem step_dumpConn (n : ℕ) :
    system.step (.ok ((served n).addConn 5)) .dumpConn (.ok ((served n).addConn 5).dumpConn) :=
  ⟨_, rfl, rfl, rfl⟩

theorem step_epollWait (n : ℕ) :
    system.step (.ok ((served n).addConn 5).dumpConn) (.epollWait [(5, EPOLLIN)])
      (.ok (ready n)) := by
  refine ⟨_, rfl, rfl, by decide, List.nodup_singleton 5, fun r hr => ?_, ?_⟩
  · rw [List.mem_singleton.mp hr]
    rfl
  · simp [served, ready, State.addConn, State.dumpConn, State.push, State.epollWait]

/-- **The slots of the server**: as long as no more than `2 ^ 31` of them are filled, in every
interleaving of the two threads each event finds its connection, and no call is made on an
empty slot. -/
theorem bench_slots (r : Except Fault State) (hr : (system.restrict SlotsLeft).Reachable r) :
    ∃ s, r = .ok s ∧ Correct s := by
  obtain ⟨s, rfl, hs⟩ := Inv.of_reachable hr
  exact ⟨s, rfl, hs.correct⟩

/-- The first client has sent something. -/
theorem bench_slots_firstEvent : Correct (ready 0) := by
  have hstart : (system.restrict SlotsLeft).Reachable (.ok (served 0)) := .of_init rfl
  have hready := ((hstart.step ⟨step_addConn 0, ?_⟩).step ⟨step_dumpConn 0, ?_⟩).step
    ⟨step_epollWait 0, ?_⟩
  · obtain ⟨s, hs, hcorrect⟩ := bench_slots _ hready
    exact Except.ok.inj hs ▸ hcorrect
  · exact fun _ _ h => absurd h (by simp)
  · intro s hs _
    obtain rfl := Except.ok.inj hs
    decide
  · exact fun _ _ h => absurd h (by simp)

theorem ready_reachable {n : ℕ} (h : system.Reachable (.ok (served n))) :
    system.Reachable (.ok (ready n)) :=
  ((h.step (step_addConn n)).step (step_dumpConn n)).step (step_epollWait n)

theorem ready_conn {n : ℕ} (hn : n < 2 ^ 31) :
    (ready n).conn (State.idx ⟨5, EPOLLIN, BitVec.ofNat 32 n⟩) = .ok ⟨n, 5⟩ := by
  have hnat : (BitVec.ofNat 32 n).toNat = n := by
    rw [BitVec.toNat_ofNat, Nat.mod_eq_of_lt (by omega)]
  have hidx : State.idx ⟨5, EPOLLIN, BitVec.ofNat 32 n⟩ = n := by
    rw [State.idx]
    dsimp only
    rw [BitVec.toInt_eq_toNat_of_lt (by omega), hnat]
  rw [hidx, State.conn, if_pos (Int.natCast_nonneg n), Int.toNat_natCast, ready,
    List.getElem?_append_right (by simp)]
  simp

/-- As long as the index is an `int`, the client is served. -/
theorem served_succ {n : ℕ} (hn : n < 2 ^ 31) (h : system.Reachable (.ok (ready n))) :
    system.Reachable (.ok (served (n + 1))) := by
  let e : Event := ⟨5, EPOLLIN, BitVec.ofNat 32 n⟩
  have hidx : (State.idx e).toNat = n := by
    rw [State.idx, BitVec.toInt_eq_toNat_of_lt] <;> simp only [e, BitVec.toNat_ofNat] <;> omega
  have hhandle : system.step (.ok (ready n)) (.handle 0)
      (.ok { ready n with loop := .rmConn e [] }) := by
    refine ⟨_, rfl, e, [], rfl, ?_⟩
    rw [State.handle, if_pos (or_EPOLLIN_ne_zero e.events), ready_conn hn]
    rfl
  have hremove : system.step (.ok { ready n with loop := .rmConn e [] }) .rmConn
      (.ok (served (n + 1))) := by
    refine ⟨_, rfl, e, [], rfl, ?_⟩
    have hconn : State.conn (State.idx e) { ready n with loop := .rmConn e [] } = .ok ⟨n, 5⟩ :=
      ready_conn hn
    rw [State.rmConn, hconn]
    have hset : (List.replicate n none ++ [some (⟨n, 5⟩ : Conn)]).set n none =
        List.replicate (n + 1) none := by
      rw [List.set_append_right _ _ (by simp), List.length_replicate, Nat.sub_self,
        List.replicate_succ']
      rfl
    have hregistered : Function.update (Function.update (fun _ : ℤ => (none : Option (BitVec 32))) 5
        (some (BitVec.ofNat 32 n))) 5 none = fun _ => none := by
      rw [Function.update_idem]
      exact Function.update_eq_self 5 (fun _ : ℤ => (none : Option (BitVec 32)))
    change Except.ok _ = Except.ok _
    simp only [ready, served, hidx, hset, hregistered, List.range_succ]
  exact (h.step hhandle).step hremove

theorem served_reachable {n : ℕ} (hn : n ≤ 2 ^ 31) : system.Reachable (.ok (served n)) := by
  induction n with
  | zero => exact .of_init rfl
  | succ n ih => exact served_succ (by omega) (ready_reachable (ih (by omega)))

/-- The event of the connection behind `2 ^ 31` others has a negative index. -/
theorem slots_index_negative : ¬ ∀ r, system.Reachable r → ∃ s, r = .ok s ∧ Correct s := by
  intro hall
  have hready := ready_reachable (served_reachable (Nat.le_refl (2 ^ 31)))
  have hidx : ¬ 0 ≤ State.idx ⟨5, EPOLLIN, BitVec.ofNat 32 (2 ^ 31)⟩ := by decide
  have hhandle : system.step (.ok (ready (2 ^ 31))) (.handle 0) (.error .outOfRange) := by
    refine ⟨_, rfl, ⟨5, EPOLLIN, BitVec.ofNat 32 (2 ^ 31)⟩, [], rfl, ?_⟩
    rw [State.handle, if_pos (or_EPOLLIN_ne_zero _), State.conn, if_neg hidx]
    rfl
  obtain ⟨s, hs, -⟩ := hall _ (hready.step hhandle)
  exact absurd hs (by simp)

end CppProgramming.Socket.Bench
