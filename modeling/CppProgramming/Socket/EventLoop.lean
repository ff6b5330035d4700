import CppProgramming.Lib.Transition
import CppProgramming.Socket.Kernel
import Mathlib.Data.Int.Notation
import Mathlib.Data.List.Nodup

/-!
# `IOContext::run` and its handlers

The event loop of `tcp_echo1` calls `handle` on whatever pointer epoll hands back, and
deletes the handler when `handle` returns a negative value.  The handlers are the
`Acceptor`, a local variable of `main`, and the `Connection`s, which the factory of the
acceptor makes with `new`.  What a `Connection` does in its `handle` does not matter here:
it returns any value.

An object is known by the number of its construction, so that a pointer to a deleted one
is never a pointer to another.  `Fault` is what must not happen.

As nobody but the loop deletes, and a batch has one event for a descriptor, a handler in
the rest of a batch is alive.  What goes wrong is the other end: `Acceptor::handle` also
returns `-1`, and there is no `new` behind it.
-/

namespace CppProgramming.Socket.EventLoop

open CppProgramming.Lib

inductive Kind
  | acceptor
  | connection
deriving DecidableEq

/-- An `EpollHandler`, and whether it was made with `new`. -/
structure Handler where
  kind : Kind
  heap : Bool
  fd : ℕ
deriving DecidableEq

structure State where
  objects : ℕ → Option Handler
  next : ℕ
  registered : ℕ → Option ℕ
  batch : List (ℕ × BitVec 32)

inductive Fault
  | handleOfDeleted
  | deleteOfDeleted
  | deleteOfLocal
deriving DecidableEq

/-- `accept4`: a descriptor, `EAGAIN` or `EWOULDBLOCK`, or another `errno`. -/
inductive AcceptResult
  | fd (new : ℕ)
  | again
  | error
deriving DecidableEq

/-- What one call of `handle` meets: `accept4`, whether the `epoll_ctl` of a new
connection succeeds, and what `Connection::handle` returns. -/
structure Answer where
  accept4 : AcceptResult
  added : Bool
  connectionRet : ℤ

/-- `max_events` -/
def maxEvents : ℕ := 1024

namespace State

/-- `new Connection(fd, epfd)` -/
def newConnection (fd : ℕ) (added : Bool) (s : State) : State :=
  { s with
    objects := Function.update s.objects s.next (some ⟨.connection, true, fd⟩)
    next := s.next + 1
    registered := if added then Function.update s.registered fd (some s.next) else s.registered }

/-- `Acceptor::handle`; its connection factory always succeeds. -/
def acceptorHandle (ev : BitVec 32) (k : Answer) (s : State) : ℤ × State :=
  if ev &&& ~~~EPOLLIN ≠ 0 then (-1, s)
  else
    match k.accept4 with
    | .again => (0, s)
    | .error => (-1, s)
    | .fd new => (0, s.newConnection new k.added)

def handle (h : Handler) (ev : BitVec 32) (k : Answer) (s : State) : ℤ × State :=
  match h.kind with
  | .acceptor => s.acceptorHandle ev k
  | .connection => (k.connectionRet, s)

/-- `delete handler`: the destructor takes the descriptor out of epoll and closes it. -/
def delete (p : ℕ) (s : State) : Except Fault State :=
  match s.objects p with
  | none => .error .deleteOfDeleted
  | some h =>
    if h.heap then
      .ok { s with
        objects := Function.update s.objects p none
        registered := Function.update s.registered h.fd none }
    else .error .deleteOfLocal

/-- One event of the batch. -/
def dispatch (k : Answer) (s : State) : Option (Except Fault State) :=
  match s.batch with
  | [] => none
  | (p, ev) :: batch =>
    match s.objects p with
    | none => some (.error .handleOfDeleted)
    | some h =>
      let (ret, s) := State.handle h ev k { s with batch := batch }
      some (if ret < 0 then s.delete p else .ok s)

/-- What `epoll_wait` fills in for the reported descriptors. -/
def reported (s : State) (events : List (ℕ × BitVec 32)) : List (ℕ × BitVec 32) :=
  events.filterMap fun e => (s.registered e.1).map (·, e.2)

end State

inductive Label
  | epollWait (events : List (ℕ × BitVec 32))
  | dispatch (k : Answer)

/-- The acceptor is the first object, on the stack of `main`. -/
def acceptor (listenFd : ℕ) : Handler := ⟨.acceptor, false, listenFd⟩

def start (listenFd : ℕ) : State where
  objects := fun p => if p = 0 then some (acceptor listenFd) else none
  next := 1
  registered := fun fd => if fd = listenFd then some 0 else none
  batch := []

/-- The loop.  A batch has at most one event for a registered descriptor and none for
another; a new descriptor is not one that an object holds. -/
def system (listenFd : ℕ) : System (Except Fault State) Label where
  init e := e = .ok (start listenFd)
  step e l f := ∃ s, e = .ok s ∧
    match l with
    | .epollWait events =>
      s.batch = [] ∧ events.length ≤ maxEvents ∧ (events.map Prod.fst).Nodup ∧
        (∀ e ∈ events, (s.registered e.1).isSome) ∧
        f = .ok { s with batch := s.reported events }
    | .dispatch k =>
      (∀ new p h, k.accept4 = .fd new → s.objects p = some h → h.fd ≠ new) ∧
        s.dispatch k = some f

/-- No fault, and the listener can be used. -/
def Safe (listenFd : ℕ) (e : Except Fault State) : Prop :=
  ∃ s, e = .ok s ∧ s.objects 0 = some (acceptor listenFd) ∧ s.registered listenFd = some 0

/-- The acceptor reports a failure: an event that is not `EPOLLIN`, or an `accept4` that
fails with an `errno` other than `EAGAIN` and `EWOULDBLOCK`. -/
def AcceptorFails (e : Except Fault State) (l : Label) : Prop :=
  ∃ s k ev batch, e = .ok s ∧ l = .dispatch k ∧ s.batch = (0, ev) :: batch ∧
    (ev &&& ~~~EPOLLIN ≠ 0 ∨ k.accept4 = .error)

/-! ### The invariant -/

/-- **Ownership**: what epoll knows and what is left of the batch is alive, every object
but the acceptor was made with `new`, and each has its own descriptor. -/
structure Inv (listenFd : ℕ) (s : State) : Prop where
  fresh : ∀ p, s.next ≤ p → s.objects p = none
  acceptor : s.objects 0 = some (acceptor listenFd)
  connection : ∀ p h, s.objects p = some h → p ≠ 0 → h.kind = .connection ∧ h.heap = true
  fds : ∀ p q h i, s.objects p = some h → s.objects q = some i → h.fd = i.fd → p = q
  listener : s.registered listenFd = some 0
  registered : ∀ fd p, s.registered fd = some p → ∃ h, s.objects p = some h ∧ h.fd = fd
  batch : ∀ e ∈ s.batch, (s.objects e.1).isSome
  nodup : (s.batch.map Prod.fst).Nodup

variable {listenFd : ℕ} {s t : State} {k : Answer} {e : Except Fault State}

theorem Inv.start : Inv listenFd (start listenFd) := by
  refine ⟨fun p hp => ?_, rfl, fun p h hp hne => ?_, fun p q h i hp hq _ => ?_, ?_,
    fun fd p hfd => ?_, fun e he => ?_, List.nodup_nil⟩
  · exact if_neg (Nat.pos_iff_ne_zero.mp hp)
  · exact absurd hp (by simp [EventLoop.start, hne])
  · have hp : p = 0 := by
      by_contra hne
      exact absurd hp (by simp [EventLoop.start, hne])
    have hq : q = 0 := by
      by_contra hne
      exact absurd hq (by simp [EventLoop.start, hne])
    rw [hp, hq]
  · exact if_pos rfl
  · by_cases h : fd = listenFd
    · rw [show (EventLoop.start listenFd).registered fd = some 0 from if_pos h] at hfd
      obtain rfl := Option.some.inj hfd
      exact ⟨_, rfl, h.symm⟩
    · exact absurd hfd (by simp [EventLoop.start, h])
  · exact absurd he (by simp [EventLoop.start])

theorem Inv.epollWait (h : Inv listenFd s) {events : List (ℕ × BitVec 32)}
    (hnodup : (events.map Prod.fst).Nodup) :
    Inv listenFd { s with batch := s.reported events } := by
  refine ⟨h.fresh, h.acceptor, h.connection, h.fds, h.listener, h.registered, fun e he => ?_, ?_⟩
  · obtain ⟨⟨fd, ev⟩, -, hmap⟩ := List.mem_filterMap.mp he
    obtain ⟨p, hp, rfl⟩ := Option.map_eq_some_iff.mp hmap
    obtain ⟨i, hi, -⟩ := h.registered fd p hp
    dsimp only
    rw [hi]
    rfl
  · have hmap : (s.reported events).map Prod.fst =
        (events.map Prod.fst).filterMap s.registered := by
      rw [State.reported, List.map_filterMap, List.filterMap_map]
      refine List.filterMap_congr fun e _ => ?_
      dsimp only [Function.comp_apply]
      cases s.registered e.1 <;> rfl
    dsimp only
    rw [hmap]
    refine hnodup.filterMap fun fd fd' p hp hp' => ?_
    obtain ⟨i, hi, rfl⟩ := h.registered fd p hp
    obtain ⟨j, hj, rfl⟩ := h.registered fd' p hp'
    rw [hi] at hj
    rw [Option.some.inj hj]

theorem Inv.rest (h : Inv listenFd s) {e : ℕ × BitVec 32} {batch : List (ℕ × BitVec 32)}
    (hbatch : s.batch = e :: batch) : Inv listenFd { s with batch := batch } := by
  have hnodup := h.nodup
  rw [hbatch, List.map_cons] at hnodup
  refine ⟨h.fresh, h.acceptor, h.connection, h.fds, h.listener, h.registered, fun e he => ?_,
    (List.nodup_cons.mp hnodup).2⟩
  exact h.batch e (hbatch ▸ List.mem_cons_of_mem _ he)

theorem State.newConnection_objects (new : ℕ) (added : Bool) (p : ℕ) :
    (s.newConnection new added).objects p =
      if p = s.next then some ⟨.connection, true, new⟩ else s.objects p :=
  Function.update_apply ..

/-- **A new connection** is no object that anybody points to. -/
theorem Inv.newConnection (h : Inv listenFd s) {new : ℕ} (added : Bool)
    (hnew : ∀ p i, s.objects p = some i → i.fd ≠ new) :
    Inv listenFd (s.newConnection new added) := by
  have hlive : ∀ p i, s.objects p = some i → p ≠ s.next := by
    rintro p i hp rfl
    rw [h.fresh _ (Nat.le_refl _)] at hp
    exact absurd hp (by simp)
  have hobjects : ∀ p i, s.objects p = some i → (s.newConnection new added).objects p = some i :=
    fun p i hp => (Function.update_of_ne (hlive p i hp) ..).trans hp
  refine ⟨fun p hp => ?_, hobjects _ _ h.acceptor, fun p i hp hne => ?_, fun p q i j hp hq hij => ?_,
    ?_, fun fd p hfd => ?_, fun e he => ?_, h.nodup⟩
  · have hp : s.next + 1 ≤ p := hp
    exact (Function.update_of_ne (by omega) ..).trans (h.fresh p (by omega))
  · by_cases hpn : p = s.next
    · rw [State.newConnection_objects, if_pos hpn] at hp
      obtain rfl := Option.some.inj hp
      exact ⟨rfl, rfl⟩
    · rw [State.newConnection_objects, if_neg hpn] at hp
      exact h.connection p i hp hne
  · have hcases : ∀ p i, (s.newConnection new added).objects p = some i →
        p = s.next ∧ i.fd = new ∨ s.objects p = some i := by
      intro p i hp
      by_cases hpn : p = s.next
      · rw [State.newConnection_objects, if_pos hpn] at hp
        obtain rfl := Option.some.inj hp
        exact Or.inl ⟨hpn, rfl⟩
      · rw [State.newConnection_objects, if_neg hpn] at hp
        exact Or.inr hp
    rcases hcases p i hp with ⟨rfl, hi⟩ | hp
    · rcases hcases q j hq with ⟨rfl, _⟩ | hq
      · rfl
      · exact absurd (hij.symm.trans hi) (hnew q j hq)
    · rcases hcases q j hq with ⟨rfl, hj⟩ | hq
      · exact absurd (hij.trans hj) (hnew p i hp)
      · exact h.fds p q i j hp hq hij
  · have hne : listenFd ≠ new := hnew 0 _ h.acceptor
    cases added with
    | false => exact h.listener
    | true => exact (Function.update_of_ne hne ..).trans h.listener
  · by_cases hcase : added = true ∧ fd = new
    · obtain ⟨rfl, rfl⟩ := hcase
      have hfd : Function.update s.registered fd (some s.next) fd = some p := hfd
      rw [Function.update_self] at hfd
      obtain rfl := Option.some.inj hfd
      exact ⟨_, Function.update_self .., rfl⟩
    · have hfd : s.registered fd = some p := by
        cases added with
        | false => exact hfd
        | true =>
          have hne : fd ≠ new := fun h => hcase ⟨rfl, h⟩
          exact (Function.update_of_ne hne ..).symm.trans hfd
      obtain ⟨i, hi, hifd⟩ := h.registered fd p hfd
      exact ⟨i, hobjects p i hi, hifd⟩
  · obtain ⟨i, hi⟩ := Option.isSome_iff_exists.mp (h.batch e he)
    rw [hobjects _ _ hi]
    rfl

theorem Inv.delete (h : Inv listenFd s) {p : ℕ} {i : Handler} (hp : s.objects p = some i)
    (hne : p ≠ 0) (hbatch : p ∉ s.batch.map Prod.fst) :
    ∃ t, s.delete p = .ok t ∧ t.objects = Function.update s.objects p none ∧ Inv listenFd t := by
  have hheap := (h.connection p i hp hne).2
  refine ⟨_, by rw [State.delete, hp]; exact if_pos hheap, rfl, ?_⟩
  have hobjects : ∀ q j, q ≠ p → s.objects q = some j →
      Function.update s.objects p none q = some j :=
    fun q j hqp hq => (Function.update_of_ne hqp ..).trans hq
  have hback : ∀ q j, Function.update s.objects p none q = some j →
      q ≠ p ∧ s.objects q = some j := by
    intro q j hq
    by_cases hqp : q = p
    · rw [hqp, Function.update_self] at hq
      exact absurd hq (by simp)
    · exact ⟨hqp, (Function.update_of_ne hqp ..).symm.trans hq⟩
  refine ⟨fun q hq => ?_, hobjects 0 _ hne.symm h.acceptor, fun q j hq => ?_,
    fun q r j l hq hr => ?_, ?_, fun fd q hfd => ?_, fun e he => ?_, h.nodup⟩
  · by_cases hqp : q = p
    · exact hqp ▸ Function.update_self ..
    · exact (Function.update_of_ne hqp ..).trans (h.fresh q hq)
  · exact h.connection q j (hback q j hq).2
  · exact h.fds q r j l (hback q j hq).2 (hback r l hr).2
  · have hfd : listenFd ≠ i.fd := fun hfd => hne (h.fds p 0 i _ hp h.acceptor hfd.symm)
    exact (Function.update_of_ne hfd ..).trans h.listener
  · by_cases hfi : fd = i.fd
    · have hfd : Function.update s.registered i.fd none fd = some q := hfd
      rw [hfi, Function.update_self] at hfd
      exact absurd hfd (by simp)
    · obtain ⟨j, hj, hjfd⟩ := h.registered fd q ((Function.update_of_ne hfi ..).symm.trans hfd)
      refine ⟨j, hobjects q j ?_ hj, hjfd⟩
      rintro rfl
      rw [hp] at hj
      obtain rfl := Option.some.inj hj
      exact hfi hjfd.symm
  · obtain ⟨j, hj⟩ := Option.isSome_iff_exists.mp (h.batch e he)
    have hep : e.1 ≠ p := fun hep => hbatch (hep ▸ List.mem_map_of_mem he)
    dsimp only
    rw [hobjects _ _ hep hj]
    rfl

/-- **The event of a connection**: the object goes if and only if `handle` returned a
negative value. -/
theorem Inv.dispatch_connection (h : Inv listenFd s) {p : ℕ} {ev : BitVec 32}
    {batch : List (ℕ × BitVec 32)} (hbatch : s.batch = (p, ev) :: batch) {i : Handler}
    (hp : s.objects p = some i) (hkind : i.kind = .connection) (k : Answer) :
    ∃ t, s.dispatch k = some (.ok t) ∧ Inv listenFd t ∧
      t.objects = if k.connectionRet < 0 then Function.update s.objects p none else s.objects := by
  have hne : p ≠ 0 := by
    rintro rfl
    rw [h.acceptor] at hp
    obtain rfl := Option.some.inj hp
    exact absurd hkind (by simp [EventLoop.acceptor])
  have hrest := h.rest hbatch
  have hnodup := h.nodup
  rw [hbatch, List.map_cons] at hnodup
  simp only [State.dispatch, hbatch, hp, State.handle, hkind]
  by_cases hret : k.connectionRet < 0
  · obtain ⟨t, ht, hobjects, hinv⟩ := hrest.delete hp hne (List.nodup_cons.mp hnodup).1
    exact ⟨t, by rw [if_pos hret, ht], hinv, hobjects.trans (if_pos hret).symm⟩
  · exact ⟨{ s with batch := batch }, by rw [if_neg hret], hrest, (if_neg hret).symm⟩

theorem Inv.dispatch_acceptor (h : Inv listenFd s)
    (hnew : ∀ new p i, k.accept4 = .fd new → s.objects p = some i → i.fd ≠ new)
    {ev : BitVec 32} {batch : List (ℕ × BitVec 32)} (hbatch : s.batch = (0, ev) :: batch)
    (hev : ev &&& ~~~EPOLLIN = 0) (haccept : k.accept4 ≠ .error) :
    ∃ t, s.dispatch k = some (.ok t) ∧ Inv listenFd t ∧
      t.objects = match k.accept4 with
        | .fd new => Function.update s.objects s.next (some ⟨.connection, true, new⟩)
        | .again => s.objects
        | .error => s.objects := by
  have hrest := h.rest hbatch
  simp only [State.dispatch, hbatch, h.acceptor, State.handle, EventLoop.acceptor,
    State.acceptorHandle, hev, ne_eq, not_true_eq_false, if_false]
  cases hcase : k.accept4 with
  | error => exact absurd hcase haccept
  | again => exact ⟨{ s with batch := batch }, rfl, hrest, rfl⟩
  | fd new =>
    exact ⟨_, rfl, hrest.newConnection k.added fun q j hq => hnew new q j hcase hq, rfl⟩

theorem Inv.kind_cases (h : Inv listenFd s) {p : ℕ} {i : Handler} (hp : s.objects p = some i) :
    p = 0 ∧ i = EventLoop.acceptor listenFd ∨ i.kind = .connection := by
  by_cases hzero : p = 0
  · subst hzero
    rw [h.acceptor] at hp
    exact Or.inl ⟨rfl, (Option.some.inj hp).symm⟩
  · exact Or.inr (h.connection p i hp hzero).1

theorem Inv.dispatch (h : Inv listenFd s)
    (hnew : ∀ new p i, k.accept4 = .fd new → s.objects p = some i → i.fd ≠ new)
    (hfails : ¬ AcceptorFails (.ok s) (.dispatch k)) (he : s.dispatch k = some e) :
    ∃ t, e = .ok t ∧ Inv listenFd t := by
  cases hbatch : s.batch with
  | nil =>
    rw [State.dispatch, hbatch] at he
    exact absurd he (by simp)
  | cons event batch =>
    obtain ⟨p, ev⟩ := event
    obtain ⟨i, hi⟩ := Option.isSome_iff_exists.mp (h.batch (p, ev) (hbatch ▸ List.mem_cons_self))
    rcases h.kind_cases hi with ⟨rfl, -⟩ | hkind
    · have hev : ev &&& ~~~EPOLLIN = 0 := by
        by_contra hev
        exact hfails ⟨s, k, ev, batch, rfl, rfl, hbatch, Or.inl hev⟩
      have haccept : k.accept4 ≠ .error := fun haccept =>
        hfails ⟨s, k, ev, batch, rfl, rfl, hbatch, Or.inr haccept⟩
      obtain ⟨t, ht, hinv, -⟩ := h.dispatch_acceptor hnew hbatch hev haccept
      exact ⟨t, Option.some.inj (he.symm.trans ht), hinv⟩
    · obtain ⟨t, ht, hinv, -⟩ := h.dispatch_connection hbatch hi hkind k
      exact ⟨t, Option.some.inj (he.symm.trans ht), hinv⟩

theorem Inv.of_reachable
    (he : ((system listenFd).restrict fun e l => ¬ AcceptorFails e l).Reachable e) :
    ∃ s, e = .ok s ∧ Inv listenFd s := by
  refine he.invariant (P := fun e => ∃ s, e = .ok s ∧ Inv listenFd s) (fun e he => ?_)
    (fun e l f _ hs hf => ?_)
  · exact ⟨_, he, .start⟩
  · obtain ⟨s, rfl, hs⟩ := hs
    obtain ⟨⟨s', hs', hstep⟩, hfails⟩ := hf
    obtain rfl := Except.ok.inj hs'
    cases l with
    | epollWait events =>
      obtain ⟨-, -, hnodup, -, rfl⟩ := hstep
      exact ⟨_, rfl, hs.epollWait hnodup⟩
    | dispatch k => exact hs.dispatch hstep.1 hfails hstep.2

theorem State.acceptorHandle_fails {ev : BitVec 32}
    (h : ev &&& ~~~EPOLLIN ≠ 0 ∨ k.accept4 = .error) : s.acceptorHandle ev k = (-1, s) := by
  rw [State.acceptorHandle]
  by_cases hev : ev &&& ~~~EPOLLIN ≠ 0
  · rw [if_pos hev]
  · rw [if_neg hev, h.resolve_left hev]

theorem dispatch_acceptorFails {l : Label} (hs : s.objects 0 = some (acceptor listenFd))
    (hfails : AcceptorFails (.ok s) l)
    (he : (system listenFd).step (.ok s) l e) : e = .error .deleteOfLocal := by
  obtain ⟨s', k, ev, batch, hs', rfl, hbatch, hcase⟩ := hfails
  obtain rfl := Except.ok.inj hs'
  obtain ⟨s', hs', -, he⟩ := he
  obtain rfl := Except.ok.inj hs'
  have hret : State.handle (acceptor listenFd) ev k { s with batch := batch } =
      (-1, { s with batch := batch }) := State.acceptorHandle_fails hcase
  simp only [State.dispatch, hbatch, hs, hret] at he
  obtain rfl := Option.some.inj he
  rw [if_pos (by decide), State.delete, show ({ s with batch := batch } : State).objects 0 =
    some (acceptor listenFd) from hs]
  rfl

/-- **Who deletes what**: as long as the acceptor reports no failure, `handle` is called on
live objects only, each is deleted once at most and was made with `new`, and the listener
stays; and the first failure that the acceptor reports deletes the acceptor itself. -/
theorem event_loop_lifetime (listenFd : ℕ) :
    (∀ e, ((system listenFd).restrict fun e l => ¬ AcceptorFails e l).Reachable e →
        Safe listenFd e) ∧
      ∀ e l f, ((system listenFd).restrict fun e l => ¬ AcceptorFails e l).Reachable e →
        AcceptorFails e l → (system listenFd).step e l f → f = .error .deleteOfLocal := by
  refine ⟨fun e he => ?_, fun e l f he hfails hstep => ?_⟩
  · obtain ⟨s, rfl, hs⟩ := Inv.of_reachable he
    exact ⟨s, rfl, hs.acceptor, hs.listener⟩
  · obtain ⟨s, rfl, hs⟩ := Inv.of_reachable he
    exact dispatch_acceptorFails hs.acceptor hfails hstep

/-- The first connection is aborted before it is accepted. -/
theorem event_loop_deletes_acceptor :
    ¬ ∀ listenFd e, (system listenFd).Reachable e → Safe listenFd e := by
  intro hsafe
  have hwait : (system 3).step (.ok (start 3)) (.epollWait [(3, EPOLLIN)])
      (.ok { start 3 with batch := [(0, EPOLLIN)] }) :=
    ⟨_, rfl, rfl, by decide, by decide, by decide, rfl⟩
  have haccept : (system 3).step (.ok { start 3 with batch := [(0, EPOLLIN)] })
      (.dispatch ⟨.error, true, 0⟩) (.error .deleteOfLocal) :=
    ⟨_, rfl, fun _ _ _ h => by simp at h, rfl⟩
  obtain ⟨s, hs, -⟩ := hsafe 3 _ (((System.Reachable.of_init rfl).step hwait).step haccept)
  exact absurd hs (by simp)

end CppProgramming.Socket.EventLoop
