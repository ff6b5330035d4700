import CppProgramming.Socket.Coroutine.Context
import CppProgramming.Socket.EventLoop

/-!
# The coroutine server and its connections

`EventLoop::run`, `Acceptor::handle` and the connections of
`tcp_echo/server_epoll_et_ucontext1.cpp`.  The loop and the acceptor are those of
`Socket.EventLoop` (`simulation`); new is that the acceptor starts the coroutine of a
connection at once, and that the coroutine runs inside of `start` or of `handle` until it
waits or exits (`goOn`).

A coroutine that exits leaves its connection to the loop, and the loop deletes on a negative
value of `handle`.  `handle` returns it when the coroutine has exited, but `start` returns
`0`, and `Acceptor::handle` does not look at it: a coroutine that gets to its end inside of
`start` leaves a connection that nobody deletes (`ExitsInStart`).
-/

namespace CppProgramming.Socket.Coroutine

open CppProgramming.Lib
open EventLoop (Fault AcceptResult Answer)

/-- The call in which the coroutine of a connection runs: `conn->start()` of
`Acceptor::handle`, or `Connection::handle`. -/
inductive Site
  | start
  | handle
deriving DecidableEq

/-- The loop, the connection of each object that is one, and the connection whose coroutine
runs; there is none while control is in `EventLoop::run`. -/
structure Process where
  loop : EventLoop.State
  connections : ℕ → Semaphores
  current : Option (ℕ × Site)

namespace Process

/-- Connection `p` in a call: its coroutine goes on, or the call returns.  A `start` that
returns ends the call of `Acceptor::handle`, which is off the batch; what `handle` returns
is for the loop, where its event is still at hand. -/
def goOn (p : ℕ) (site : Site) (c : Semaphores) (s : Process) : Option (Except Fault Process) :=
  match c.control, site with
  | .coroutine, site =>
    some (.ok { s with
      connections := Function.update s.connections p c, current := some (p, site) })
  | .main _, .start =>
    some (.ok { s with connections := Function.update s.connections p c, current := none })
  | .main ret, .handle =>
    (s.loop.dispatch ⟨.again, true, ret⟩).map fun e => e.map fun loop =>
      { loop := loop, connections := Function.update s.connections p c, current := none }

/-- `conn->start()` behind `new Connection`; `mem` is what is in its memory. -/
def accepted (accept4 : AcceptResult) (mem : Vector UInt8 bufSize) (s : Process)
    (loop : EventLoop.State) : Process :=
  match accept4 with
  | .fd _ =>
    { loop := loop
      connections := Function.update s.connections s.loop.next (Semaphores.start mem)
      current := some (s.loop.next, .start) }
  | .again => { s with loop := loop }
  | .error => { s with loop := loop }

/-- The next event of the batch, up to where its handler waits for a system call. -/
def dispatch (accept4 : AcceptResult) (added : Bool) (mem : Vector UInt8 bufSize) (s : Process) :
    Option (Except Fault Process) :=
  match s.loop.batch with
  | [] => none
  | (p, ev) :: _ =>
    match s.loop.objects p with
    | none => some (.error .handleOfDeleted)
    | some h =>
      match h.kind with
      | .acceptor =>
        (s.loop.dispatch ⟨accept4, added, 0⟩).map fun e => e.map (s.accepted accept4 mem)
      | .connection => s.goOn p .handle ((s.connections p).handle ev)

/-- A system call of the coroutine that runs is answered. -/
def resume (l : Label) (s : Process) : Option (Except Fault Process) :=
  match s.current with
  | none => none
  | some (p, site) => ((s.connections p).next l).bind fun c => s.goOn p site c

inductive Event
  | epollWait (events : List (ℕ × BitVec 32))
  | dispatch (accept4 : AcceptResult) (added : Bool) (mem : Vector UInt8 bufSize)
  | io (l : Label)

def start (listenFd : ℕ) : Process where
  loop := EventLoop.start listenFd
  connections := fun _ => Semaphores.start (Vector.replicate bufSize 0)
  current := none

def system (listenFd : ℕ) : System (Except Fault Process) Event where
  init e := e = .ok (start listenFd)
  step e l f := ∃ s, e = .ok s ∧
    match l with
    | .epollWait events =>
      s.current = none ∧ ∃ loop,
        (EventLoop.system listenFd).step (.ok s.loop) (.epollWait events) (.ok loop) ∧
        f = .ok { s with loop := loop }
    | .dispatch accept4 added mem =>
      s.current = none ∧
        (∀ new p h, accept4 = .fd new → s.loop.objects p = some h → h.fd ≠ new) ∧
        s.dispatch accept4 added mem = some f
    | .io l => s.resume l = some f

/-- No connection that has not been deleted has a coroutine that has exited. -/
def NoZombie (s : Process) : Prop :=
  ∀ p h, s.loop.objects p = some h → h.kind = .connection → (s.connections p).exited = false

end Process

/-- The answer of a system call with which the coroutine gets to its end: an end of stream
or a hard error of `recv`, or a `send` that takes the last bytes when a `send` before it
has failed. -/
def Finishes (f : Frame) : Label → Prop
  | .handle _ => False
  | .recv answer => f.ctxFnew = .recv ∧ answer.failed = true
  | .send answer => ∃ size haveSent lt ret, f.ctxFnew = .send size haveSent lt ret ∧ ret < 0 ∧
      (answer (size - haveSent)).count = size - haveSent

/-- The coroutine gets to its end inside of `start`. -/
def Process.ExitsInStart (e : Except Fault Process) (l : Process.Event) : Prop :=
  ∃ s p c, e = .ok s ∧ s.current = some (p, .start) ∧ l = .io c ∧
    Finishes (s.connections p).toFrame c

/-! ### One connection -/

namespace Semaphores

variable {s t : Semaphores}

theorem ctxMain_handleIn (s : Semaphores) (ev : BitVec 32)
    (h : (s.handleIn ev).control = .coroutine) : (s.handleIn ev).ctxMain = .handleIn := by
  rw [handleIn] at h ⊢
  split at h
  · rename_i harmed
    rw [if_pos harmed]
    split at h
    · rename_i hwaiting
      rw [if_pos hwaiting]
      rfl
    · exact absurd h (by simp [Frame.giveBack])
  · exact absurd h (by simp [Frame.giveBack])

theorem ctxMain_handle (s : Semaphores) (ev : BitVec 32)
    (h : (s.handle ev).control = .coroutine) : (s.handle ev).ctxMain ≠ .start := by
  rw [handle] at h ⊢
  split at h
  · exact absurd h (by simp [Frame.giveBack])
  · rename_i hforeign
    rw [if_neg hforeign]
    split at h
    · rename_i harmed
      rw [if_pos harmed]
      split at h
      · rename_i hwaiting
        rw [if_pos hwaiting]
        simp [postSend, Frame.swapTo]
      · rename_i hwaiting
        rw [if_neg hwaiting, s.ctxMain_handleIn ev h]
        simp
    · rename_i harmed
      rw [if_neg harmed, s.ctxMain_handleIn ev h]
      simp

theorem suspend_start (h : s.ctxMain = .start) : s.suspend.control = .main 0 := by
  rw [suspend, h]
  rfl

theorem suspend_exited (h : s.ctxMain ≠ .start) (hexited : s.exited = true) :
    s.suspend.control = .main (-1) := by
  rw [suspend]
  split
  · contradiction
  · rw [if_pos hexited]
    rfl
  · simp [Frame.giveBack, hexited]

theorem suspend_ctxMain (h : s.suspend.control = .coroutine) :
    s.suspend.ctxMain = .start ↔ s.ctxMain = .start := by
  rw [suspend] at h ⊢
  split at h
  · exact absurd h (by simp [Frame.giveBack])
  · rename_i ev hcaller
    split at h
    · exact absurd h (by simp [Frame.giveBack])
    · rename_i hexited
      simp only [hexited, hcaller]
      rw [if_neg (by simp), s.ctxMain_handleIn ev h]
      simp
  · exact absurd h (by simp [Frame.giveBack])

theorem exit_control (s : Semaphores) :
    (s.ctxMain = .start → s.exit.control = .main 0) ∧
      (s.ctxMain ≠ .start → s.exit.control = .main (-1)) :=
  ⟨fun h => suspend_start h, fun h => suspend_exited h rfl⟩

theorem awaitSend_continues (s : Semaphores) (size haveSent : ℕ) (ret : ℤ)
    (h : ¬ (size ≤ haveSent ∧ ret < 0)) :
    (s.awaitSend size haveSent ret).exited = s.exited ∧
      (s.awaitSend size haveSent ret).ctxMain = s.ctxMain := by
  rw [awaitSend]
  split
  · exact ⟨rfl, rfl⟩
  · rw [if_neg (fun hneg => h ⟨by omega, hneg⟩)]
    exact ⟨rfl, rfl⟩

/-- A `send` that takes all it is offered, behind a failed one, ends the coroutine. -/
theorem sendAnswer_finishes {size haveSent : ℕ} (lt : haveSent < size) {ret : ℤ} (hneg : ret < 0)
    {r : SendResult (size - haveSent)} (hr : r.count = size - haveSent) :
    s.sendAnswer size haveSent ret r = s.exit := by
  cases r with
  | sent len _ =>
    have hlen : len = size - haveSent := hr
    rw [sendAnswer, awaitSend, dif_neg (by omega), if_pos hneg]
  | again =>
    have hzero : 0 = size - haveSent := hr
    omega
  | error =>
    have hzero : 0 = size - haveSent := hr
    omega

/-- **The coroutine gets to its end**: `start` returns `0`, and `handle` a negative value. -/
theorem next_finishes {l : Label} (h : s.next l = some t) (hfinishes : Finishes s.toFrame l) :
    t.exited = true ∧ (s.ctxMain = .start → t.control = .main 0) ∧
      (s.ctxMain ≠ .start → t.control = .main (-1)) := by
  have hexit : t = s.exit := by
    cases l with
    | handle ev => exact absurd hfinishes id
    | recv answer =>
      obtain ⟨-, -, rfl⟩ := next_recv h
      cases answer with
      | bytes => exact absurd hfinishes.2 (by simp [RecvResult.failed])
      | eof => rfl
      | again => exact absurd hfinishes.2 (by simp [RecvResult.failed])
      | error => rfl
    | send answer =>
      obtain ⟨-, size, haveSent, lt, ret, hpoint, rfl⟩ := next_send h
      obtain ⟨size', haveSent', lt', ret', hpoint', hneg, hall⟩ := hfinishes
      cases hpoint.symm.trans hpoint'
      exact sendAnswer_finishes lt hneg hall
  subst hexit
  exact ⟨s.exit_spec.2.2, s.exit_control⟩

theorem next_continues {l : Label} (h : s.next l = some t) (hcontrol : s.control = .coroutine)
    (hcontinues : ¬ Finishes s.toFrame l) :
    t.exited = s.exited ∧ (t.control = .coroutine → (t.ctxMain = .start ↔ s.ctxMain = .start)) := by
  cases l with
  | handle ev =>
    obtain ⟨⟨ret, hmain⟩, -⟩ := next_handle h
    exact absurd (hmain.symm.trans hcontrol) (by simp)
  | recv answer =>
    obtain ⟨-, hpoint, rfl⟩ := next_recv h
    cases answer with
    | bytes data =>
      obtain ⟨hexited, hcaller⟩ := awaitSend_continues { s with toFrame := s.fill data } data.length 0 0
        (by simp)
      exact ⟨hexited, fun _ => by rw [recvAnswer, hcaller]; rfl⟩
    | eof => exact absurd ⟨hpoint, rfl⟩ hcontinues
    | again => exact ⟨(same_suspend _).exited, suspend_ctxMain⟩
    | error => exact absurd ⟨hpoint, rfl⟩ hcontinues
  | send answer =>
    obtain ⟨-, size, haveSent, lt, ret, hpoint, rfl⟩ := next_send h
    cases hr : answer (size - haveSent) with
    | sent len le =>
      obtain ⟨hexited, hcaller⟩ := awaitSend_continues s size (haveSent + len) ret fun hall =>
          hcontinues ⟨size, haveSent, lt, ret, hpoint, hall.2, by
            rw [hr, SendResult.count]
            omega⟩
      exact ⟨hexited, fun _ => by rw [sendAnswer, hcaller]⟩
    | again => exact ⟨(same_suspend _).exited, suspend_ctxMain⟩
    | error =>
      obtain ⟨hexited, hcaller⟩ := awaitSend_continues s size haveSent (-1) (by omega)
      exact ⟨hexited, fun _ => by rw [sendAnswer, hcaller]⟩

end Semaphores

/-! ### The event loop below -/

namespace Process

variable {s : Process} {f : Except Fault Process}

theorem map_loop_goOn {p : ℕ} {site : Site} {c : Semaphores} (hf : s.goOn p site c = some f) :
    f.map Process.loop = .ok s.loop ∨
      ∃ ret, s.loop.dispatch ⟨.again, true, ret⟩ = some (f.map Process.loop) := by
  cases hcontrol : c.control with
  | coroutine =>
    simp only [Process.goOn, hcontrol] at hf
    obtain rfl := Option.some.inj hf
    exact Or.inl rfl
  | main ret =>
    cases site with
    | start =>
      simp only [Process.goOn, hcontrol] at hf
      obtain rfl := Option.some.inj hf
      exact Or.inl rfl
    | handle =>
      simp only [Process.goOn, hcontrol] at hf
      obtain ⟨e, he, rfl⟩ := Option.map_eq_some_iff.mp hf
      refine Or.inr ⟨ret, he.trans (congrArg some ?_)⟩
      cases e with
      | error fault => rfl
      | ok loop => rfl

theorem loop_accepted (accept4 : AcceptResult) (mem : Vector UInt8 bufSize) (s : Process)
    (loop : EventLoop.State) : (s.accepted accept4 mem loop).loop = loop := by
  cases accept4 <;> rfl

theorem map_loop_dispatch {accept4 : AcceptResult} {added : Bool} {mem : Vector UInt8 bufSize}
    (hf : s.dispatch accept4 added mem = some f) :
    f.map Process.loop = .ok s.loop ∨
      ∃ k, (k.accept4 = accept4 ∨ k.accept4 = .again) ∧
        s.loop.dispatch k = some (f.map Process.loop) := by
  rw [Process.dispatch] at hf
  split at hf
  · exact absurd hf (by simp)
  · rename_i p ev batch hbatch
    split at hf
    · rename_i hnone
      obtain rfl := Option.some.inj hf
      refine Or.inr ⟨⟨.again, true, 0⟩, Or.inr rfl, ?_⟩
      simp only [EventLoop.State.dispatch, hbatch, hnone]
      rfl
    · rename_i i hi
      split at hf
      · obtain ⟨e, he, rfl⟩ := Option.map_eq_some_iff.mp hf
        refine Or.inr ⟨_, Or.inl rfl, he.trans (congrArg some ?_)⟩
        cases e with
        | error fault => rfl
        | ok loop => exact congrArg Except.ok (loop_accepted accept4 mem s loop).symm
      · rcases map_loop_goOn hf with hloop | ⟨ret, hret⟩
        · exact Or.inl hloop
        · exact Or.inr ⟨_, Or.inr rfl, hret⟩

/-- **The loop of the server is the event loop** of `Socket.EventLoop`: where a coroutine waits
for an answer in the middle of `handle`, the loop does not move. -/
theorem simulation (listenFd : ℕ) :
    System.Simulation (system listenFd) (EventLoop.system listenFd)
      (fun e a => e.map Process.loop = a) where
  init e he := ⟨_, rfl, congrArg (Except.map Process.loop) he⟩
  step e l f a _ _ hrel hstep := by
    obtain ⟨s, rfl, hstep⟩ := hstep
    obtain rfl : Except.ok s.loop = a := hrel
    cases l with
    | epollWait events =>
      obtain ⟨-, loop, hloop, rfl⟩ := hstep
      exact Or.inr ⟨_, _, hloop, rfl⟩
    | dispatch accept4 added mem =>
      obtain ⟨-, hnew, hf⟩ := hstep
      rcases map_loop_dispatch hf with hloop | ⟨k, hk, hloop⟩
      · exact Or.inl hloop
      · refine Or.inr ⟨.dispatch k, _, ⟨s.loop, rfl, fun new p h hfd => ?_, hloop⟩, rfl⟩
        rcases hk with hk | hk
        · exact hnew new p h (hk.symm.trans hfd)
        · exact absurd (hk.symm.trans hfd) (by simp)
    | io l =>
      have hf : s.resume l = some f := hstep
      rw [Process.resume] at hf
      split at hf
      · exact absurd hf (by simp)
      · obtain ⟨c, -, hf⟩ := Option.bind_eq_some_iff.mp hf
        rcases map_loop_goOn hf with hloop | ⟨ret, hret⟩
        · exact Or.inl hloop
        · refine Or.inr ⟨.dispatch ⟨.again, true, ret⟩, _, ⟨s.loop, rfl, ?_, hret⟩, rfl⟩
          exact fun new p h hfd => absurd hfd (by simp)

end Process

/-! ### The invariant -/

namespace Process

/-- The coroutine of `p` runs in a call of `site`. -/
structure Running (s : Process) (p : ℕ) (site : Site) : Prop where
  object : ∃ h, s.loop.objects p = some h ∧ h.kind = .connection
  control : (s.connections p).control = .coroutine
  caller : (s.connections p).ctxMain = .start ↔ site = .start
  event : site = .handle → ∃ ev batch, s.loop.batch = (p, ev) :: batch

structure Inv (listenFd : ℕ) (s : Process) : Prop where
  loop : EventLoop.Inv listenFd s.loop
  noZombie : s.NoZombie
  running : ∀ p site, s.current = some (p, site) → s.Running p site

variable {listenFd : ℕ} {s t : Process} {e f : Except Fault Process}

theorem Inv.start : Inv listenFd (start listenFd) where
  loop := .start
  noZombie _ _ _ _ := rfl
  running _ _ h := absurd h (by simp [Process.start])

theorem NoZombie.of_others (h : s.NoZombie) (p : ℕ)
    (hobjects : ∀ q i, q ≠ p → t.loop.objects q = some i → s.loop.objects q = some i)
    (hconnections : ∀ q, q ≠ p → t.connections q = s.connections q)
    (hp : ∀ i, t.loop.objects p = some i → (t.connections p).exited = false) : t.NoZombie := by
  intro q i hq hkind
  by_cases hqp : q = p
  · subst hqp
    exact hp i hq
  · rw [hconnections q hqp]
    exact h q i (hobjects q i hqp hq) hkind

theorem Inv.goOn (h : Inv listenFd s) {p : ℕ} {site : Site} {c : Semaphores}
    (hobject : ∃ i, s.loop.objects p = some i ∧ i.kind = .connection)
    (hevent : site = .handle → ∃ ev batch, s.loop.batch = (p, ev) :: batch)
    (hsite : c.control = .coroutine → (c.ctxMain = .start ↔ site = .start))
    (hexited : c.exited = true → site = .handle ∧ c.control = .main (-1))
    (hf : s.goOn p site c = some f) : ∃ t, f = .ok t ∧ Inv listenFd t := by
  have hupdate : ∀ q, q ≠ p → Function.update s.connections p c q = s.connections q :=
    fun q hq => Function.update_of_ne hq ..
  have hself : Function.update s.connections p c p = c := Function.update_self ..
  have halive : ¬ c.exited = true → (Function.update s.connections p c p).exited = false := by
    intro hnot
    rw [hself]
    simpa using hnot
  cases hcontrol : c.control with
  | coroutine =>
    simp only [Process.goOn, hcontrol] at hf
    obtain rfl := Option.some.inj hf
    refine ⟨_, rfl, h.loop, ?_, ?_⟩
    · refine h.noZombie.of_others p (fun _ _ _ hq => hq) hupdate fun _ _ => halive ?_
      intro hex
      exact absurd (hcontrol.symm.trans (hexited hex).2) (by simp)
    · rintro q site' hq
      obtain ⟨rfl, rfl⟩ := Prod.mk.inj (Option.some.inj hq)
      exact ⟨hobject, by dsimp only; rw [hself]; exact hcontrol,
        by dsimp only; rw [hself]; exact hsite hcontrol, hevent⟩
  | main ret =>
    cases site with
    | start =>
      simp only [Process.goOn, hcontrol] at hf
      obtain rfl := Option.some.inj hf
      refine ⟨_, rfl, h.loop, ?_, fun _ _ hq => absurd hq (by simp)⟩
      refine h.noZombie.of_others p (fun _ _ _ hq => hq) hupdate fun _ _ => halive ?_
      intro hex
      exact absurd (hexited hex).1 (by simp)
    | handle =>
      obtain ⟨i, hi, hkind⟩ := hobject
      obtain ⟨ev, batch, hbatch⟩ := hevent rfl
      obtain ⟨loop, hloop, hinv, hobjects⟩ :=
        h.loop.dispatch_connection hbatch hi hkind ⟨.again, true, ret⟩
      simp only [Process.goOn, hcontrol, hloop] at hf
      obtain rfl := Option.some.inj hf
      refine ⟨_, rfl, hinv, ?_, fun _ _ hq => absurd hq (by simp)⟩
      by_cases hret : ret < 0
      · rw [if_pos hret] at hobjects
        refine h.noZombie.of_others p ?_ hupdate ?_
        · intro q j hq hj
          rw [hobjects] at hj
          exact (Function.update_of_ne hq ..).symm.trans hj
        · intro j hj
          rw [hobjects, Function.update_self] at hj
          exact absurd hj (by simp)
      · rw [if_neg hret] at hobjects
        refine h.noZombie.of_others p (fun q j _ hj => hobjects ▸ hj) hupdate fun _ _ => halive ?_
        intro hex
        obtain rfl := Control.main.inj (hcontrol.symm.trans (hexited hex).2)
        exact hret (by decide)

/-- **The acceptor has been called**, and the coroutine of a new connection is in front of
its first system call. -/
theorem Inv.accepted (h : Inv listenFd s) (hcurrent : s.current = none)
    {accept4 : AcceptResult} (mem : Vector UInt8 bufSize) {loop : EventLoop.State}
    (hloop : EventLoop.Inv listenFd loop)
    (hobjects : loop.objects = match accept4 with
      | .fd new => Function.update s.loop.objects s.loop.next (some ⟨.connection, true, new⟩)
      | .again => s.loop.objects
      | .error => s.loop.objects) : Inv listenFd (s.accepted accept4 mem loop) := by
  cases accept4 with
  | fd new =>
    have hobjects : (s.accepted (.fd new) mem loop).loop.objects =
        Function.update s.loop.objects s.loop.next (some ⟨.connection, true, new⟩) := hobjects
    have hself : (s.accepted (.fd new) mem loop).connections s.loop.next =
        Semaphores.start mem := Function.update_self ..
    refine ⟨hloop, ?_, ?_⟩
    · refine h.noZombie.of_others s.loop.next ?_ (fun q hq => Function.update_of_ne hq ..) ?_
      · intro q j hq hj
        rw [hobjects] at hj
        exact (Function.update_of_ne hq ..).symm.trans hj
      · intro j _
        rw [hself]
        rfl
    · rintro q site hq
      obtain ⟨rfl, rfl⟩ := Prod.mk.inj (Option.some.inj hq)
      refine ⟨⟨⟨.connection, true, new⟩, ?_, rfl⟩, ?_, ?_, fun hsite => absurd hsite (by simp)⟩
      · rw [hobjects]
        exact Function.update_self ..
      · rw [hself]
        rfl
      · rw [hself]
        exact iff_of_true rfl rfl
  | again =>
    have hobjects : loop.objects = s.loop.objects := hobjects
    refine ⟨hloop, fun q j hq => h.noZombie q j (hobjects ▸ hq), fun q site hq => ?_⟩
    exact absurd (hcurrent.symm.trans hq) (by simp)
  | error =>
    have hobjects : loop.objects = s.loop.objects := hobjects
    refine ⟨hloop, fun q j hq => h.noZombie q j (hobjects ▸ hq), fun q site hq => ?_⟩
    exact absurd (hcurrent.symm.trans hq) (by simp)

theorem Inv.dispatch (h : Inv listenFd s) (hcurrent : s.current = none) {accept4 : AcceptResult}
    {added : Bool} {mem : Vector UInt8 bufSize}
    (hnew : ∀ new p i, accept4 = .fd new → s.loop.objects p = some i → i.fd ≠ new)
    (hf : s.dispatch accept4 added mem = some f) :
    f = .error .deleteOfLocal ∨ ∃ t, f = .ok t ∧ Inv listenFd t := by
  rw [Process.dispatch] at hf
  split at hf
  · exact absurd hf (by simp)
  · rename_i p ev batch hbatch
    split at hf
    · rename_i hnone
      have halive := h.loop.batch (p, ev) (hbatch ▸ List.mem_cons_self)
      rw [hnone] at halive
      exact absurd halive (by simp)
    · rename_i i hi
      split at hf
      · -- the acceptor
        rename_i hkind
        obtain ⟨e, he, rfl⟩ := Option.map_eq_some_iff.mp hf
        rcases h.loop.kind_cases hi with ⟨rfl, -⟩ | hconnection
        · by_cases hfails : ev &&& ~~~EPOLLIN ≠ 0 ∨ accept4 = .error
          · rw [EventLoop.dispatch_acceptorFails h.loop.acceptor
              ⟨_, _, ev, batch, rfl, rfl, hbatch, hfails⟩ ⟨_, rfl, hnew, he⟩]
            exact Or.inl rfl
          · obtain ⟨hev, haccept⟩ := not_or.mp hfails
            obtain ⟨loop, hloop, hinv, hobjects⟩ :=
              h.loop.dispatch_acceptor (k := ⟨accept4, added, 0⟩) hnew hbatch (not_not.mp hev) haccept
            obtain rfl := Option.some.inj (he.symm.trans hloop)
            exact Or.inr ⟨_, rfl, h.accepted hcurrent mem hinv hobjects⟩
        · rw [hkind] at hconnection
          exact absurd hconnection (by simp)
      · -- a connection
        rename_i hkind
        refine Or.inr (h.goOn ⟨i, hi, hkind⟩ (fun _ => ⟨ev, batch, hbatch⟩) ?_ ?_ hf)
        · intro hcontrol
          exact iff_of_false (Semaphores.ctxMain_handle _ ev hcontrol) (by simp)
        · intro hexited
          have hsame := (Semaphores.same_handle (s.connections p) ev).exited
          rw [hsame, h.noZombie p i hi hkind] at hexited
          exact absurd hexited (by simp)

/-- **A system call is answered**, and it is not the last one of a coroutine in `start`. -/
theorem Inv.resume (h : Inv listenFd s) {l : Label}
    (hstart : ¬ ExitsInStart (.ok s) (.io l)) (hf : s.resume l = some f) :
    ∃ t, f = .ok t ∧ Inv listenFd t := by
  rw [Process.resume] at hf
  split at hf
  · exact absurd hf (by simp)
  · rename_i p site hcurrent
    obtain ⟨c, hc, hf⟩ := Option.bind_eq_some_iff.mp hf
    obtain ⟨⟨i, hi, hkind⟩, hcontrol, hsite, hevent⟩ := h.running p site hcurrent
    refine h.goOn ⟨i, hi, hkind⟩ hevent ?_ ?_ hf
    · intro hcoroutine
      by_cases hfinishes : Finishes (s.connections p).toFrame l
      · obtain ⟨-, hzero, hminus⟩ := Semaphores.next_finishes hc hfinishes
        by_cases hcaller : (s.connections p).ctxMain = .start
        · exact absurd (hcoroutine.symm.trans (hzero hcaller)) (by simp)
        · exact absurd (hcoroutine.symm.trans (hminus hcaller)) (by simp)
      · exact ((Semaphores.next_continues hc hcontrol hfinishes).2 hcoroutine).trans hsite
    · intro hexited
      by_cases hfinishes : Finishes (s.connections p).toFrame l
      · have hhandle : site = .handle := by
          cases site with
          | start => exact absurd ⟨s, p, l, rfl, hcurrent, rfl, hfinishes⟩ hstart
          | handle => rfl
        refine ⟨hhandle, (Semaphores.next_finishes hc hfinishes).2.2 ?_⟩
        intro hcaller
        exact absurd (hhandle.symm.trans (hsite.mp hcaller)) (by simp)
      · rw [(Semaphores.next_continues hc hcontrol hfinishes).1, h.noZombie p i hi hkind] at hexited
        exact absurd hexited (by simp)

theorem Inv.of_reachable
    (he : ((system listenFd).restrict fun e l => ¬ ExitsInStart e l).Reachable e) :
    e = .error .deleteOfLocal ∨ ∃ s, e = .ok s ∧ Inv listenFd s := by
  refine he.invariant (P := fun e => e = .error .deleteOfLocal ∨ ∃ s, e = .ok s ∧ Inv listenFd s)
    (fun e he => ?_) (fun e l f _ hs hf => ?_)
  · exact Or.inr ⟨_, he, .start⟩
  · obtain ⟨⟨s, rfl, hstep⟩, hstart⟩ := hf
    rcases hs with herror | ⟨s', hs', hs⟩
    · exact absurd herror (by simp)
    obtain rfl := Except.ok.inj hs'
    cases l with
    | epollWait events =>
      obtain ⟨hcurrent, loop, ⟨loop', hloop', -, -, hnodup, -, hreported⟩, rfl⟩ := hstep
      obtain rfl := Except.ok.inj hloop'
      obtain rfl := Except.ok.inj hreported
      refine Or.inr ⟨_, rfl, hs.loop.epollWait hnodup, hs.noZombie, fun q site hq => ?_⟩
      exact absurd (hcurrent.symm.trans hq) (by simp)
    | dispatch accept4 added mem => exact hs.dispatch hstep.1 hstep.2.1 hstep.2.2
    | io l => exact Or.inr (hs.resume hstart hstep)

theorem Inv.zombie (h : Inv listenFd s) {l : Label} {p : ℕ}
    (hcurrent : s.current = some (p, .start)) (hfinishes : Finishes (s.connections p).toFrame l)
    (hf : s.resume l = some f) : ∃ t, f = .ok t ∧ t.current = none ∧ ¬ t.NoZombie := by
  obtain ⟨⟨i, hi, hkind⟩, -, hsite, -⟩ := h.running p .start hcurrent
  simp only [Process.resume, hcurrent] at hf
  obtain ⟨c, hc, hf⟩ := Option.bind_eq_some_iff.mp hf
  obtain ⟨hexited, hzero, -⟩ := Semaphores.next_finishes hc hfinishes
  simp only [Process.goOn, hzero (hsite.mpr rfl)] at hf
  obtain rfl := Option.some.inj hf
  refine ⟨_, rfl, rfl, fun hnone => ?_⟩
  have hfalse : (Function.update s.connections p c p).exited = false := hnone p i hi hkind
  rw [Function.update_self, hexited] at hfalse
  exact absurd hfalse (by simp)

/-- **Which coroutines leave a zombie**: as long as none gets to its end inside of `start`,
there is no zombie when control is in `EventLoop::run`; and the first one that does leaves
one. -/
theorem coroutine_server_zombies (listenFd : ℕ) :
    (∀ e, ((system listenFd).restrict fun e l => ¬ ExitsInStart e l).Reachable e →
        e = .error .deleteOfLocal ∨ ∃ s, e = .ok s ∧ (s.current = none → s.NoZombie)) ∧
      ∀ e l f, ((system listenFd).restrict fun e l => ¬ ExitsInStart e l).Reachable e →
        ExitsInStart e l → (system listenFd).step e l f →
        ∃ s, f = .ok s ∧ s.current = none ∧ ¬ s.NoZombie := by
  refine ⟨fun e he => ?_, fun e l f he hexits hstep => ?_⟩
  · rcases Inv.of_reachable he with rfl | ⟨s, rfl, hs⟩
    · exact Or.inl rfl
    · exact Or.inr ⟨s, rfl, fun _ => hs.noZombie⟩
  · obtain ⟨s, p, c, rfl, hcurrent, rfl, hfinishes⟩ := hexits
    rcases Inv.of_reachable he with herror | ⟨s', hs', hs⟩
    · exact absurd herror (by simp)
    obtain rfl := Except.ok.inj hs'
    obtain ⟨s', hs', hresume⟩ := hstep
    obtain rfl := Except.ok.inj hs'
    exact hs.zombie hcurrent hfinishes hresume

theorem coroutine_server_leaves_zombie :
    ¬ ∀ listenFd s, (system listenFd).Reachable (.ok s) → s.current = none → s.NoZombie := by
  intro hnone
  let mem : Vector UInt8 bufSize := Vector.replicate bufSize 0
  let waited : Process :=
    { start 3 with loop := { EventLoop.start 3 with batch := [(0, EPOLLIN)] } }
  let acceptedLoop : EventLoop.State := (EventLoop.start 3).newConnection 5 true
  let running : Process := (start 3).accepted (.fd 5) mem acceptedLoop
  have hwait : (system 3).step (.ok (start 3)) (.epollWait [(3, EPOLLIN)]) (.ok waited) :=
    ⟨_, rfl, rfl, _, ⟨_, rfl, rfl, by decide, by decide, by decide, rfl⟩, rfl⟩
  have haccept : (system 3).step (.ok waited) (.dispatch (.fd 5) true mem) (.ok running) := by
    refine ⟨_, rfl, rfl, ?_, rfl⟩
    intro new p i hnew hp
    obtain rfl := AcceptResult.fd.inj hnew
    by_cases hzero : p = 0
    · subst hzero
      obtain rfl := Option.some.inj hp
      decide
    · exact absurd hp (by simp [waited, EventLoop.start, hzero])
  have heof : (system 3).step (.ok running) (.io (.recv .eof)) (.ok { running with
      connections := Function.update running.connections 1 (running.connections 1).exit
      current := none }) := ⟨_, rfl, rfl⟩
  have hexited := hnone 3 _ ((((System.Reachable.of_init rfl).step hwait).step haccept).step heof)
    rfl 1 _ rfl rfl
  exact absurd hexited (by decide)

end Process

end CppProgramming.Socket.Coroutine
