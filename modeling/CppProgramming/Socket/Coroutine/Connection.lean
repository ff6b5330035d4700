import CppProgramming.Lib.Transition
import CppProgramming.Socket.Kernel
import Mathlib.Data.Int.Notation

/-!
# The coroutine echo connections

`Connection` of `tcp_echo/server_epoll_et_ucontext.cpp` (`Waiting`, which notes in its
`wait_status` what it waits for) and of `tcp_echo/server_epoll_et_ucontext1.cpp`
(`Semaphores`, with a `CoroutineSemaphore` for each direction).  Both run one coroutine,
`run`, that reads into a buffer and sends the buffer back; where the socket is not ready it
swaps to whoever resumed it, and `handle` resumes it when the event is there that it waits
for.

The two contexts are the two places where a swap goes on: `ctx_main` in `start` or behind
one of the two swaps of `handle`, `ctx_fnew` in the coroutine.  Between two system calls
everything is computed, so that the coroutine, when it has control, is always in front of a
system call; a step answers that call, or calls `handle` (`Label`).  A swap that fails is
not modelled: it does so only for want of memory on an architecture that needs it.
-/

namespace CppProgramming.Socket.Coroutine

/-- `Connection::buf_size` -/
def bufSize : ℕ := 64

/-- Where `ctx_fnew` goes on: in front of `recv` in `await_recv`, in front of `send` in
`await_send`, or behind the loop of `run`.  A coroutine that waits goes on behind its swap
and is in front of the same call again without any other effect: the loop of `await_recv`
has no condition, and that of `await_send` still holds. -/
inductive Point
  | recv
  | send (size haveSent : ℕ) (lt : haveSent < size) (ret : ℤ)
  | done

/-- Where `ctx_main` goes on: in `start`, or behind the swap of the `EPOLLOUT` or of the
`EPOLLIN` half of `handle`. -/
inductive Caller
  | start
  | handleOut (ev : BitVec 32)
  | handleIn

/-- Who has control: the event loop, to which `start` or `handle` has returned `ret`, or the
coroutine. -/
inductive Control
  | main (ret : ℤ)
  | coroutine

/-- What the two classes have in common. -/
structure Frame where
  buffer : List UInt8
  exited : Bool
  ctxMain : Caller
  ctxFnew : Point
  control : Control

/-- A system call that the coroutine is in front of. -/
inductive Request
  | recv (size : ℕ)
  | send (offset : ℕ) (data : List UInt8)

inductive Label
  | handle (ev : BitVec 32)
  | recv (answer : RecvResult bufSize)
  | send (answer : (n : ℕ) → SendResult n)

namespace Frame

/-- The part of the buffer that `await_send` has not sent yet. -/
def unsent (s : Frame) : List UInt8 :=
  match s.ctxFnew with
  | .recv => []
  | .send size haveSent _ _ => (s.buffer.drop haveSent).take (size - haveSent)
  | .done => []

def request (s : Frame) : Option Request :=
  match s.control, s.ctxFnew with
  | .coroutine, .recv => some (.recv bufSize)
  | .coroutine, .send _ haveSent _ _ => some (.send haveSent s.unsent)
  | .coroutine, .done => none
  | .main _, _ => none

/-- Control is back at the caller, which returns `ret`. -/
def giveBack (ret : ℤ) (s : Frame) : Frame := { s with control := .main ret }

/-- A swap to the coroutine. -/
def swapTo (caller : Caller) (s : Frame) : Frame :=
  { s with ctxMain := caller, control := .coroutine }

/-- The kernel writes into the front of the buffer. -/
def fill (data : List UInt8) (s : Frame) : Frame :=
  { s with buffer := data ++ s.buffer.drop data.length }

def goto (p : Point) (s : Frame) : Frame := { s with ctxFnew := p }

/-- The frame at the swap of `start`. -/
def start (mem : Vector UInt8 bufSize) : Frame where
  buffer := mem.toList
  exited := false
  ctxMain := .start
  ctxFnew := .recv
  control := .coroutine

end Frame

/-! ### `server_epoll_et_ucontext.cpp` -/

inductive WaitStatus
  | running
  | waitCouldRecv
  | waitCouldSend
deriving DecidableEq

structure Waiting extends Frame where
  waitStatus : WaitStatus

namespace Waiting

def start (mem : Vector UInt8 bufSize) : Waiting := ⟨Frame.start mem, .running⟩

/-- A swap of `handle`; behind its own swap the coroutine is `running`. -/
def resume (caller : Caller) (s : Waiting) : Waiting := ⟨s.swapTo caller, .running⟩

/-- The `EPOLLIN` half of `handle`. -/
def handleIn (ev : BitVec 32) (s : Waiting) : Waiting :=
  if Armed ev EPOLLIN then
    if s.waitStatus = .waitCouldRecv then s.resume .handleIn
    else { s with toFrame := s.giveBack 0 }
  else { s with toFrame := s.giveBack 0 }

def handle (ev : BitVec 32) (s : Waiting) : Waiting :=
  if ev &&& ~~~(EPOLLIN ||| EPOLLOUT) ≠ 0 then { s with toFrame := s.giveBack (-1) }
  else if Armed ev EPOLLOUT then
    if s.waitStatus = .waitCouldSend then s.resume (.handleOut ev) else s.handleIn ev
  else s.handleIn ev

/-- A swap of the coroutine, and what is behind the swap that resumed it. -/
def suspend (s : Waiting) : Waiting :=
  match s.ctxMain with
  | .start => { s with toFrame := s.giveBack 0 }
  | .handleOut ev =>
    if s.exited then { s with toFrame := s.giveBack (-1) } else s.handleIn ev
  | .handleIn => { s with toFrame := s.giveBack (if s.exited then -1 else 0) }

/-- The end of `run`. -/
def exit (s : Waiting) : Waiting :=
  suspend { s with toFrame := { s.goto .done with exited := true } }

def awaitRecv (s : Waiting) : Waiting := { s with toFrame := s.goto .recv }

/-- The loop of `await_send`, and what `run` does behind it. -/
def awaitSend (size haveSent : ℕ) (ret : ℤ) (s : Waiting) : Waiting :=
  if h : haveSent < size then { s with toFrame := s.goto (.send size haveSent h ret) }
  else if ret < 0 then s.exit
  else s.awaitRecv

/-- `await_recv` behind its `recv`, and what `run` does behind it. -/
def recvAnswer (r : RecvResult bufSize) (s : Waiting) : Waiting :=
  match r with
  | .bytes data _ _ => awaitSend data.length 0 0 { s with toFrame := s.fill data }
  | .eof => s.exit
  | .again => suspend { s with waitStatus := .waitCouldRecv }
  | .error => s.exit

/-- `await_send` behind its `send`. -/
def sendAnswer (size haveSent : ℕ) (ret : ℤ) {n : ℕ} (r : SendResult n) (s : Waiting) : Waiting :=
  match r with
  | .sent len _ => awaitSend size (haveSent + len) ret s
  | .again => suspend { s with waitStatus := .waitCouldSend }
  | .error => awaitSend size haveSent (-1) s

/-- The event loop deletes a connection whose `handle` returned a negative value. -/
def next (s : Waiting) : Label → Option Waiting
  | .handle ev =>
    match s.control with
    | .main ret => if ret < 0 then none else some (s.handle ev)
    | .coroutine => none
  | .recv answer =>
    match s.control, s.ctxFnew with
    | .coroutine, .recv => some (s.recvAnswer answer)
    | _, _ => none
  | .send answer =>
    match s.control, s.ctxFnew with
    | .coroutine, .send size haveSent _ ret =>
      some (s.sendAnswer size haveSent ret (answer (size - haveSent)))
    | _, _ => none

end Waiting

/-! ### `server_epoll_et_ucontext1.cpp` -/

/-- A pointer to a `CoroutineContext`. -/
inductive ContextPtr
  | null
  | coroutineContext
deriving DecidableEq

structure CoroutineSemaphore where
  waitingContext : ContextPtr
  waiting : Bool
deriving DecidableEq

/-- The constructor, and what `post` leaves. -/
def CoroutineSemaphore.idle : CoroutineSemaphore := ⟨.null, false⟩

/-- What `wait` leaves. -/
def CoroutineSemaphore.taken : CoroutineSemaphore := ⟨.coroutineContext, true⟩

/-- The connection, and the semaphores that `post` was called on, as it found them. -/
structure Semaphores extends Frame where
  recvSem : CoroutineSemaphore
  sendSem : CoroutineSemaphore
  posted : List CoroutineSemaphore

namespace Semaphores

def start (mem : Vector UInt8 bufSize) : Semaphores := ⟨Frame.start mem, .idle, .idle, []⟩

def postRecv (caller : Caller) (s : Semaphores) : Semaphores :=
  ⟨s.swapTo caller, .idle, s.sendSem, s.posted ++ [s.recvSem]⟩

def postSend (caller : Caller) (s : Semaphores) : Semaphores :=
  ⟨s.swapTo caller, s.recvSem, .idle, s.posted ++ [s.sendSem]⟩

/-- The `EPOLLIN` half of `handle`. -/
def handleIn (ev : BitVec 32) (s : Semaphores) : Semaphores :=
  if Armed ev EPOLLIN then
    if s.recvSem.waiting then s.postRecv .handleIn
    else { s with toFrame := s.giveBack 0 }
  else { s with toFrame := s.giveBack 0 }

def handle (ev : BitVec 32) (s : Semaphores) : Semaphores :=
  if ev &&& ~~~(EPOLLIN ||| EPOLLOUT) ≠ 0 then { s with toFrame := s.giveBack (-1) }
  else if Armed ev EPOLLOUT then
    if s.sendSem.waiting then s.postSend (.handleOut ev) else s.handleIn ev
  else s.handleIn ev

/-- A swap of the coroutine, and what is behind the `post` that resumed it. -/
def suspend (s : Semaphores) : Semaphores :=
  match s.ctxMain with
  | .start => { s with toFrame := s.giveBack 0 }
  | .handleOut ev =>
    if s.exited then { s with toFrame := s.giveBack (-1) } else s.handleIn ev
  | .handleIn => { s with toFrame := s.giveBack (if s.exited then -1 else 0) }

/-- The end of `run`. -/
def exit (s : Semaphores) : Semaphores :=
  suspend { s with toFrame := { s.goto .done with exited := true } }

def awaitRecv (s : Semaphores) : Semaphores := { s with toFrame := s.goto .recv }

/-- The loop of `await_send`, and what `run` does behind it. -/
def awaitSend (size haveSent : ℕ) (ret : ℤ) (s : Semaphores) : Semaphores :=
  if h : haveSent < size then { s with toFrame := s.goto (.send size haveSent h ret) }
  else if ret < 0 then s.exit
  else s.awaitRecv

/-- `await_recv` behind its `recv`, and what `run` does behind it. -/
def recvAnswer (r : RecvResult bufSize) (s : Semaphores) : Semaphores :=
  match r with
  | .bytes data _ _ => awaitSend data.length 0 0 { s with toFrame := s.fill data }
  | .eof => s.exit
  | .again => suspend { s with recvSem := .taken }
  | .error => s.exit

/-- `await_send` behind its `send`. -/
def sendAnswer (size haveSent : ℕ) (ret : ℤ) {n : ℕ} (r : SendResult n) (s : Semaphores) :
    Semaphores :=
  match r with
  | .sent len _ => awaitSend size (haveSent + len) ret s
  | .again => suspend { s with sendSem := .taken }
  | .error => awaitSend size haveSent (-1) s

/-- The event loop deletes a connection whose `handle` returned a negative value. -/
def next (s : Semaphores) : Label → Option Semaphores
  | .handle ev =>
    match s.control with
    | .main ret => if ret < 0 then none else some (s.handle ev)
    | .coroutine => none
  | .recv answer =>
    match s.control, s.ctxFnew with
    | .coroutine, .recv => some (s.recvAnswer answer)
    | _, _ => none
  | .send answer =>
    match s.control, s.ctxFnew with
    | .coroutine, .send size haveSent _ ret =>
      some (s.sendAnswer size haveSent ret (answer (size - haveSent)))
    | _, _ => none

end Semaphores

end CppProgramming.Socket.Coroutine
