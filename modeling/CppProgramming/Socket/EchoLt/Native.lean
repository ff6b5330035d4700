import CppProgramming.Socket.EchoLt.Echo

/-!
# The echo connection with plain `recv` and `send`

`tcp_echo/server_epollout_epollin_handle_native.cpp` differs from the vectored server
`tcp_echo/server_epollout_epollin_handle.cpp` (the connection of `EchoLt.Connection`) in
`recv_buf` and `send_buf` only: it calls `recv` and `send` on the first segment instead of
`recvmsg` and `sendmsg` on all.

The first segment is never empty while there is room, or data (`first_blank_pos`,
`first_exist_pos`), so that a `recv` that returns `0` means the end of the stream; and
what fits into it goes where the vectored call would put it (`scatter_first`).  Hence a
step of the native server is the step of the vectored one in which the kernel moves no
more than the first segment (`Native.handle_eq`).

A `Native` state keeps the lengths that were passed to `recv` and `send`; the kernel's
`Answers` are those to `recv` and `send` here.
-/

namespace CppProgramming.Socket

open CppProgramming.Lib

/-! ### The first segment -/

/-- `iov[0]` -/
def first (iov : List IoVec) : IoVec := iov.headD ⟨0, 0⟩

/-- The answer to a shorter request. -/
def RecvResult.widen {m : ℕ} (r : RecvResult m) (n : ℕ) : RecvResult n :=
  match r with
  | .bytes data pos _ => if h : data.length ≤ n then .bytes data pos h else .again
  | .eof => .eof
  | .again => .again
  | .error => .error

def SendResult.widen {m : ℕ} (r : SendResult m) (n : ℕ) : SendResult n :=
  match r with
  | .sent len _ => if h : len ≤ n then .sent len h else .again
  | .again => .again
  | .error => .error

namespace RingBuffer

variable {max : ℕ} {b : RingBuffer} {iov : List IoVec}

theorem scatter_first {data : List UInt8} (h : data.length ≤ (first iov).len) :
    b.scatter [first iov] data = b.scatter iov data := by
  cases iov with
  | nil =>
    obtain rfl : data = [] := List.eq_nil_of_length_eq_zero (Nat.le_zero.mp h)
    rw [scatter_nil, scatter_nil]
  | cons v rest =>
    have h : data.length ≤ (List.range' v.base v.len).length := by
      rw [List.length_range']
      exact h
    rw [scatter, scatter, store_take, store_take (positions (v :: rest))]
    simp only [positions, first, List.headD_cons, List.flatMap_cons, List.flatMap_nil,
      List.append_nil, List.take_append_of_le_length h]

theorem gather_first {n : ℕ} (h : n ≤ (first iov).len) :
    b.gather [first iov] n = b.gather iov n := by
  cases iov with
  | nil =>
    obtain rfl : n = 0 := Nat.le_zero.mp h
    rfl
  | cons v rest =>
    have h : n ≤ (List.range' v.base v.len).length := by
      rw [List.length_range']
      exact h
    simp only [gather, positions, first, List.headD_cons, List.flatMap_cons, List.flatMap_nil,
      List.append_nil, List.take_append_of_le_length h]

theorem first_le_totalLen : (first iov).len ≤ totalLen iov := by
  cases iov with
  | nil => exact Nat.le_refl _
  | cons v rest => exact Nat.le_add_right _ _

theorem first_mem (h : iov ≠ []) : first iov ∈ iov := by
  cases iov with
  | nil => exact absurd rfl h
  | cons v rest => exact List.mem_cons_self

/-- **The first blank segment is not empty** while there is room. -/
theorem first_blank_pos (hmax : PktSize max) (h : b.Ok max) (hroom : b.used < max - 1) :
    0 < (first (b.getBlankIovec max)).len :=
  len_pos_of_mem_getBlankIovec hmax h hroom (first_mem (getBlankIovec_ne_nil max b))

/-- **The first exist segment is not empty** while there is data. -/
theorem first_exist_pos (hmax : PktSize max) (h : b.Ok max) (hdata : 0 < b.used) :
    0 < (first (b.getExistIovec max)).len :=
  len_pos_of_mem_getExistIovec hmax h hdata (first_mem (getExistIovec_ne_nil max b))

end RingBuffer

namespace EchoLt

open RingBuffer

/-! ### The code -/

/-- The connection, and the lengths passed to `recv` and `send`. -/
structure Native extends State where
  requests : List ℕ

namespace Native

def fresh (mem : ℕ → UInt8) (added : Bool) : Native := ⟨State.fresh mem added, []⟩

def setEpollout (k : Answers) (flag : Bool) (s : Native) : Native :=
  { s with toState := s.toState.setEpollout k flag }

def setEpollin (k : Answers) (flag : Bool) (s : Native) : Native :=
  { s with toState := s.toState.setEpollin k flag }

def recvBufNative (k : Answers) (s : Native) : ℤ × Native :=
  let toRead := s.buf.getBlankSize maxPktSize
  if toRead < 0 then (-1, s)
  else if toRead = 0 then (0, s.setEpollin k false)
  else
    let iov0 := first (s.buf.getBlankIovec maxPktSize)
    let (ret, t) := State.recvWith k [iov0] (k.recvmsg iov0.len) s.toState
    (ret, ⟨t, s.requests ++ [iov0.len]⟩)

def sendBufNative (k : Answers) (send : (n : ℕ) → SendResult n) (s : Native) : ℤ × Native :=
  let toSend := s.buf.getExistSize
  if toSend < 0 then (-1, s)
  else if toSend = 0 then (0, s.setEpollout k false)
  else
    let iov0 := first (s.buf.getExistIovec maxPktSize)
    let (ret, t) := State.sendWith k [iov0] (send iov0.len) s.toState
    (ret, ⟨t, s.requests ++ [iov0.len]⟩)

def handleRead (k : Answers) (s : Native) : ℤ × Native :=
  let (recvLen, s) := s.recvBufNative k
  if recvLen < 0 then (-1, s)
  else if recvLen > 0 then
    let (sendLen, s) := s.sendBufNative k k.sendmsgIn
    if sendLen < 0 then (-1, s)
    else if sendLen > 0 then (0, s.setEpollin k true)
    else (0, s)
  else (0, s)

def handleWrite (k : Answers) (s : Native) : ℤ × Native :=
  let (sendLen, s) := s.sendBufNative k k.sendmsgOut
  if sendLen < 0 then (-1, s)
  else if sendLen > 0 then (0, s.setEpollin k true)
  else (0, s)

/-- The `EPOLLIN` half of `handle`. -/
def handleIn (ev : BitVec 32) (k : Answers) (s : Native) : ℤ × Native :=
  if Armed ev EPOLLIN then
    let (ret, s) := s.handleRead k
    if ret < 0 then (ret, s) else (0, s)
  else (0, s)

def handle (ev : BitVec 32) (k : Answers) (s : Native) : ℤ × Native :=
  if ev &&& ~~~(EPOLLIN ||| EPOLLOUT) ≠ 0 then (-1, s)
  else if Armed ev EPOLLOUT then
    let (ret, s) := s.handleWrite k
    if ret < 0 then (ret, s) else s.handleIn ev k
  else s.handleIn ev k

end Native

def native : Lib.System Native Call where
  init s := ∃ mem added, s = Native.fresh mem added
  step s c t := s.handle c.ev c.answers = (0, t)

/-! ### One transfer -/

/-- The kernel answers `recvmsg` and `sendmsg` as it answered `recv` and `send` on requests
of the lengths `m`, `n` and `o`. -/
structure Short (k k' : Answers) (m n o : ℕ) : Prop where
  recvmsg : k'.recvmsg = fun total => (k.recvmsg m).widen total
  sendmsgOut : k'.sendmsgOut = fun total => (k.sendmsgOut n).widen total
  sendmsgIn : k'.sendmsgIn = fun total => (k.sendmsgIn o).widen total
  epollCtl : k'.epollCtl = k.epollCtl

variable {k k' : Answers} {s : Native} {m n o : ℕ}

/-- The vectored view of a result. -/
def Native.view (r : ℤ × Native) : ℤ × State := (r.1, r.2.toState)

theorem setEpollin_congr (h : k'.epollCtl = k.epollCtl) (flag : Bool) (s : State) :
    s.setEpollin k' flag = s.setEpollin k flag := by
  simp only [State.setEpollin, State.epollCtlMod, h]

theorem setEpollout_congr (h : k'.epollCtl = k.epollCtl) (flag : Bool) (s : State) :
    s.setEpollout k' flag = s.setEpollout k flag := by
  simp only [State.setEpollout, State.epollCtlMod, h]

theorem recvTail_congr (h : k'.epollCtl = k.epollCtl) (len : ℕ) (s : State) :
    State.recvTail k' len s = State.recvTail k len s := by
  simp only [State.recvTail, setEpollin_congr h]

theorem sendTail_congr (h : k'.epollCtl = k.epollCtl) (len : ℕ) (s : State) :
    State.sendTail k' len s = State.sendTail k len s := by
  simp only [State.sendTail, setEpollout_congr h]

/-- **A read into the first segment** is a short read into all. -/
theorem recvWith_first (h : k'.epollCtl = k.epollCtl) {iov : List IoVec} (s : State)
    (r : RecvResult (first iov).len) :
    State.recvWith k' iov (r.widen (totalLen iov)) s = State.recvWith k [first iov] r s := by
  cases r with
  | eof | error => rfl
  | again => exact recvTail_congr h 0 s
  | bytes data pos le =>
    rw [RecvResult.widen, dif_pos (le.trans first_le_totalLen), State.recvWith, State.recvWith,
      recvTail_congr h, scatter_first le]

/-- **A write from the first segment** is a short write from all. -/
theorem sendWith_first (h : k'.epollCtl = k.epollCtl) {iov : List IoVec} (s : State)
    (r : SendResult (first iov).len) :
    State.sendWith k' iov (r.widen (totalLen iov)) s = State.sendWith k [first iov] r s := by
  cases r with
  | error => rfl
  | again => exact sendTail_congr h 0 s
  | sent len le =>
    rw [SendResult.widen, dif_pos (le.trans first_le_totalLen), State.sendWith, State.sendWith,
      sendTail_congr h, gather_first le]

namespace Native

/-- **`recv_buf_native` is `recv_buf`** with a short `recvmsg`, and its `recv` is for at
least one byte. -/
theorem recvBufNative_eq (hok : s.buf.Ok maxPktSize)
    (h : Short k k' (first (s.buf.getBlankIovec maxPktSize)).len n o)
    (hpos : ∀ len ∈ s.requests, 0 < len) :
    s.toState.recvBuf k' = view (s.recvBufNative k) ∧
      ∀ len ∈ (s.recvBufNative k).2.requests, 0 < len := by
  have hle : s.buf.used ≤ maxPktSize - 1 := hok
  have hblank := getBlankSize_eq pktSize hok
  rw [State.recvBuf, recvBufNative]
  dsimp only
  have hneg : ¬ ((maxPktSize - 1 - s.buf.used : ℕ) : ℤ) < 0 := by omega
  rw [hblank, if_neg hneg, if_neg hneg]
  by_cases hzero : ((maxPktSize - 1 - s.buf.used : ℕ) : ℤ) = 0
  · rw [if_pos hzero, if_pos hzero]
    exact ⟨Prod.ext rfl (setEpollin_congr h.epollCtl false s.toState), hpos⟩
  · rw [if_neg hzero, if_neg hzero, h.recvmsg, recvWith_first h.epollCtl]
    refine ⟨rfl, fun len hlen => ?_⟩
    rcases List.mem_append.mp hlen with hlen | hlen
    · exact hpos len hlen
    · rw [List.mem_singleton.mp hlen]
      exact first_blank_pos pktSize hok (by omega)

/-- **`send_buf_native` is `send_buf`** with a short `sendmsg`. -/
theorem sendBufNative_eq (hok : s.buf.Ok maxPktSize) (hctl : k'.epollCtl = k.epollCtl)
    (send send' : (n : ℕ) → SendResult n)
    (h : send' = fun total => (send (first (s.buf.getExistIovec maxPktSize)).len).widen total)
    (hpos : ∀ len ∈ s.requests, 0 < len) :
    s.toState.sendBuf k' send' = view (s.sendBufNative k send) ∧
      ∀ len ∈ (s.sendBufNative k send).2.requests, 0 < len := by
  have hexist := getExistSize_eq pktSize hok
  rw [State.sendBuf, sendBufNative]
  dsimp only
  have hneg : ¬ (s.buf.used : ℤ) < 0 := by omega
  rw [hexist, if_neg hneg, if_neg hneg]
  by_cases hzero : (s.buf.used : ℤ) = 0
  · rw [if_pos hzero, if_pos hzero]
    exact ⟨Prod.ext rfl (setEpollout_congr hctl false s.toState), hpos⟩
  · rw [if_neg hzero, if_neg hzero, h, sendWith_first hctl]
    refine ⟨rfl, fun len hlen => ?_⟩
    rcases List.mem_append.mp hlen with hlen | hlen
    · exact hpos len hlen
    · rw [List.mem_singleton.mp hlen]
      exact first_exist_pos pktSize hok (by omega)

/-! ### One call of `handle` -/

theorem handleWrite_eq (hok : s.buf.Ok maxPktSize)
    (h : Short k k' m (first (s.buf.getExistIovec maxPktSize)).len o)
    (hpos : ∀ len ∈ s.requests, 0 < len) :
    s.toState.handleWrite k' = view (s.handleWrite k) ∧
      ∀ len ∈ (s.handleWrite k).2.requests, 0 < len := by
  obtain ⟨hsend, hreq⟩ := sendBufNative_eq hok h.epollCtl _ _ h.sendmsgOut hpos
  rw [State.handleWrite, hsend, handleWrite]
  generalize s.sendBufNative k k.sendmsgOut = r at hreq ⊢
  obtain ⟨sendLen, t⟩ := r
  dsimp only [view]
  split
  · exact ⟨rfl, hreq⟩
  · split
    · exact ⟨Prod.ext rfl (setEpollin_congr h.epollCtl true t.toState), hreq⟩
    · exact ⟨rfl, hreq⟩

theorem handleRead_eq (hok : s.buf.Ok maxPktSize)
    (hok' : (s.recvBufNative k).2.buf.Ok maxPktSize)
    (h : Short k k' (first (s.buf.getBlankIovec maxPktSize)).len n
      (first ((s.recvBufNative k).2.buf.getExistIovec maxPktSize)).len)
    (hpos : ∀ len ∈ s.requests, 0 < len) :
    s.toState.handleRead k' = view (s.handleRead k) ∧
      ∀ len ∈ (s.handleRead k).2.requests, 0 < len := by
  obtain ⟨hrecv, hreq⟩ := recvBufNative_eq hok h hpos
  rw [State.handleRead, hrecv, handleRead]
  generalize s.recvBufNative k = r at hok' h hreq ⊢
  obtain ⟨recvLen, t⟩ := r
  obtain ⟨hsend, hreq'⟩ := sendBufNative_eq hok' h.epollCtl _ _ h.sendmsgIn hreq
  dsimp only [view] at hsend hreq' ⊢
  rw [hsend]
  split
  · exact ⟨rfl, hreq⟩
  · split
    · generalize t.sendBufNative k k.sendmsgIn = r at hreq' ⊢
      obtain ⟨sendLen, u⟩ := r
      dsimp only [view]
      split
      · exact ⟨rfl, hreq'⟩
      · split
        · exact ⟨Prod.ext rfl (setEpollin_congr h.epollCtl true u.toState), hreq'⟩
        · exact ⟨rfl, hreq'⟩
    · exact ⟨rfl, hreq⟩

theorem inv_recvBufNative (hinv : s.toState.Inv)
    (h : Short k k' (first (s.buf.getBlankIovec maxPktSize)).len n o)
    (hpos : ∀ len ∈ s.requests, 0 < len) : (s.recvBufNative k).2.toState.Inv := by
  have hkeep := (State.kept_inv k').recvBuf hinv
  rw [(recvBufNative_eq hinv.ok h hpos).1] at hkeep
  generalize s.recvBufNative k = r at hkeep ⊢
  exact hkeep

theorem inv_handleWrite (hinv : s.toState.Inv)
    (h : Short k k' m (first (s.buf.getExistIovec maxPktSize)).len o)
    (hpos : ∀ len ∈ s.requests, 0 < len) : (s.handleWrite k).2.toState.Inv := by
  have hkeep := (State.kept_inv k').handleWrite hinv
  rw [(handleWrite_eq hinv.ok h hpos).1] at hkeep
  generalize s.handleWrite k = r at hkeep ⊢
  exact hkeep

theorem handleIn_eq (hinv : s.toState.Inv) (ev : BitVec 32)
    (h : Short k k' (first (s.buf.getBlankIovec maxPktSize)).len n
      (first ((s.recvBufNative k).2.buf.getExistIovec maxPktSize)).len)
    (hpos : ∀ len ∈ s.requests, 0 < len) :
    s.toState.handleIn ev k' = view (s.handleIn ev k) ∧
      ∀ len ∈ (s.handleIn ev k).2.requests, 0 < len := by
  obtain ⟨hread, hreq⟩ := handleRead_eq hinv.ok (inv_recvBufNative hinv h hpos).ok h hpos
  rw [State.handleIn, hread, handleIn]
  by_cases hev : Armed ev EPOLLIN
  · rw [if_pos hev, if_pos hev]
    generalize s.handleRead k = r at hreq ⊢
    obtain ⟨ret, t⟩ := r
    dsimp only [view]
    split
    · exact ⟨rfl, hreq⟩
    · exact ⟨rfl, hreq⟩
  · rw [if_neg hev, if_neg hev]
    exact ⟨rfl, hpos⟩

/-- Where the `EPOLLIN` half begins. -/
def afterOut (ev : BitVec 32) (k : Answers) (s : Native) : Native :=
  if Armed ev EPOLLOUT then (s.handleWrite k).2 else s

/-- **A step of the native server is a step of the vectored one**, and asks for no empty
transfer. -/
theorem handle_eq (hinv : s.toState.Inv) (ev : BitVec 32)
    (h : Short k k' (first ((s.afterOut ev k).buf.getBlankIovec maxPktSize)).len
      (first (s.buf.getExistIovec maxPktSize)).len
      (first (((s.afterOut ev k).recvBufNative k).2.buf.getExistIovec maxPktSize)).len)
    (hpos : ∀ len ∈ s.requests, 0 < len) :
    s.toState.handle ev k' = view (s.handle ev k) ∧
      ∀ len ∈ (s.handle ev k).2.requests, 0 < len := by
  rw [State.handle, handle]
  by_cases hforeign : ev &&& ~~~(EPOLLIN ||| EPOLLOUT) ≠ 0
  · rw [if_pos hforeign, if_pos hforeign]
    exact ⟨rfl, hpos⟩
  · rw [if_neg hforeign, if_neg hforeign]
    by_cases hout : Armed ev EPOLLOUT
    · obtain ⟨hwrite, hreq⟩ := handleWrite_eq hinv.ok h hpos
      have hinv' := inv_handleWrite hinv h hpos
      rw [afterOut, if_pos hout] at h
      rw [if_pos hout, if_pos hout, hwrite]
      generalize s.handleWrite k = r at h hreq hinv' ⊢
      obtain ⟨ret, t⟩ := r
      dsimp only [view]
      split
      · exact ⟨rfl, hreq⟩
      · exact handleIn_eq hinv' ev h hreq
    · rw [afterOut, if_neg hout] at h
      rw [if_neg hout, if_neg hout]
      exact handleIn_eq hinv ev h hpos

/-- The answers that the vectored server gets in the same call: the counts that `recv` and
`send` got for their one segment. -/
def vectored (ev : BitVec 32) (k : Answers) (s : Native) : Answers where
  recvmsg total :=
    (k.recvmsg (first ((s.afterOut ev k).buf.getBlankIovec maxPktSize)).len).widen total
  sendmsgOut total := (k.sendmsgOut (first (s.buf.getExistIovec maxPktSize)).len).widen total
  sendmsgIn total :=
    (k.sendmsgIn
      (first (((s.afterOut ev k).recvBufNative k).2.buf.getExistIovec maxPktSize)).len).widen total
  epollCtl := k.epollCtl

theorem handle_vectored (hinv : s.toState.Inv) (c : Call) (hpos : ∀ len ∈ s.requests, 0 < len) :
    s.toState.handle c.ev (s.vectored c.ev c.answers) = view (s.handle c.ev c.answers) ∧
      ∀ len ∈ (s.handle c.ev c.answers).2.requests, 0 < len :=
  handle_eq hinv c.ev ⟨rfl, rfl, rfl, rfl⟩ hpos

end Native

/-! ### Runs -/

/-- The vectored call answers a call of the native server: the same events, and the same
counts from the kernel. -/
def Refines (c c' : Call) : Prop := c'.ev = c.ev ∧ ∃ m n o, Short c.answers c'.answers m n o

theorem run_refines {mem : ℕ → UInt8} {added : Bool} {calls : List Call} {s : Native}
    (h : native.Run (Native.fresh mem added) calls s) :
    (∃ calls', List.Forall₂ Refines calls calls' ∧
      server.Run (State.fresh mem added) calls' s.toState) ∧ ∀ len ∈ s.requests, 0 < len := by
  induction h with
  | nil => exact ⟨⟨[], .nil, .nil _⟩, fun len hlen => by simp [Native.fresh] at hlen⟩
  | @snoc s t calls c _ hstep ih =>
    obtain ⟨⟨calls', hcalls, hrun⟩, hpos⟩ := ih
    obtain ⟨heq, hreq⟩ := Native.handle_vectored (run_inv hrun) c hpos
    rw [show s.handle c.ev c.answers = (0, t) from hstep] at heq hreq
    have hcall : server.step s.toState ⟨c.ev, s.vectored c.ev c.answers⟩ t.toState := heq
    refine ⟨⟨calls' ++ [⟨c.ev, s.vectored c.ev c.answers⟩], ?_, .snoc hrun hcall⟩, hreq⟩
    exact List.rel_append hcalls (.cons ⟨rfl, _, _, _, rfl, rfl, rfl, rfl⟩ .nil)

/-- **The native server refines the vectored one**: its runs are runs of the vectored
server, each of its calls is a call of it from the same state and with the same return
value, and no `recv` and no `send` is for zero bytes. -/
theorem native_refines {mem : ℕ → UInt8} {added : Bool} {calls : List Call} {s : Native}
    (h : native.Run (Native.fresh mem added) calls s) :
    (∃ calls', List.Forall₂ Refines calls calls' ∧
        server.Run (State.fresh mem added) calls' s.toState) ∧
      ∀ c : Call, (∀ len ∈ (s.handle c.ev c.answers).2.requests, 0 < len) ∧
        s.toState.handle c.ev (s.vectored c.ev c.answers) =
          ((s.handle c.ev c.answers).1, (s.handle c.ev c.answers).2.toState) := by
  obtain ⟨hrun, hpos⟩ := run_refines h
  refine ⟨hrun, fun c => ?_⟩
  obtain ⟨calls', -, hrun⟩ := hrun
  obtain ⟨heq, hreq⟩ := Native.handle_vectored (run_inv hrun) c hpos
  exact ⟨hreq, heq⟩

/-- The native server behind `firstCall`. -/
def nativeAfterFirstCall : Native :=
  ((Native.fresh (fun _ => 0) true).handle firstCall.ev firstCall.answers).2

theorem native_refines_firstCall :
    ∃ calls', List.Forall₂ Refines [firstCall] calls' ∧
      server.Run (State.fresh (fun _ => 0) true) calls' nativeAfterFirstCall.toState := by
  have hrun : native.Run (Native.fresh (fun _ => 0) true) [firstCall] nativeAfterFirstCall :=
    .single (l := firstCall) (Prod.ext (by decide) rfl)
  exact (native_refines hrun).1

end EchoLt

end CppProgramming.Socket
