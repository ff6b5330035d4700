import CppProgramming.Lib.Transition
import CppProgramming.Socket.EdgeTriggered
import CppProgramming.Socket.RingBuffer

/-!
# The edge-triggered echo connection

`Connection` of `tcp_echo1/main/server_epoll_et_recvmsg.cpp` on a socket under
edge-triggered epoll.  One call of `handle` reads once and writes at most twice, and an
event is not repeated, so that what a call leaves unread stays unread unless another event
is queued.

One `recvmsg` takes all bytes that fit, and a `sendmsg` that does not take all it is
offered leaves the socket without room.  That is enough for the bytes (`Inv.handle`), but
not for the end of the stream: where it is there behind bytes, the one `recvmsg` answers
the bytes.  `echo_et_drains` says that nothing else goes wrong.

`Answers` are what the kernel does during one call of `handle`: what arrives before each
system call, and which of them fail with an `errno` other than `EAGAIN`.
-/

namespace CppProgramming.Socket.EchoEt

open RingBuffer CppProgramming.Lib

/-- `RingBuffer::max_pkt_size` of `tcp_echo1`. -/
def maxPktSize : ℕ := 4096

theorem pktSize : PktSize maxPktSize := ⟨by decide, by decide, ⟨2 ^ 52, by decide⟩⟩

structure State where
  buf : RingBuffer
  socket : Endpoint

structure Answers where
  beforeOut : List Arrival
  beforeRecv : List Arrival
  beforeIn : List Arrival
  outFails : Bool
  recvFails : Bool
  inFails : Bool

namespace State

/-- The `recvmsg` of a call. -/
def recvmsg (k : Answers) (n : ℕ) (e : Endpoint) : RecvResult n :=
  if k.recvFails then .error else e.recv n n

/-- A `sendmsg` of a call. -/
def sendmsg (fails : Bool) (n : ℕ) (e : Endpoint) : SendResult n :=
  if fails then .error else e.send n n

/-- `recv_buf` from its `recvmsg` on, which read into `iov` and answered `r`. -/
def recvWith (b : RingBuffer) (iov : List IoVec) (e : Endpoint) {n : ℕ} (r : RecvResult n) :
    ℤ × State :=
  match r with
  | .bytes data _ _ => (data.length, ⟨(b.scatter iov data).addExist data.length, e.take data⟩)
  | .eof => (-1, ⟨b, e⟩)
  | .again => (-1, ⟨b, e⟩)
  | .error => (-1, ⟨b, e⟩)

def recvBuf (k : Answers) (s : State) : ℤ × State :=
  if s.buf.getBlankSize maxPktSize ≤ 0 then (-1, s)
  else
    let iov := s.buf.getBlankIovec maxPktSize
    let e := s.socket.arrivals k.beforeRecv
    recvWith s.buf iov e (recvmsg k (totalLen iov) e)

/-- `send_buf` from its `sendmsg` on, which offered `iov` and answered `r`. -/
def sendWith (b : RingBuffer) (iov : List IoVec) (e : Endpoint) {n : ℕ} (r : SendResult n) :
    ℤ × State :=
  match r with
  | .sent len _ => (len, ⟨b.addBlank len, e.put (b.gather iov len)⟩)
  | .again => (0, ⟨b.addBlank 0, e⟩)
  | .error => (-1, ⟨b, e⟩)

def sendBuf (before : List Arrival) (fails : Bool) (s : State) : ℤ × State :=
  let toSend := s.buf.getExistSize
  if toSend ≤ 0 then (0, s)
  else
    let iov := s.buf.getExistIovec maxPktSize
    let e := s.socket.arrivals before
    sendWith s.buf iov e (sendmsg fails (totalLen iov) e)

def handleRead (k : Answers) (s : State) : ℤ × State :=
  let (ret, s) := s.recvBuf k
  if ret < 0 then (-1, s)
  else
    let (ret, s) := s.sendBuf k.beforeIn k.inFails
    if ret < 0 then (-1, s) else (0, s)

def handleWrite (k : Answers) (s : State) : ℤ × State :=
  let (ret, s) := s.sendBuf k.beforeOut k.outFails
  if ret < 0 then (-1, s) else (0, s)

/-- The `EPOLLIN` half of `handle`. -/
def handleIn (ev : BitVec 32) (k : Answers) (s : State) : ℤ × State :=
  if Armed ev EPOLLIN then
    let (ret, s) := s.handleRead k
    if ret < 0 then (ret, s) else (0, s)
  else (0, s)

def handle (ev : BitVec 32) (k : Answers) (s : State) : ℤ × State :=
  if ev &&& ~~~(EPOLLIN ||| EPOLLOUT) ≠ 0 then (-1, s)
  else if Armed ev EPOLLOUT then
    let (ret, s) := s.handleWrite k
    if ret < 0 then (ret, s) else s.handleIn ev k
  else s.handleIn ev k

/-- A connection that was just added, on a socket of any readiness; `EPOLL_CTL_ADD` queues an
event if there is any. -/
def fresh (mem : ℕ → UInt8) (unread : List UInt8) (eof : Bool) (room : ℕ) (event : Bool) :
    State where
  buf := RingBuffer.new mem
  socket := ⟨unread, eof, room, event || decide (unread ≠ []) || eof || decide (0 < room), [], []⟩

end State

/-- The event that is queued is delivered, and `handle` called with what it reports. -/
def State.call (k : Answers) (s : State) : ℤ × State :=
  State.handle s.socket.mask k ⟨s.buf, s.socket.deliver⟩

inductive Label
  | arrive (a : Arrival)
  | handle (k : Answers)

/-- The event loop deletes the connection when `handle` returns `-1`, so that its runs are
those in which it returns `0`. -/
def server : System State Label where
  init s := ∃ mem unread eof room event, s = State.fresh mem unread eof room event
  step s l t := match l with
    | .arrive a => t = ⟨s.buf, s.socket.arrive a⟩
    | .handle k => s.socket.pending = true ∧ s.call k = (0, t)

/-! ### The two transfers -/

namespace State

variable {k : Answers} {s t : State} {before : List Arrival} {fails : Bool} {ret : ℤ}

/-- **What `send_buf` can do.**  On an empty ring it makes no call; otherwise it fails on a
hard error, sends nothing to a socket without room, and else all that there is room for. -/
theorem sendBuf_cases (hok : s.buf.Ok maxPktSize) (before : List Arrival) (fails : Bool) :
    (s.buf.used = 0 ∧ s.sendBuf before fails = (0, s)) ∨
      (0 < s.buf.used ∧
        ((s.sendBuf before fails = (-1, ⟨s.buf, s.socket.arrivals before⟩)) ∨
        (¬ (s.socket.arrivals before).Writable ∧
          s.sendBuf before fails = (0, ⟨s.buf.addBlank 0, s.socket.arrivals before⟩)) ∨
        ∃ len : ℕ, len = min s.buf.used (s.socket.arrivals before).room ∧
          s.sendBuf before fails = ((len : ℤ), ⟨s.buf.addBlank len,
            (s.socket.arrivals before).put ((s.buf.contents maxPktSize).take len)⟩))) := by
  have hexist := getExistSize_eq pktSize hok
  have htotal := totalLen_getExistIovec pktSize hok
  rw [sendBuf]
  dsimp only
  rw [hexist, htotal]
  by_cases hzero : s.buf.used = 0
  · rw [if_pos (by omega)]
    exact Or.inl ⟨hzero, rfl⟩
  · rw [if_neg (by omega)]
    refine Or.inr ⟨Nat.pos_of_ne_zero hzero, ?_⟩
    cases fails with
    | true => exact Or.inl rfl
    | false =>
      right
      rw [sendmsg, if_neg (by simp)]
      rcases (s.socket.arrivals before).send_cases s.buf.used s.buf.used
        with ⟨hroom, heq⟩ | ⟨len, le, heq, hlen⟩
      · exact Or.inl ⟨hroom, by rw [heq, sendWith]⟩
      · exact Or.inr ⟨len, by omega, by rw [heq, sendWith, gather_exist pktSize hok]⟩

/-- **What `recv_buf` can do.**  It goes on with the bytes that were read, and fails on
everything else, the end of the stream and a full ring included. -/
theorem recvBuf_cases (hok : s.buf.Ok maxPktSize) (k : Answers) :
    (∃ e, s.recvBuf k = (-1, ⟨s.buf, e⟩)) ∨
      ∃ data : List UInt8, 0 < data.length ∧
        data = (s.socket.arrivals k.beforeRecv).unread.take (maxPktSize - 1 - s.buf.used) ∧
        s.recvBuf k = ((data.length : ℤ),
          ⟨(s.buf.scatter (s.buf.getBlankIovec maxPktSize) data).addExist data.length,
            (s.socket.arrivals k.beforeRecv).take data⟩) := by
  have hle : s.buf.used ≤ maxPktSize - 1 := hok
  have hblank := getBlankSize_eq pktSize hok
  have htotal := totalLen_getBlankIovec pktSize hok
  rw [recvBuf]
  dsimp only
  rw [hblank, htotal, recvmsg]
  by_cases hfull : s.buf.used = maxPktSize - 1
  · rw [if_pos (by omega)]
    exact Or.inl ⟨_, rfl⟩
  · rw [if_neg (by omega)]
    by_cases hfails : k.recvFails = true
    · rw [if_pos hfails]
      exact Or.inl ⟨_, rfl⟩
    · rw [if_neg hfails]
      rcases (s.socket.arrivals k.beforeRecv).recv_cases (n := maxPktSize - 1 - s.buf.used)
        (by omega) (maxPktSize - 1 - s.buf.used) with
      ⟨data, pos, le, heq, hdata⟩ | ⟨_, _, heq⟩ | ⟨_, heq⟩
      · refine Or.inr ⟨data, pos, ?_, by rw [heq, recvWith]⟩
        rwa [Nat.min_eq_left (Nat.le_succ _)] at hdata
      · exact Or.inl ⟨_, by rw [heq, recvWith]⟩
      · exact Or.inl ⟨_, by rw [heq, recvWith]⟩

/-! ### One call of `handle` -/

/-- `t` has no event queued, and nothing to read that `s` had not. -/
def Quiet (s t : State) : Prop := Endpoint.Quiet s.socket t.socket

/-- The ring is empty, or the socket takes nothing. -/
def Flushed (s : State) : Prop := s.buf.used = 0 ∨ ¬ s.socket.Writable

theorem sendBuf_spec (hok : s.buf.Ok maxPktSize) (h : s.sendBuf before fails = (ret, t))
    (hret : ¬ ret < 0) : t.buf.Ok maxPktSize ∧ t.buf.used ≤ s.buf.used ∧
      (t.socket.pending = false → s.Quiet t ∧ t.Flushed) := by
  rcases sendBuf_cases hok before fails with
    ⟨hzero, heq⟩ | ⟨hpos, heq | ⟨hroom, heq⟩ | ⟨len, hlen, heq⟩⟩
  · obtain ⟨rfl, rfl⟩ := Prod.mk.inj (heq.symm.trans h)
    exact ⟨hok, le_rfl, fun hpending => ⟨.refl hpending, Or.inl hzero⟩⟩
  · obtain ⟨rfl, rfl⟩ := Prod.mk.inj (heq.symm.trans h)
    exact absurd (by decide) hret
  · obtain ⟨rfl, rfl⟩ := Prod.mk.inj (heq.symm.trans h)
    have hused : (s.buf.addBlank 0).used = s.buf.used - 0 := used_addBlank (n := 0) (Nat.zero_le _)
    refine ⟨ok_addBlank (n := 0) hok (Nat.zero_le _), hused.le, fun hpending => ?_⟩
    exact ⟨Endpoint.Quiet.arrivals before hpending, Or.inr hroom⟩
  · obtain ⟨rfl, rfl⟩ := Prod.mk.inj (heq.symm.trans h)
    have hle : len ≤ s.buf.used := by omega
    have hused := used_addBlank hle
    refine ⟨ok_addBlank hok hle, hused.le.trans (Nat.sub_le _ _), fun hpending => ?_⟩
    have hquiet := Endpoint.Quiet.arrivals before hpending
    refine ⟨⟨hquiet.pending, hquiet.unread, hquiet.eof⟩, ?_⟩
    by_cases hall : len = s.buf.used
    · exact Or.inl (hused.trans (by omega))
    · refine Or.inr fun hwritable => ?_
      have hroom : 0 < (s.socket.arrivals before).room -
        ((s.buf.contents maxPktSize).take len).length := hwritable
      rw [List.length_take, length_contents] at hroom
      omega

theorem recvBuf_spec (hok : s.buf.Ok maxPktSize) (h : s.recvBuf k = (ret, t)) (hret : ¬ ret < 0) :
    t.buf.Ok maxPktSize ∧
      (t.socket.pending = false → s.socket.pending = false ∧ t.socket.eof = s.socket.eof ∧
        (s.socket.unread.length ≤ maxPktSize - 1 - s.buf.used →
          s.socket.unread ≠ [] ∧ t.socket.unread = [])) := by
  have hle : s.buf.used ≤ maxPktSize - 1 := hok
  rcases recvBuf_cases hok k with ⟨e, heq⟩ | ⟨data, hpos, hdata, heq⟩
  · obtain ⟨rfl, rfl⟩ := Prod.mk.inj (heq.symm.trans h)
    exact absurd (by decide) hret
  · obtain ⟨rfl, rfl⟩ := Prod.mk.inj (heq.symm.trans h)
    have hlen : data.length ≤ maxPktSize - 1 - s.buf.used := by
      rw [hdata]
      exact List.length_take_le _ _
    refine ⟨ok_addExist pktSize (by rw [used_scatter]; omega), fun hpending => ?_⟩
    have hquiet := Endpoint.Quiet.arrivals k.beforeRecv hpending
    refine ⟨hquiet.pending, hquiet.eof, fun hfits => ?_⟩
    rw [hquiet.unread, List.take_of_length_le hfits] at hdata
    subst hdata
    refine ⟨List.length_pos_iff.mp hpos, ?_⟩
    show (s.socket.arrivals k.beforeRecv).unread.drop s.socket.unread.length = []
    rw [hquiet.unread, List.drop_length]

theorem handleRead_spec (hok : s.buf.Ok maxPktSize) (h : s.handleRead k = (ret, t))
    (hret : ¬ ret < 0) : t.buf.Ok maxPktSize ∧
      (t.socket.pending = false → s.socket.pending = false ∧ t.socket.eof = s.socket.eof ∧
        t.Flushed ∧ (s.socket.unread.length ≤ maxPktSize - 1 - s.buf.used →
          s.socket.unread ≠ [] ∧ t.socket.unread = [])) := by
  rw [handleRead] at h
  generalize hrecv : s.recvBuf k = r at h
  obtain ⟨recvRet, u⟩ := r
  dsimp only at h
  split at h
  · obtain ⟨rfl, rfl⟩ := Prod.mk.inj h
    exact absurd (by decide) hret
  · rename_i hrecvRet
    obtain ⟨huok, hread⟩ := recvBuf_spec hok hrecv hrecvRet
    generalize hsend : u.sendBuf k.beforeIn k.inFails = r at h
    obtain ⟨sendRet, v⟩ := r
    dsimp only at h
    split at h
    · obtain ⟨rfl, rfl⟩ := Prod.mk.inj h
      exact absurd (by decide) hret
    · rename_i hsendRet
      obtain ⟨rfl, rfl⟩ := Prod.mk.inj h
      obtain ⟨hvok, -, hsent⟩ := sendBuf_spec huok hsend hsendRet
      refine ⟨hvok, fun hpending => ?_⟩
      obtain ⟨hquiet, hflushed⟩ := hsent hpending
      obtain ⟨hspending, heof, hread⟩ := hread hquiet.pending
      refine ⟨hspending, hquiet.eof.trans heof, hflushed, fun hfits => ?_⟩
      obtain ⟨hunread, hnil⟩ := hread hfits
      exact ⟨hunread, hquiet.unread.trans hnil⟩

theorem handleWrite_spec (hok : s.buf.Ok maxPktSize) (h : s.handleWrite k = (ret, t))
    (hret : ¬ ret < 0) : t.buf.Ok maxPktSize ∧ t.buf.used ≤ s.buf.used ∧
      (t.socket.pending = false → s.Quiet t ∧ t.Flushed) := by
  rw [handleWrite] at h
  generalize hsend : s.sendBuf k.beforeOut k.outFails = r at h
  obtain ⟨sendRet, u⟩ := r
  dsimp only at h
  split at h
  · obtain ⟨rfl, rfl⟩ := Prod.mk.inj h
    exact absurd (by decide) hret
  · rename_i hsendRet
    obtain ⟨rfl, rfl⟩ := Prod.mk.inj h
    exact sendBuf_spec hok hsend hsendRet

/-- Nothing is left to do that could be done: nothing to read, and nothing to send or no room
for it. -/
def Drained (s : State) : Prop := ¬ s.socket.Readable ∧ s.Flushed

/-- Where `handle` comes to its `EPOLLIN` half. -/
def atIn (k : Answers) (s : State) : State :=
  if Armed s.socket.mask EPOLLOUT then (handleWrite k ⟨s.buf, s.socket.deliver⟩).2
  else ⟨s.buf, s.socket.deliver⟩

/-- What `recv_buf` assumes of an event that reports `EPOLLIN`: the unread bytes fit into the
ring when it is handled. -/
def Fits (k : Answers) (s : State) : Prop :=
  s.socket.Readable →
    ((s.atIn k).socket.unread.length : ℤ) ≤ (s.atIn k).buf.getBlankSize maxPktSize

/-- The end of the stream is there behind unread bytes. -/
def EofBehind (s : State) : Prop := s.socket.unread ≠ [] ∧ s.socket.eof = true

theorem not_readable (hunread : s.socket.unread = []) (heof : ¬ s.socket.eof = true) :
    ¬ s.socket.Readable := fun h => h.elim (· hunread) heof

/-- The `EPOLLIN` half, on what is left of the readiness `e` that the event reports. -/
theorem handleIn_spec {e : Endpoint} (hok : s.buf.Ok maxPktSize)
    (hquiet : s.socket.pending = false → Endpoint.Quiet e s.socket)
    (hflushed : ¬ e.Readable → s.socket.pending = false → s.Flushed)
    (h : s.handleIn e.mask k = (0, t)) :
    t.buf.Ok maxPktSize ∧ (t.socket.pending = false → t.socket.eof = e.eof ∧
      ((e.Readable → (s.socket.unread.length : ℤ) ≤ s.buf.getBlankSize maxPktSize) →
        (e.unread ≠ [] → ¬ e.eof = true) → t.Drained)) := by
  have hle : s.buf.used ≤ maxPktSize - 1 := hok
  have hblank := getBlankSize_eq pktSize hok
  rw [handleIn] at h
  by_cases hr : e.Readable
  · rw [if_pos (Endpoint.armed_in_mask.mpr hr)] at h
    generalize hcall : s.handleRead k = r at h
    obtain ⟨ret, u⟩ := r
    dsimp only at h
    split at h
    · rename_i hret
      exact absurd (congrArg Prod.fst h) hret.ne
    · rename_i hret
      obtain rfl := (Prod.mk.inj h).2
      obtain ⟨huok, hspec⟩ := handleRead_spec hok hcall hret
      refine ⟨huok, fun hpending => ?_⟩
      obtain ⟨hspending, heof, hu, hread⟩ := hspec hpending
      have hq := hquiet hspending
      rw [hq.eof] at heof
      refine ⟨heof, fun hfits hnot => ?_⟩
      have hfits := hfits hr
      obtain ⟨hunread, hnil⟩ := hread (by omega)
      rw [hq.unread] at hunread
      exact ⟨not_readable hnil (heof ▸ hnot hunread), hu⟩
  · rw [if_neg (mt Endpoint.armed_in_mask.mp hr)] at h
    obtain rfl := (Prod.mk.inj h).2
    refine ⟨hok, fun hpending => ?_⟩
    have hq := hquiet hpending
    refine ⟨hq.eof, fun _ _ => ⟨fun hread => hr ?_, hflushed hr hpending⟩⟩
    rwa [Endpoint.Readable, hq.unread, hq.eof] at hread

/-- **One call of `handle`** leaves nothing to do unless an event is queued, or the end of the
stream was there behind bytes. -/
theorem call_spec (hok : s.buf.Ok maxPktSize) (h : s.call k = (0, t)) :
    t.buf.Ok maxPktSize ∧ (t.socket.pending = false → t.socket.eof = s.socket.eof ∧
      (s.Fits k → ¬ s.EofBehind → t.Drained)) := by
  have hbehind : ¬ s.EofBehind → s.socket.unread ≠ [] → ¬ s.socket.eof = true :=
    fun hnot hunread heof => hnot ⟨hunread, heof⟩
  rw [call, ← Endpoint.mask_deliver, handle, if_neg (by rw [Endpoint.mask_foreign]; simp)] at h
  by_cases hw : s.socket.deliver.Writable
  · have harmed := Endpoint.armed_out_mask.mpr hw
    have hat : s.atIn k = (handleWrite k ⟨s.buf, s.socket.deliver⟩).2 := if_pos harmed
    rw [if_pos harmed] at h
    generalize hcall : handleWrite k ⟨s.buf, s.socket.deliver⟩ = r at h hat
    obtain ⟨ret, u⟩ := r
    dsimp only at h hat
    split at h
    · rename_i hret
      exact absurd (congrArg Prod.fst h) hret.ne
    · rename_i hret
      obtain ⟨huok, -, hspec⟩ := handleWrite_spec (s := ⟨s.buf, s.socket.deliver⟩) hok hcall hret
      obtain ⟨htok, hin⟩ := handleIn_spec huok (fun hpending => (hspec hpending).1)
        (fun _ hpending => (hspec hpending).2) h
      refine ⟨htok, fun hpending => ⟨(hin hpending).1, fun hfits hnot => ?_⟩⟩
      rw [Fits, hat] at hfits
      exact (hin hpending).2 hfits (hbehind hnot)
  · have harmed := mt Endpoint.armed_out_mask.mp hw
    have hat : s.atIn k = ⟨s.buf, s.socket.deliver⟩ := if_neg harmed
    rw [if_neg harmed] at h
    obtain ⟨htok, hin⟩ := handleIn_spec (e := s.socket.deliver) (s := ⟨s.buf, s.socket.deliver⟩)
      hok (fun hpending => .refl hpending) (fun _ _ => Or.inr hw) h
    refine ⟨htok, fun hpending => ⟨(hin hpending).1, fun hfits hnot => ?_⟩⟩
    rw [Fits, hat] at hfits
    exact (hin hpending).2 hfits (hbehind hnot)

/-! ### Runs -/

theorem ok_fresh (mem : ℕ → UInt8) (unread : List UInt8) (eof : Bool) (room : ℕ) (event : Bool) :
    (fresh mem unread eof room event).buf.Ok maxPktSize := by
  rw [Ok, fresh, used_new]
  exact Nat.zero_le _

theorem ok_of_reachable (h : server.Reachable s) : s.buf.Ok maxPktSize := by
  refine h.invariant (P := fun s => s.buf.Ok maxPktSize) ?_ fun s l t _ hok ht => ?_
  · rintro _ ⟨mem, unread, eof, room, event, rfl⟩
    exact ok_fresh mem unread eof room event
  · cases l with
    | arrive a =>
      obtain rfl : t = ⟨s.buf, s.socket.arrive a⟩ := ht
      exact hok
    | handle k => exact (call_spec hok ht.2).1

/-- Whenever no event is queued there is nothing left to do. -/
def Live (s : State) : Prop := s.socket.pending = false → s.Drained

theorem live_fresh (mem : ℕ → UInt8) (unread : List UInt8) (eof : Bool) (room : ℕ) (event : Bool) :
    (fresh mem unread eof room event).Live := by
  intro hpending
  simp only [fresh, Bool.or_eq_false_iff, decide_eq_false_iff_not] at hpending
  obtain ⟨⟨⟨-, hunread⟩, heof⟩, -⟩ := hpending
  exact ⟨not_readable (not_not.mp hunread) (by simp [fresh, heof]), Or.inl (used_new mem)⟩

theorem Live.arrive (h : s.Live) (a : Arrival) : Live ⟨s.buf, s.socket.arrive a⟩ := by
  intro hpending
  have hq := Endpoint.Quiet.arrive a hpending
  obtain ⟨hread, hflushed⟩ := h hq.pending
  refine ⟨fun hr => hread ?_, hflushed.imp id fun hroom hw => ?_⟩
  · rwa [Endpoint.Readable, hq.unread, hq.eof] at hr
  · have hevent := Endpoint.writable_arrive a (fun hw' => absurd hw' hroom) hw
    exact absurd hpending (by simp [hevent])

/-- A step under the assumption of `recv_buf`. -/
def Roomy (s : State) : Label → Prop
  | .arrive _ => True
  | .handle k => s.Fits k

/-- A step that does not meet the end of the stream behind bytes. -/
def Complete (s : State) : Label → Prop
  | .arrive _ => True
  | .handle _ => ¬ s.EofBehind

theorem Live.step {l : Label} (h : s.Live) (hok : s.buf.Ok maxPktSize) (hroomy : s.Roomy l)
    (hcomplete : s.Complete l) (ht : server.step s l t) : t.Live := by
  cases l with
  | arrive a =>
    obtain rfl : t = ⟨s.buf, s.socket.arrive a⟩ := ht
    exact h.arrive a
  | handle k => exact fun hpending => ((call_spec hok ht.2).2 hpending).2 hroomy hcomplete

end State

/-- **When the edge-triggered server leaves nothing to do**: as long as the unread bytes fit
into the ring, in every run in which no event meets the end of the stream behind unread
bytes, whenever no event is queued there is nothing to read, and nothing to send or no
room for it; and an event that does leaves the end of the stream unread, unless another one is
queued before `handle` returns. -/
theorem echo_et_drains (s : State) :
    ((server.restrict fun s l => s.Roomy l ∧ s.Complete l).Reachable s → s.Live) ∧
      (server.Reachable s → ∀ k t, server.step s (.handle k) t → s.EofBehind →
        t.socket.pending = false → ¬ t.Drained) := by
  refine ⟨fun hs => hs.invariant ?_ fun s l t hs h ht => ?_, fun hs k t ht hbehind hpending => ?_⟩
  · rintro _ ⟨mem, unread, eof, room, event, rfl⟩
    exact State.live_fresh mem unread eof room event
  · exact h.step (State.ok_of_reachable hs.of_restrict) ht.2.1 ht.2.2 ht.1
  · have hstays := ((State.call_spec (State.ok_of_reachable hs) ht.2).2 hpending).1
    exact fun hdrained => hdrained.1 (Or.inr (hstays.trans hbehind.2))

/-- The peer has sent a byte and shut down its side before the connection is accepted. -/
def oneByte : State := State.fresh (fun _ => 0) [7] true 1 false

/-- Nothing arrives during a call, and nothing fails. -/
def quiet : Answers := ⟨[], [], [], false, false, false⟩

/-- The byte is echoed, and the end of the stream left unread. -/
theorem echo_et_strands : ¬ ∀ s, (server.restrict State.Roomy).Reachable s → s.Live := by
  intro hlive
  have hstep : (server.restrict State.Roomy).step oneByte (.handle quiet) (oneByte.call quiet).2 :=
    ⟨⟨rfl, Prod.ext (by decide) rfl⟩, fun _ => by decide⟩
  have hinit : (server.restrict State.Roomy).init oneByte := ⟨_, _, _, _, _, rfl⟩
  have hdrained := hlive _ ((System.Reachable.of_init hinit).step hstep) (by decide)
  exact hdrained.1 (Or.inr (by decide))

end CppProgramming.Socket.EchoEt
