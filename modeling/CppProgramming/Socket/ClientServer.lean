import CppProgramming.Lib.Counting
import CppProgramming.Socket.ClientVerify
import CppProgramming.Socket.EchoLt.Serve

/-!
# The verifying client against the echo server

The event loop of `tcp_echo/client_epoll_verify.cpp`, with any number of connections, and at the
other end of each connection the level-triggered echo connection of `EchoLt.Connection`.  A
connection of TCP is two streams of bytes that arrive in order, cut anywhere and after any time;
`Sizes` says from how many bytes on the way on the two `send`s have to wait.  The loop has
buffers of its own, and `LoopSize` is a packet size that fits into them.

The thread of the client sends a packet for every read, and `send_full` does not return before the
packet is sent.  So the packets that are under way are as many as the reads were short
(`Pair.flight`), and that decides everything:

* as long as every read returns a whole packet, the client reports nothing, the system is never
  stuck, and it can not go on for long without a read (`echo_verified`, `echo_progress`);
* and in every system, however much the streams take, there are reads behind which nothing can
  move any more: the client waits in `send_full` for room that only its own reads would make
  (`echo_hangs`).
-/

namespace CppProgramming.Socket.ClientServer

open Lib ClientVerify EchoLt

/-- `max_pkt_size`: how much `tx_buf` and `rx_buf` of an `EventLoop` hold. -/
def LoopSize.maxPktSize : ℕ := 1024

/-- A packet size that an `EventLoop` has room for. -/
structure LoopSize extends PacketSize where
  le : val ≤ LoopSize.maxPktSize

instance : Coe LoopSize PacketSize := ⟨LoopSize.toPacketSize⟩

/-- One TCP connection: the client's object and what `send_full` has still to send of its packet,
the server's object, and the bytes on the way. -/
structure Pair where
  client : Connection
  pending : List UInt8
  toServer : List UInt8
  server : EchoLt.State
  toClient : List UInt8

/-- So many bytes on the way make a `send` wait. -/
structure Sizes where
  toServer : ℕ
  toClient : ℕ

namespace Pair

variable (L : Layout) (P : LoopSize)

/-- `Connection::send` up to `send_full`. -/
def send (p : Pair) : Pair :=
  { p with
    client := p.client.send L P [P.val]
    pending := L.numbers p.client.txSeq P.words }

/-- One `send` of `send_full`. -/
def push (count : ℕ) (p : Pair) : Pair :=
  { p with
    pending := p.pending.drop count
    toServer := p.toServer ++ p.pending.take count }

/-- `Connection::handle` up to `send_full`, when `recv` reads `recd` bytes. -/
def handle (errCnt : BitVec 64) (recd : ℕ) (p : Pair) : Option Pair :=
  let (ret, client) := ({ p.client with errCnt } : Connection).handle L P EPOLLIN
    (readFrom p.toClient recd P.val) [P.val]
  if ret < 0 then none
  else some { p with
    client
    pending := L.numbers p.client.txSeq P.words
    toClient := p.toClient.drop recd }

/-- A call of the server's `handle`. -/
def serve (k : Counts) (p : Pair) : Option Pair :=
  let (ret, server) := p.server.handle (k.events p.server) (k.answers p.toServer)
  if ret < 0 then none
  else some { p with
    server
    toServer := p.toServer.drop (server.received.length - p.server.received.length)
    toClient := p.toClient ++ server.sent.drop p.server.sent.length }

end Pair

/-- An `EventLoop` with its connections: how many first packets its constructor has begun to send,
and the connection whose `send_full` is running. -/
structure State (n : ℕ) where
  pairs : Fin n → Pair
  errCnt : BitVec 64
  opened : ℕ
  sending : Option (Fin n)

inductive Label (n : ℕ)
  | start
  | push (count : ℕ)
  | handle (i : Fin n) (recd : ℕ)
  | serve (i : Fin n) (k : Counts)

variable {n : ℕ}

/-- Behind the constructor's connects; nobody sets `err_cnt`. -/
def initial (mem : Fin n → ℕ → UInt8) (errCnt : BitVec 64) : State n where
  pairs i := ⟨⟨0, 0, errCnt, [], [], []⟩, [], [], EchoLt.State.fresh (mem i) true, []⟩
  errCnt := errCnt
  opened := 0
  sending := none

namespace State

variable (L : Layout) (P : LoopSize) (size : Sizes)

def set (s : State n) (i : Fin n) (p : Pair) : State n :=
  { s with pairs := Function.update s.pairs i p }

/-- The constructor sends the first packet of a connection. -/
def start (s : State n) : Option (State n) :=
  if h : s.opened < n then
    if s.sending = none then
      let i := ⟨s.opened, h⟩
      some { s.set i ((s.pairs i).send L P) with opened := s.opened + 1, sending := some i }
    else none
  else none

def push (count : ℕ) (s : State n) : Option (State n) :=
  match s.sending with
  | none => none
  | some i =>
    let p := s.pairs i
    if 0 < count ∧ count ≤ p.pending.length ∧ p.toServer.length < size.toServer then
      some { s.set i (p.push count) with
        sending := if count = p.pending.length then none else some i }
    else none

/-- The thread is in its loop, and `epoll_wait` reports the connection. -/
def handle (i : Fin n) (recd : ℕ) (s : State n) : Option (State n) :=
  let p := s.pairs i
  if s.sending = none ∧ n ≤ s.opened ∧ 0 < recd ∧ recd ≤ P.val ∧ recd ≤ p.toClient.length then
    (p.handle L P s.errCnt recd).map fun p =>
      { s.set i p with errCnt := p.client.errCnt, sending := some i }
  else none

def serve (i : Fin n) (k : Counts) (s : State n) : Option (State n) :=
  let p := s.pairs i
  -- the client may read while the call runs, so that its second send may find any room
  if k.Honest p.toServer (decide (p.toClient.length < size.toClient)) p.server then
    (p.serve k).map (s.set i)
  else none

def next (s : State n) : Label n → Option (State n)
  | .start => s.start L P
  | .push count => s.push size count
  | .handle i recd => s.handle L P i recd
  | .serve i k => s.serve size i k

end State

def system (L : Layout) (P : LoopSize) (size : Sizes) (n : ℕ) : System (State n) (Label n) :=
  System.ofStep (fun s => ∃ mem errCnt, s = initial mem errCnt) (State.next L P size)

variable {L : Layout} {P : LoopSize} {size : Sizes} {p q : Pair} {s t : State n}
  {k : Counts} {count recd : ℕ} {e : BitVec 64} {i : Fin n}

/-! ### One connection -/

/-- What holds of a connection: nothing is lost on the way, and the server is sound. -/
structure Pair.Inv (p : Pair) : Prop where
  server : p.server.Sound
  there : p.server.received ++ p.toServer ++ p.pending = p.client.sent
  back : p.client.received ++ p.toClient = p.server.sent

/-- The bytes under way. -/
def Pair.flight (p : Pair) : ℕ :=
  p.pending.length + p.toServer.length + p.server.buf.used + p.toClient.length

namespace Pair

/-- The client has read `recd` bytes, and begun to send its next packet. -/
def reads (L : Layout) (P : LoopSize) (errCnt : BitVec 64) (recd : ℕ) (p : Pair) : Pair :=
  { p with
    client := (({ p.client with errCnt } : Connection).accept L P
      (p.toClient.take recd)).send L P [P.val]
    pending := L.numbers p.client.txSeq P.words
    toClient := p.toClient.drop recd }

/-- The server has read `data` and sent `out`. -/
def serves (server : EchoLt.State) (data out : List UInt8) (p : Pair) : Pair :=
  { p with
    server
    toServer := p.toServer.drop data.length
    toClient := p.toClient ++ out }

theorem Inv.flight (h : p.Inv) : p.client.received.length + p.flight = p.client.sent.length := by
  have hthere := congrArg List.length h.there
  have hback := congrArg List.length h.back
  have hserver := h.server.inv.used
  rw [List.length_append, List.length_append] at hthere
  rw [List.length_append] at hback
  rw [Pair.flight]
  omega

/-- **The client receives what it has sent.** -/
theorem Inv.echo (h : p.Inv) : p.client.received <+: p.client.sent := by
  have hserver : p.server.sent <+: p.server.received := ⟨_, h.server.inv.order⟩
  have hback : p.client.received <+: p.server.sent := ⟨_, h.back⟩
  have hthere : p.server.received <+: p.client.sent :=
    ⟨_, (List.append_assoc ..).symm.trans h.there⟩
  exact hback.trans (hserver.trans hthere)

theorem sent_send (c : Connection) :
    (c.send L P [P.val]).sent = c.sent ++ L.numbers c.txSeq P.words := by
  have hfull : (L.numbers c.txSeq P.words).length ≤ [P.val].sum := by
    rw [Layout.length_numbers, ← P.val_eq]
    simp
  show c.sent ++ sendFull _ _ = _
  rw [sendFull_eq hfull]

theorem length_packet (c : Connection) : (L.numbers c.txSeq P.words).length = P.val := by
  rw [Layout.length_numbers, P.val_eq]

theorem Inv.send (h : p.Inv) (hpending : p.pending = []) : (p.send L P).Inv where
  server := h.server
  there := by
    have hthere := h.there
    rw [hpending, List.append_nil] at hthere
    show _ ++ L.numbers p.client.txSeq P.words = (p.client.send L P [P.val]).sent
    rw [sent_send, ← hthere]
    rfl
  back := h.back

theorem Inv.push (h : p.Inv) (count : ℕ) : (p.push count).Inv where
  server := h.server
  there := by
    show p.server.received ++ (p.toServer ++ p.pending.take count) ++ p.pending.drop count =
      p.client.sent
    rw [← h.there, List.append_assoc, List.append_assoc, List.take_append_drop, List.append_assoc]
  back := h.back

/-- What `Connection::handle` does with what it reads. -/
theorem handle_eq (hpos : 0 < recd) (hle : recd ≤ P.val) (hlen : recd ≤ p.toClient.length) :
    p.handle L P e recd = some (p.reads L P e recd) := by
  have hmin : min recd P.val = recd := Nat.min_eq_left hle
  have htake : (p.toClient.take recd).length = recd := List.length_take_of_le hlen
  have hpos' : 0 < (p.toClient.take recd).length := by rwa [htake]
  have hle' : (p.toClient.take recd).length ≤ P.val := by rwa [htake]
  have hread : readFrom p.toClient recd P.val = .bytes (p.toClient.take recd) hpos' hle' := by
    rw [readFrom]
    simp only [hmin]
    rw [dif_pos hpos']
  rw [Pair.handle, hread, Connection.handle, if_pos (by decide)]
  rfl

theorem Inv.reads (h : p.Inv) (hpending : p.pending = []) (recd : ℕ) :
    (p.reads L P e recd).Inv where
  server := h.server
  there := by
    have hthere := h.there
    rw [hpending, List.append_nil] at hthere
    dsimp only [Pair.reads]
    rw [sent_send, accept_sent, accept_txSeq, ← hthere]
  back := by
    have hreceived : ((({ p.client with errCnt := e } : Connection).accept L P
        (p.toClient.take recd)).send L P [P.val]).received =
        p.client.received ++ p.toClient.take recd := accept_received
    dsimp only [Pair.reads]
    rw [hreceived, List.append_assoc, List.take_append_drop, h.back]

/-- What a call of the server's `handle` does. -/
theorem serve_eq {writable : Bool} (h : p.server.Sound)
    (hk : k.Honest p.toServer writable p.server) : ∃ server data out,
      p.serve k = some (p.serves server data out) ∧
        Served k p.toServer p.server server data out := by
  obtain ⟨server, data, out, hcall, hserved⟩ := handle_serves h hk
  have hdata : server.received.length - p.server.received.length = data.length := by
    rw [hserved.received, List.length_append, Nat.add_sub_cancel_left]
  have hout : server.sent.drop p.server.sent.length = out := by
    rw [hserved.sent, List.drop_left]
  refine ⟨server, data, out, ?_, hserved⟩
  rw [Pair.serve, hcall]
  dsimp only
  rw [if_neg (by omega), hdata, hout]
  rfl

theorem Inv.serves (h : p.Inv) {server : EchoLt.State} {data out : List UInt8}
    (hserved : Served k p.toServer p.server server data out) :
    (p.serves server data out).Inv where
  server := hserved.sound
  there := by
    obtain ⟨rest, hrest⟩ := hserved.stream
    dsimp only [Pair.serves]
    rw [hserved.received, List.append_assoc p.server.received, ← hrest, List.drop_left, hrest,
      h.there]
  back := by
    dsimp only [Pair.serves]
    rw [hserved.sent, ← List.append_assoc, h.back]

/-! ### What is under way -/

theorem flight_send (hpending : p.pending = []) : (p.send L P).flight = p.flight + P.val := by
  have hlen : (L.numbers p.client.txSeq P.words).length = P.val := length_packet p.client
  show (L.numbers p.client.txSeq P.words).length + p.toServer.length + p.server.buf.used +
    p.toClient.length = _
  rw [hlen, flight, hpending, List.length_nil]
  omega

theorem flight_push (hcount : count ≤ p.pending.length) : (p.push count).flight = p.flight := by
  show (p.pending.drop count).length + (p.toServer ++ p.pending.take count).length +
    p.server.buf.used + p.toClient.length = p.flight
  rw [List.length_drop, List.length_append, List.length_take, flight]
  omega

theorem flight_reads (hpending : p.pending = []) (hlen : recd ≤ p.toClient.length) :
    (p.reads L P e recd).flight + recd = p.flight + P.val := by
  have hpacket : (L.numbers p.client.txSeq P.words).length = P.val := length_packet p.client
  simp only [flight, reads, List.length_drop, hpacket, hpending, List.length_nil]
  omega

theorem flight_serves (h : p.Inv) {server : EchoLt.State} {data out : List UInt8}
    (hserved : Served k p.toServer p.server server data out) :
    (p.serves server data out).flight = p.flight := by
  have hbefore := h.server.inv.used
  have hafter := hserved.sound.inv.used
  have hdata := hserved.stream.length_le
  rw [hserved.received, hserved.sent, List.length_append, List.length_append] at hafter
  simp only [flight, serves, List.length_drop, List.length_append]
  omega

end Pair

/-! ### Every step -/

/-- The steps, with what they find and what they do. -/
inductive Steps (L : Layout) (P : LoopSize) (size : Sizes) (s : State n) :
    Label n → State n → Prop
  | start (i : Fin n) (hopened : i.val = s.opened) (hsending : s.sending = none) :
      Steps L P size s .start
        { s.set i ((s.pairs i).send L P) with opened := s.opened + 1, sending := some i }
  | push (i : Fin n) (count : ℕ) (hsending : s.sending = some i) (hpos : 0 < count)
      (hle : count ≤ (s.pairs i).pending.length)
      (hroom : (s.pairs i).toServer.length < size.toServer) :
      Steps L P size s (.push count)
        { s.set i ((s.pairs i).push count) with
          sending := if count = (s.pairs i).pending.length then none else some i }
  | handle (i : Fin n) (recd : ℕ) (hsending : s.sending = none) (hopened : n ≤ s.opened)
      (hpos : 0 < recd) (hle : recd ≤ P.val) (hlen : recd ≤ (s.pairs i).toClient.length) :
      Steps L P size s (.handle i recd)
        { s.set i ((s.pairs i).reads L P s.errCnt recd) with
          errCnt := ((s.pairs i).reads L P s.errCnt recd).client.errCnt
          sending := some i }
  | serve (i : Fin n) (k : Counts) (server : EchoLt.State) (data out : List UInt8)
      (hk : k.Honest (s.pairs i).toServer
        (decide ((s.pairs i).toClient.length < size.toClient)) (s.pairs i).server)
      (hserved : Served k (s.pairs i).toServer (s.pairs i).server server data out) :
      Steps L P size s (.serve i k) (s.set i ((s.pairs i).serves server data out))

/-- What holds in every state: of the connections, and of the thread of the client. -/
structure State.Inv (P : LoopSize) (s : State n) : Prop where
  pairs : ∀ i, (s.pairs i).Inv
  opened : s.opened ≤ n
  pending : ∀ i, (s.pairs i).pending ≠ [] ↔ s.sending = some i
  unopened : ∀ i : Fin n, s.opened ≤ i → (s.pairs i).flight = 0
  flight : ∀ i : Fin n, i < s.opened → P.val ≤ (s.pairs i).flight

namespace State

theorem steps_of_next {l : Label n} (hs : s.Inv P) (h : s.next L P size l = some t) :
    Steps L P size s l t := by
  cases l with
  | start =>
    rw [next, start] at h
    split at h
    · obtain ⟨hsending, h⟩ := Option.ite_none_right_eq_some.mp h
      obtain rfl := Option.some.inj h
      exact .start ⟨s.opened, ‹_›⟩ rfl hsending
    · exact absurd h (by simp)
  | push count =>
    rw [next, push] at h
    split at h
    · exact absurd h (by simp)
    · rename_i i hsending
      obtain ⟨⟨hpos, hle, hroom⟩, h⟩ := Option.ite_none_right_eq_some.mp h
      obtain rfl := Option.some.inj h
      exact .push i count hsending hpos hle hroom
  | handle i recd =>
    rw [next, handle] at h
    obtain ⟨⟨hsending, hopened, hpos, hle, hlen⟩, h⟩ := Option.ite_none_right_eq_some.mp h
    rw [Pair.handle_eq hpos hle hlen] at h
    obtain rfl := Option.some.inj h
    exact .handle i recd hsending hopened hpos hle hlen
  | serve i k =>
    rw [next, serve] at h
    obtain ⟨hk, h⟩ := Option.ite_none_right_eq_some.mp h
    obtain ⟨server, data, out, heq, hserved⟩ := Pair.serve_eq (hs.pairs i).server hk
    rw [heq] at h
    obtain rfl := Option.some.inj h
    exact .serve i k server data out hk hserved

@[simp] theorem pairs_set_self (p : Pair) : (s.set i p).pairs i = p := Function.update_self ..

theorem pairs_set_of_ne {j : Fin n} (hj : j ≠ i) (p : Pair) : (s.set i p).pairs j = s.pairs j :=
  Function.update_of_ne hj ..

/-- A connection is changed, and the rest stays. -/
theorem forall_set {Q : Fin n → Pair → Prop} (hi : Q i p) (hrest : ∀ j, j ≠ i → Q j (s.pairs j)) :
    ∀ j, Q j ((s.set i p).pairs j) := by
  intro j
  by_cases hj : j = i
  · rw [hj, pairs_set_self]
    exact hi
  · rw [pairs_set_of_ne hj]
    exact hrest j hj

theorem inv_initial (mem : Fin n → ℕ → UInt8) (e : BitVec 64) : (initial mem e).Inv P where
  pairs i := ⟨sound_fresh (mem i), rfl, rfl⟩
  opened := Nat.zero_le n
  pending i := by simp [initial]
  unopened i _ := by simp [initial, Pair.flight, EchoLt.State.fresh]
  flight i hi := absurd hi (Nat.not_lt_zero _)

theorem packet_ne_nil (c : Connection) : L.numbers c.txSeq P.words ≠ [] := by
  apply List.ne_nil_of_length_pos
  rw [Pair.length_packet]
  exact P.pos

/-- Nothing is left of a packet while no `send_full` is running. -/
theorem Inv.pending_eq (h : s.Inv P) (hsending : s.sending = none) (i : Fin n) :
    (s.pairs i).pending = [] := by
  by_contra hne
  exact absurd ((h.pending i).mp hne) (by simp [hsending])

/-- A packet is begun while no `send_full` is running. -/
theorem Inv.pending_set (h : s.Inv P) (hsending : s.sending = none) (hq : q.pending ≠ []) :
    ∀ j, ((s.set i q).pairs j).pending ≠ [] ↔ some i = some j := by
  refine forall_set (Q := fun j p => p.pending ≠ [] ↔ some i = some j)
    (iff_of_true hq rfl) fun j hj => iff_of_false ?_ ?_
  · rw [h.pending_eq hsending j]
    simp
  · exact fun heq => hj (Option.some.inj heq).symm

/-- What is under way on a connection stays as much. -/
theorem Inv.flight_set (h : s.Inv P) (hq : q.flight = (s.pairs i).flight) :
    (∀ j : Fin n, s.opened ≤ j → ((s.set i q).pairs j).flight = 0) ∧
      ∀ j : Fin n, j < s.opened → P.val ≤ ((s.set i q).pairs j).flight := by
  have hsame : ∀ j, ((s.set i q).pairs j).flight = (s.pairs j).flight :=
    forall_set (Q := fun j p => p.flight = (s.pairs j).flight) hq fun _ _ => rfl
  refine ⟨fun j hj => ?_, fun j hj => ?_⟩
  · rw [hsame]
    exact h.unopened j hj
  · rw [hsame]
    exact h.flight j hj

theorem Inv.step {l : Label n} (h : s.Inv P) (ht : Steps L P size s l t) : t.Inv P := by
  cases ht with
  | start i hopened hsending =>
    have hpending := h.pending_eq hsending i
    have hflight := Pair.flight_send (L := L) (P := P) hpending
    refine ⟨forall_set (Q := fun _ p => p.Inv) ((h.pairs i).send hpending) fun j _ => h.pairs j,
      ?_, h.pending_set hsending (packet_ne_nil _), ?_, ?_⟩
    · have hlt := i.isLt
      show s.opened + 1 ≤ n
      omega
    · refine forall_set (Q := fun j p => s.opened + 1 ≤ j.val → p.flight = 0) ?_ ?_
      · intro hle
        omega
      · exact fun j _ hle => h.unopened j (by omega)
    · refine forall_set (Q := fun j p => j.val < s.opened + 1 → P.val ≤ p.flight) ?_ ?_
      · intro _
        omega
      · intro j hj hlt
        have hne : j.val ≠ i.val := fun heq => hj (Fin.ext heq)
        exact h.flight j (by omega)
  | push i count hsending hpos hle hroom =>
    obtain ⟨hunopened, hflight⟩ := h.flight_set (Pair.flight_push hle)
    refine ⟨forall_set (Q := fun _ p => p.Inv) ((h.pairs i).push count) fun j _ => h.pairs j,
      h.opened, ?_, hunopened, hflight⟩
    refine forall_set (Q := fun j p => p.pending ≠ [] ↔
      (if count = (s.pairs i).pending.length then none else some i) = some j) ?_ fun j hj => ?_
    · show (s.pairs i).pending.drop count ≠ [] ↔ _
      rw [Ne, List.drop_eq_nil_iff]
      split
      · exact iff_of_false (by omega) (by simp)
      · exact iff_of_true (by omega) rfl
    · have hidle : (s.pairs j).pending = [] := by
        by_contra hne
        have hsame := (h.pending j).mp hne
        rw [hsending] at hsame
        exact hj (Option.some.inj hsame).symm
      refine iff_of_false (not_not.mpr hidle) ?_
      split
      · simp
      · exact fun heq => hj (Option.some.inj heq).symm
  | handle i recd hsending hopened hpos hle hlen =>
    have hpending := h.pending_eq hsending i
    have hflight := Pair.flight_reads (L := L) (P := P) (e := s.errCnt) hpending hlen
    have hlt := i.isLt
    refine ⟨forall_set (Q := fun _ p => p.Inv) ((h.pairs i).reads hpending recd)
      fun j _ => h.pairs j, h.opened, h.pending_set hsending (packet_ne_nil _), ?_, ?_⟩
    · refine forall_set (Q := fun j p => s.opened ≤ j.val → p.flight = 0) ?_
        fun j _ => h.unopened j
      intro hunopened
      omega
    · refine forall_set (Q := fun j p => j.val < s.opened → P.val ≤ p.flight) ?_
        fun j _ => h.flight j
      intro hi
      have hbefore := h.flight i hi
      omega
  | serve i k server data out hk hserved =>
    obtain ⟨hunopened, hflight⟩ := h.flight_set (Pair.flight_serves (h.pairs i) hserved)
    exact ⟨forall_set (Q := fun _ p => p.Inv) ((h.pairs i).serves hserved) fun j _ => h.pairs j,
      h.opened, forall_set (Q := fun j p => p.pending ≠ [] ↔ s.sending = some j) (h.pending i)
        fun j _ => h.pending j, hunopened, hflight⟩

end State

theorem inv_of_reachable (h : (system L P size n).Reachable s) : s.Inv P := by
  refine h.invariant ?_ fun s l t _ hs ht => hs.step (State.steps_of_next hs ht)
  rintro _ ⟨mem, e, rfl⟩
  exact State.inv_initial mem e

theorem inv_run {mem : Fin n → ℕ → UInt8} {ls : List (Label n)}
    (h : (system L P size n).Run (initial mem e) ls s) : s.Inv P :=
  inv_of_reachable ⟨_, ls, ⟨mem, e, rfl⟩, h⟩

/-! ### Reads of whole packets -/

/-- The client of a connection has read `m` whole packets, and sent `o` packets more. -/
structure Pair.InStep (L : Layout) (P : LoopSize) (o m : ℕ) (p : Pair) : Prop where
  numbered : Numbered L P (m + o) p.client
  checked : Checked L P m 0 p.client

namespace Pair.InStep

variable {o m : ℕ}

theorem send (h : p.InStep L P 0 m) : (p.send L P).InStep L P 1 m where
  numbered := h.numbered.send (by simp [Whole])
  checked := ⟨h.checked.length, h.checked.rxSeq, h.checked.reported⟩

theorem reads (h : p.InStep L P 1 m) (hlen : P.val ≤ p.toClient.length) :
    (p.reads L P e P.val).InStep L P 1 (m + 1) := by
  have hnumbered : Numbered L P (m + 1) { p.client with errCnt := e } :=
    ⟨h.numbered.txSeq, h.numbered.sent⟩
  have hchecked : Checked L P m 0 { p.client with errCnt := e } :=
    ⟨h.checked.length, h.checked.rxSeq, h.checked.reported⟩
  have hdata : (p.toClient.take P.val).length = P.val := List.length_take_of_le hlen
  have hwhole := hchecked.whole hdata
  exact ⟨hnumbered.accept.send (by simp [Whole]), hwhole.length, hwhole.rxSeq, hwhole.reported⟩

/-- What is under way are the packets that have not come back. -/
theorem flight (h : p.InStep L P o m) (hp : p.Inv) : p.flight = o * P.val := by
  have hflight := hp.flight
  have hsent := congrArg List.length h.numbered.sent
  have hreceived := h.checked.length
  have hval := P.val_eq
  rw [Layout.length_numbers, Nat.add_mul] at hsent
  have hpackets : o * P.val = 8 * (o * P.words) := by
    rw [hval]
    exact Nat.mul_left_comm ..
  omega

theorem not_reported (h : p.InStep L P o m) (hp : p.Inv) : p.client.reported = [] :=
  h.checked.reported_of_prefix h.numbered hp.echo

end Pair.InStep

/-- Whether the first packet of a connection has been sent. -/
def State.packets (s : State n) (i : Fin n) : ℕ := if i.val < s.opened then 1 else 0

/-- A step that leaves the client of a connection alone leaves it in step. -/
theorem Pair.InStep.set {o m : ℕ} {j : Fin n} (h : (s.pairs i).InStep L P o m)
    (hq : q.client = (s.pairs j).client) : ((s.set j q).pairs i).InStep L P o m := by
  have hsame : ∀ i, ((s.set j q).pairs i).client = (s.pairs i).client :=
    State.forall_set (Q := fun i p => p.client = (s.pairs i).client) hq fun _ _ => rfl
  refine ⟨?_, ?_⟩
  · rw [hsame]
    exact h.numbered
  · rw [hsame]
    exact h.checked

/-- **The run of a connection**: its client stays in step while its reads return whole packets. -/
theorem inStep_run {mem : Fin n → ℕ → UInt8} {ls : List (Label n)}
    (h : (system L P size n).Run (initial mem e) ls s) (i : Fin n)
    (hwhole : ∀ recd, .handle i recd ∈ ls → recd = P.val) :
    ∃ m, (s.pairs i).InStep L P (s.packets i) m := by
  induction h with
  | nil =>
    have hnone : State.packets (initial mem e) i = 0 := if_neg (Nat.not_lt_zero _)
    rw [hnone]
    exact ⟨0, ⟨by simp [initial], by simp [initial, Layout.numbers]⟩,
      by simp [initial], by simp [initial], by simp [initial]⟩
  | @snoc s t ls l hrun ht ih =>
    obtain ⟨m, hm⟩ := ih fun recd hmem => hwhole recd (List.mem_append_left _ hmem)
    have hinv := inv_run hrun
    cases State.steps_of_next hinv ht with
    | start j hopened hsending =>
      by_cases hij : i = j
      · subst hij
        have hnone : s.packets i = 0 := if_neg (by omega)
        have hone : State.packets { s.set i ((s.pairs i).send L P) with
            opened := s.opened + 1, sending := some i } i = 1 := if_pos (by simp [hopened])
        rw [hnone] at hm
        rw [hone]
        exact ⟨m, by simpa using hm.send⟩
      · have hne : i.val ≠ s.opened := fun heq => hij (Fin.ext (heq.trans hopened.symm))
        have hsame : State.packets { s.set j ((s.pairs j).send L P) with
            opened := s.opened + 1, sending := some j } i = s.packets i :=
          if_congr (by show i.val < s.opened + 1 ↔ _; omega) rfl rfl
        rw [hsame]
        refine ⟨m, ?_⟩
        show ((s.set j _).pairs i).InStep L P _ m
        rwa [State.pairs_set_of_ne hij]
    | push j count hsending hpos hle hroom =>
      exact ⟨m, hm.set (q := (s.pairs j).push count) rfl⟩
    | handle j recd hsending hopened hpos hle hlen =>
      show ∃ m, ((s.set j _).pairs i).InStep L P (s.packets i) m
      by_cases hij : i = j
      · subst hij
        obtain rfl := hwhole recd (by simp)
        have hone : s.packets i = 1 := if_pos (i.isLt.trans_le hopened)
        rw [hone] at hm ⊢
        rw [State.pairs_set_self]
        exact ⟨m + 1, hm.reads hlen⟩
      · rw [State.pairs_set_of_ne hij]
        exact ⟨m, hm⟩
    | serve j k server data out hk hserved =>
      exact ⟨m, hm.set (q := (s.pairs j).serves server data out) rfl⟩

/-! ### What is reported -/

theorem counted_accept {c : Connection} {b : BitVec 64} {data : List UInt8} (h : Counted b c) :
    Counted b (c.accept L P data) := by
  rw [Connection.accept]
  split
  · exact Counted.compareWords h
  · exact h

def State.reports (s : State n) : ℕ := ∑ i, (s.pairs i).client.reported.length

/-- The counter that the connections share counts what they report. -/
theorem errCnt_run {mem : Fin n → ℕ → UInt8} {ls : List (Label n)}
    (h : (system L P size n).Run (initial mem e) ls s) :
    s.errCnt = e + BitVec.ofNat 64 s.reports := by
  induction h with
  | nil => simp [initial, State.reports]
  | @snoc s t ls l hrun ht ih =>
    have hsame : ∀ (i : Fin n) (p : Pair), p.client.reported = (s.pairs i).client.reported →
        (s.set i p).reports = s.reports := by
      intro i p hp
      refine Finset.sum_congr rfl fun j _ => ?_
      exact congrArg List.length (State.forall_set
        (Q := fun j p => p.client.reported = (s.pairs j).client.reported) hp (fun j _ => rfl) j)
    cases State.steps_of_next (inv_run hrun) ht with
    | start i hopened hsending =>
      show s.errCnt = e + BitVec.ofNat 64 (s.set i ((s.pairs i).send L P)).reports
      rw [hsame i ((s.pairs i).send L P) rfl, ih]
    | push i count hsending hpos hle hroom =>
      show s.errCnt = e + BitVec.ofNat 64 (s.set i ((s.pairs i).push count)).reports
      rw [hsame i ((s.pairs i).push count) rfl, ih]
    | serve i k server data out hk hserved =>
      show s.errCnt = e + BitVec.ofNat 64 (s.set i ((s.pairs i).serves server data out)).reports
      rw [hsame i ((s.pairs i).serves server data out) rfl, ih]
    | handle i recd hsending hopened hpos hle hlen =>
      have hcounted : Counted (s.errCnt - BitVec.ofNat 64 (s.pairs i).client.reported.length)
          ((s.pairs i).reads L P s.errCnt recd).client :=
        counted_accept (BitVec.sub_add_cancel ..).symm
      have hsum := sum_update (fun p : Pair => p.client.reported.length) s.pairs i
        ((s.pairs i).reads L P s.errCnt recd)
      show ((s.pairs i).reads L P s.errCnt recd).client.errCnt = e +
        BitVec.ofNat 64 (∑ j, (Function.update s.pairs i _ j).client.reported.length)
      rw [hcounted]
      have hbits := congrArg (BitVec.ofNat 64) hsum
      rw [BitVec.ofNat_add, BitVec.ofNat_add] at hbits
      have hmove : ∀ x a b c d : BitVec 64, x = e + c → a + b = c + d → x - b + d = e + a := by
        grind
      exact hmove _ _ _ _ _ ih hbits

/-- A call of a server finds its answers. -/
theorem next_serve (hs : s.Inv P) (hk : k.Honest (s.pairs i).toServer
    (decide ((s.pairs i).toClient.length < size.toClient)) (s.pairs i).server) :
    ∃ t, s.next L P size (.serve i k) = some t := by
  obtain ⟨server, data, out, heq, -⟩ := Pair.serve_eq (hs.pairs i).server hk
  refine ⟨s.set i ((s.pairs i).serves server data out), ?_⟩
  rw [State.next, State.serve, if_pos hk, heq]
  rfl

/-- **The echo is verified.**  In every run of the client against the echo server, with any number
of connections and the streams cut anywhere: what a client has received is the beginning of what
it sent; `err_cnt` counts what is reported on all connections, from the value that its memory
held; a client whose reads were whole packets has reported nothing; and no call of a server's
`handle` fails, so that no connection is closed. -/
theorem echo_verified {mem : Fin n → ℕ → UInt8} {ls : List (Label n)}
    (h : (system L P size n).Run (initial mem e) ls s) :
    (∀ i, (s.pairs i).client.received <+: (s.pairs i).client.sent) ∧
      s.errCnt = e + BitVec.ofNat 64 (∑ i, (s.pairs i).client.reported.length) ∧
      (∀ i, (∀ recd, .handle i recd ∈ ls → recd = P.val) →
        (s.pairs i).client.reported = []) ∧
      ∀ i k, k.Honest (s.pairs i).toServer
        (decide ((s.pairs i).toClient.length < size.toClient)) (s.pairs i).server →
        ∃ t, (system L P size n).step s (.serve i k) t := by
  have hinv := inv_run h
  refine ⟨fun i => (hinv.pairs i).echo, errCnt_run h, fun i hwhole => ?_,
    fun i k hk => next_serve hinv hk⟩
  obtain ⟨m, hm⟩ := inStep_run h i hwhole
  exact hm.not_reported (hinv.pairs i)

/-- One word is sent, comes back, and is followed by the next. -/
def echoing : List (Label 1) :=
  [.start, .push 8, .serve 0 ⟨true, false, 0, 8, 8⟩, .handle 0 8, .push 3]

def oneWord : LoopSize := ⟨⟨8, by decide, by decide⟩, by decide⟩

def echoed : State 1 :=
  (echoing.foldlM (State.next Layout.littleEndian oneWord ⟨64, 64⟩)
    (initial (fun _ _ => 0) 0)).getD (initial (fun _ _ => 0) 0)

theorem run_echoed : (system Layout.littleEndian oneWord ⟨64, 64⟩ 1).Run
    (initial (fun _ _ => 0) 0) echoing echoed :=
  System.run_ofStep (by rfl)

theorem echo_verified_echoed : (echoed.pairs 0).client.reported = [] :=
  (echo_verified run_echoed).2.2.1 0 (by simp [echoing, oneWord])

/-! ### The work that is left between two reads -/

/-- A byte of the packet has three steps to make at most: to the server, into its ring, and back. -/
def Pair.weight (p : Pair) : ℕ :=
  3 * p.pending.length + 2 * p.toServer.length + p.server.buf.used

namespace Pair

theorem weight_send (hpending : p.pending = []) :
    (p.send L P).weight = p.weight + 3 * P.val := by
  have hpacket : (L.numbers p.client.txSeq P.words).length = P.val := length_packet p.client
  simp only [weight, send, hpacket, hpending, List.length_nil]
  omega

theorem weight_push (hcount : count ≤ p.pending.length) :
    (p.push count).weight + count = p.weight := by
  simp only [weight, push, List.length_drop, List.length_append, List.length_take]
  omega

theorem weight_reads (recd : ℕ) (hpending : p.pending = []) :
    (p.reads L P e recd).weight = p.weight + 3 * P.val := by
  have hpacket : (L.numbers p.client.txSeq P.words).length = P.val := length_packet p.client
  simp only [weight, reads, hpacket, hpending, List.length_nil]
  omega

theorem weight_serves (h : p.Inv) {server : EchoLt.State} {data out : List UInt8}
    (hserved : Served k p.toServer p.server server data out) :
    (p.serves server data out).weight < p.weight := by
  have hbefore := h.server.inv.used
  have hafter := hserved.sound.inv.used
  have hdata := hserved.stream.length_le
  have hmoved : 0 < data.length + out.length := by
    rcases hserved.moved with hne | hne
    · exact Nat.add_pos_left (List.length_pos_iff.mpr hne) _
    · exact Nat.add_pos_right _ (List.length_pos_iff.mpr hne)
  rw [hserved.received, hserved.sent, List.length_append, List.length_append] at hafter
  simp only [weight, serves, List.length_drop]
  omega

theorem weight_le_flight (p : Pair) : p.weight ≤ 3 * p.flight := by
  rw [weight, flight]
  omega

end Pair

/-- The weight of a connection, with that of its first packet as long as this is not sent. -/
def State.weight (P : LoopSize) (s : State n) (i : Fin n) : ℕ :=
  (s.pairs i).weight + if i.val < s.opened then 0 else 3 * P.val + 1

def State.work (P : LoopSize) (s : State n) : ℕ := ∑ i, s.weight P i

theorem work_of_pairs {q : Pair} (hpairs : t.pairs = Function.update s.pairs i q)
    (hopened : t.opened = s.opened) :
    t.work P + (s.pairs i).weight = s.work P + q.weight := by
  have hsum := sum_update Pair.weight s.pairs i q
  simp only [State.work, State.weight, Finset.sum_add_distrib, hpairs, hopened]
  omega

/-- Every step but a read uses up some of the work, and a read adds that of a packet. -/
theorem Steps.work {l : Label n} (hs : s.Inv P) (ht : Steps L P size s l t) :
    t.work P < s.work P ∨
      ∃ i recd, l = .handle i recd ∧ t.work P = s.work P + 3 * P.val := by
  cases ht with
  | start i hopened hsending =>
    have hweight := Pair.weight_send (L := L) (P := P) (hs.pending_eq hsending i)
    have hsum := sum_add_eq (s.weight P) (State.weight P { s.set i ((s.pairs i).send L P) with
      opened := s.opened + 1, sending := some i }) i fun j hj => by
        have hne : j.val ≠ s.opened := fun heq => hj (Fin.ext (heq.trans hopened.symm))
        have hsame : j.val < s.opened + 1 ↔ j.val < s.opened := by omega
        show ((s.set i _).pairs j).weight + (if j.val < s.opened + 1 then 0 else _) = _
        rw [State.pairs_set_of_ne hj, if_congr hsame rfl rfl, State.weight]
    left
    have hbefore : s.weight P i = (s.pairs i).weight + (3 * P.val + 1) := by
      rw [State.weight, if_neg (by omega)]
    have hafter : State.weight P { s.set i ((s.pairs i).send L P) with
        opened := s.opened + 1, sending := some i } i = ((s.pairs i).send L P).weight := by
      show ((s.set i _).pairs i).weight + (if i.val < s.opened + 1 then 0 else _) = _
      rw [State.pairs_set_self, if_pos (by omega), Nat.add_zero]
    rw [State.work, State.work]
    omega
  | push i count hsending hpos hle hroom =>
    have hweight := Pair.weight_push hle
    have hwork := work_of_pairs (P := P) (s := s) (t := { s.set i ((s.pairs i).push count) with
      sending := if count = (s.pairs i).pending.length then none else some i }) rfl rfl
    left
    omega
  | handle i recd hsending hopened hpos hle hlen =>
    have hweight := Pair.weight_reads (L := L) (P := P) (e := s.errCnt) recd
      (hs.pending_eq hsending i)
    have hwork := work_of_pairs (P := P) (s := s)
      (t := { s.set i ((s.pairs i).reads L P s.errCnt recd) with
        errCnt := ((s.pairs i).reads L P s.errCnt recd).client.errCnt
        sending := some i }) rfl rfl
    exact Or.inr ⟨i, recd, rfl, by omega⟩
  | serve i k server data out hk hserved =>
    have hweight := Pair.weight_serves (hs.pairs i) hserved
    have hwork := work_of_pairs (P := P) (s := s)
      (t := s.set i ((s.pairs i).serves server data out)) rfl rfl
    left
    omega

/-- **Runs without a read** are no longer than the work that is left. -/
theorem run_work {ms : List (Label n)} (h : (system L P size n).Run s ms t) (hs : s.Inv P)
    (hno : ∀ i recd, .handle i recd ∉ ms) : t.Inv P ∧ t.work P + ms.length ≤ s.work P := by
  induction h with
  | nil => exact ⟨hs, Nat.le_refl _⟩
  | @snoc u t ms l _ ht ih =>
    obtain ⟨hu, hle⟩ := ih fun i recd hmem => hno i recd (List.mem_append_left _ hmem)
    have hstep := State.steps_of_next hu ht
    refine ⟨hu.step hstep, ?_⟩
    rw [List.length_append, List.length_singleton]
    rcases hstep.work hu with hlt | ⟨i, recd, rfl, -⟩
    · omega
    · exact absurd (List.mem_append_right ms (List.mem_singleton_self _)) (hno i recd)

/-! ### Where nothing can move -/

/-- The steps that move no more than they must. -/
def Careful : Label n → Prop
  | .start => True
  | .push count => count = 1
  | .handle _ recd => recd = 1
  | .serve _ k => k = .readOne ∨ k = .sendOne

/-- The client waits in `send_full` of the connection `i` for a server that waits for the client. -/
structure Hung (size : Sizes) (s : State n) (i : Fin n) : Prop where
  sending : s.sending = some i
  pending : (s.pairs i).pending ≠ []
  toServer : size.toServer ≤ (s.pairs i).toServer.length
  ring : (s.pairs i).server.buf.used = maxPktSize - 1
  toClient : size.toClient ≤ (s.pairs i).toClient.length

/-- Some careful step can be made. -/
def Free (L : Layout) (P : LoopSize) (size : Sizes) (s : State n) : Prop :=
  ∃ l, Careful l ∧ (s.next L P size l).isSome

theorem free_push (hsending : s.sending = some i) (hpending : (s.pairs i).pending ≠ [])
    (hroom : (s.pairs i).toServer.length < size.toServer) : Free L P size s := by
  have hlen := List.length_pos_iff.mpr hpending
  refine ⟨.push 1, rfl, ?_⟩
  rw [State.next, State.push, hsending]
  dsimp only
  rw [if_pos ⟨Nat.one_pos, hlen, hroom⟩]
  rfl

theorem free_handle (hsending : s.sending = none) (hopened : n ≤ s.opened)
    (hstream : (s.pairs i).toClient ≠ []) : Free L P size s := by
  have hlen := List.length_pos_iff.mpr hstream
  refine ⟨.handle i 1, rfl, ?_⟩
  rw [State.next, State.handle, if_pos ⟨hsending, hopened, Nat.one_pos, P.pos, hlen⟩,
    Pair.handle_eq Nat.one_pos P.pos hlen]
  rfl

theorem free_read (hs : s.Inv P) (hstream : (s.pairs i).toServer ≠ [])
    (hroom : (s.pairs i).server.buf.used < maxPktSize - 1) : Free L P size s := by
  have hk : Counts.readOne.Honest (s.pairs i).toServer
      (decide ((s.pairs i).toClient.length < size.toClient)) (s.pairs i).server :=
    honest_readOne (hs.pairs i).server hstream hroom
  obtain ⟨t, ht⟩ := next_serve (L := L) hs hk
  exact ⟨.serve i .readOne, Or.inl rfl, by rw [ht]; rfl⟩

theorem free_send (hs : s.Inv P) (hused : 0 < (s.pairs i).server.buf.used)
    (hroom : (s.pairs i).toClient.length < size.toClient) : Free L P size s := by
  have hk : Counts.sendOne.Honest (s.pairs i).toServer
      (decide ((s.pairs i).toClient.length < size.toClient)) (s.pairs i).server := by
    rw [decide_eq_true hroom]
    exact honest_sendOne (hs.pairs i).server hused
  obtain ⟨t, ht⟩ := next_serve (L := L) hs hk
  exact ⟨.serve i .sendOne, Or.inr rfl, by rw [ht]; rfl⟩

/-- **The only way to get stuck**: everything between the client and the server is full. -/
theorem free_or_hung (hn : 0 < n) (hserver : 0 < size.toServer) (hclient : 0 < size.toClient)
    (hs : s.Inv P) : Free L P size s ∨ ∃ i, Hung size s i := by
  cases hsending : s.sending with
  | none =>
    left
    by_cases hopened : s.opened < n
    · refine ⟨.start, trivial, ?_⟩
      rw [State.next, State.start, dif_pos hopened, if_pos hsending]
      rfl
    · have hflight := hs.flight ⟨0, hn⟩ (by omega)
      have hpending := hs.pending_eq hsending ⟨0, hn⟩
      have hpos := P.pos
      by_cases hback : (s.pairs ⟨0, hn⟩).toClient = []
      · by_cases hused : 0 < (s.pairs ⟨0, hn⟩).server.buf.used
        · refine free_send hs hused ?_
          rwa [hback]
        · refine free_read (i := ⟨0, hn⟩) hs ?_ ?_
          · intro hnone
            rw [Pair.flight, hpending, hback, hnone, List.length_nil] at hflight
            omega
          · have hmax : 0 < maxPktSize - 1 := by decide
            omega
      · exact free_handle hsending (by omega) hback
  | some i =>
    have hpending := (hs.pending i).mpr hsending
    by_cases hpush : (s.pairs i).toServer.length < size.toServer
    · exact Or.inl (free_push hsending hpending hpush)
    · by_cases hread : (s.pairs i).server.buf.used < maxPktSize - 1
      · refine Or.inl (free_read hs (List.ne_nil_of_length_pos ?_) hread)
        omega
      · have hok : (s.pairs i).server.buf.used ≤ maxPktSize - 1 := (hs.pairs i).server.inv.ok
        have hmax : 0 < maxPktSize - 1 := by decide
        by_cases hsend : (s.pairs i).toClient.length < size.toClient
        · exact Or.inl (free_send hs (by omega) hsend)
        · exact Or.inr ⟨i, hsending, hpending, by omega, by omega, by omega⟩

/-- **No deadlock while every read returns a whole packet**, whatever the streams take: there is
always a step, and after at most `3 * P.val + 1` steps for each connection the client reads
again. -/
theorem echo_progress {mem : Fin n → ℕ → UInt8} {ls : List (Label n)} (hn : 0 < n)
    (hserver : 0 < size.toServer) (hclient : 0 < size.toClient)
    (h : (system L P size n).Run (initial mem e) ls s)
    (hwhole : ∀ i recd, .handle i recd ∈ ls → recd = P.val) :
    ¬ (system L P size n).Stuck s ∧
      ∀ ms t, (system L P size n).Run s ms t → (∀ i recd, .handle i recd ∉ ms) →
        ms.length ≤ n * (3 * P.val + 1) := by
  have hinv := inv_run h
  have hflight : ∀ i, (s.pairs i).flight = s.packets i * P.val := by
    intro i
    obtain ⟨m, hm⟩ := inStep_run h i (hwhole i)
    exact hm.flight (hinv.pairs i)
  constructor
  · intro hstuck
    rcases free_or_hung (L := L) hn hserver hclient hinv with ⟨l, -, hl⟩ | ⟨i, hung⟩
    · obtain ⟨t, ht⟩ := Option.isSome_iff_exists.mp hl
      exact hstuck l t ht
    · have hpending := List.length_pos_iff.mpr hung.pending
      have hring := hung.ring
      have hle : s.packets i * P.val ≤ 1 * P.val := by
        refine Nat.mul_le_mul_right _ ?_
        rw [State.packets]
        split <;> omega
      have hpackets := hflight i
      rw [Pair.flight] at hpackets
      -- the ring of the server holds more than the packet that is under way
      have hsize : P.val ≤ 1024 := P.le
      have hmax : maxPktSize = 4096 := rfl
      omega
  · intro ms t hrun hno
    have hwork : s.work P ≤ n * (3 * P.val + 1) := by
      have hsum := Finset.sum_le_card_nsmul Finset.univ (s.weight P) (3 * P.val + 1) fun i _ => by
        have hweight := (s.pairs i).weight_le_flight
        rw [hflight i, State.packets] at hweight
        rw [State.weight]
        split at hweight <;> simp only [*, if_true, if_false] <;> omega
      rwa [Finset.card_univ, Fintype.card_fin, Nat.nsmul_eq_mul] at hsum
    have hlen := (run_work hrun hinv hno).2
    omega

theorem echo_progress_echoed :
    ¬ (system Layout.littleEndian oneWord ⟨64, 64⟩ 1).Stuck echoed ∧
      ∀ ms t, (system Layout.littleEndian oneWord ⟨64, 64⟩ 1).Run echoed ms t →
        (∀ i recd, .handle i recd ∉ ms) → ms.length ≤ 1 * (3 * oneWord.val + 1) :=
  echo_progress (by decide) (by decide) (by decide) run_echoed
    (by simp [echoing, oneWord])

/-! ### The client hangs -/

/-- On careful steps no stream takes more than it must. -/
structure Pair.Bounded (P : LoopSize) (size : Sizes) (p : Pair) : Prop where
  pending : p.pending.length ≤ P.val
  toServer : p.toServer.length ≤ size.toServer
  toClient : p.toClient.length ≤ size.toClient

def capacity (P : LoopSize) (size : Sizes) : ℕ :=
  P.val + size.toServer + (maxPktSize - 1) + size.toClient

theorem Pair.Bounded.flight_le (h : p.Bounded P size) (hp : p.Inv) :
    p.flight ≤ capacity P size := by
  have hok : p.server.buf.used ≤ maxPktSize - 1 := hp.server.inv.ok
  have hpending := h.pending
  have hserver := h.toServer
  have hclient := h.toClient
  rw [Pair.flight, capacity]
  omega

theorem Steps.bounded {l : Label n} (hl : Careful l) (hs : ∀ i, (s.pairs i).Bounded P size)
    (ht : Steps L P size s l t) : ∀ i, (t.pairs i).Bounded P size := by
  cases ht with
  | start i hopened hsending =>
    refine State.forall_set (Q := fun _ p => p.Bounded P size) ?_ fun j _ => hs j
    exact ⟨(Pair.length_packet _).le, (hs i).toServer, (hs i).toClient⟩
  | push i count hsending hpos hle hroom =>
    refine State.forall_set (Q := fun _ p => p.Bounded P size) ⟨?_, ?_, (hs i).toClient⟩
      fun j _ => hs j
    · have hpending := (hs i).pending
      show ((s.pairs i).pending.drop count).length ≤ P.val
      rw [List.length_drop]
      omega
    · obtain rfl : count = 1 := hl
      show ((s.pairs i).toServer ++ (s.pairs i).pending.take 1).length ≤ size.toServer
      rw [List.length_append, List.length_take]
      omega
  | handle i recd hsending hopened hpos hle hlen =>
    refine State.forall_set (Q := fun _ p => p.Bounded P size)
      ⟨(Pair.length_packet _).le, (hs i).toServer, ?_⟩ fun j _ => hs j
    have hclient := (hs i).toClient
    show ((s.pairs i).toClient.drop recd).length ≤ size.toClient
    rw [List.length_drop]
    omega
  | serve i k server data out hk hserved =>
    refine State.forall_set (Q := fun _ p => p.Bounded P size) ⟨(hs i).pending, ?_, ?_⟩
      fun j _ => hs j
    · have hserver := (hs i).toServer
      show ((s.pairs i).toServer.drop data.length).length ≤ size.toServer
      rw [List.length_drop]
      omega
    · have hclient := (hs i).toClient
      have hfew := hserved.few
      show ((s.pairs i).toClient ++ out).length ≤ size.toClient
      rw [List.length_append]
      rcases hl with rfl | rfl
      · have hnone : out.length ≤ 0 := hfew
        omega
      · have hone : out.length ≤ 1 := hfew
        have hroom := of_decide_eq_true (hk.out rfl).1
        omega

def State.flights (s : State n) : ℕ := ∑ i, (s.pairs i).flight

theorem flights_of_pairs {q : Pair} (hpairs : t.pairs = Function.update s.pairs i q) :
    t.flights + (s.pairs i).flight = s.flights + q.flight := by
  have hsum := sum_update Pair.flight s.pairs i q
  simp only [State.flights, hpairs]
  omega

/-- A careful read leaves more under way than there was before, and no step leaves less. -/
theorem Steps.flights {l : Label n} (hl : Careful l) (hs : s.Inv P)
    (ht : Steps L P size s l t) :
    s.flights ≤ t.flights ∧ ∀ i recd, l = .handle i recd → s.flights < t.flights := by
  cases ht with
  | start i hopened hsending =>
    have hflight := Pair.flight_send (L := L) (P := P) (hs.pending_eq hsending i)
    have hsum := flights_of_pairs (s := s) (t := { s.set i ((s.pairs i).send L P) with
      opened := s.opened + 1, sending := some i }) rfl
    exact ⟨by omega, fun _ _ heq => absurd heq (by simp)⟩
  | push i count hsending hpos hle hroom =>
    have hflight := Pair.flight_push hle
    have hsum := flights_of_pairs (s := s) (t := { s.set i ((s.pairs i).push count) with
      sending := if count = (s.pairs i).pending.length then none else some i }) rfl
    exact ⟨by omega, fun _ _ heq => absurd heq (by simp)⟩
  | handle i recd hsending hopened hpos hle hlen =>
    obtain rfl : recd = 1 := hl
    have hflight := Pair.flight_reads (L := L) (P := P) (e := s.errCnt)
      (hs.pending_eq hsending i) hlen
    have hsum := flights_of_pairs (s := s) (t := { s.set i ((s.pairs i).reads L P s.errCnt 1) with
      errCnt := ((s.pairs i).reads L P s.errCnt 1).client.errCnt
      sending := some i }) rfl
    have hval := P.val_eq
    have hwords := P.words_pos
    exact ⟨by omega, fun _ _ _ => by omega⟩
  | serve i k server data out hk hserved =>
    have hflight := Pair.flight_serves (hs.pairs i) hserved
    have hsum := flights_of_pairs (s := s)
      (t := s.set i ((s.pairs i).serves server data out)) rfl
    exact ⟨by omega, fun _ _ heq => absurd heq (by simp)⟩

theorem flights_le (hs : s.Inv P) (hbounded : ∀ i, (s.pairs i).Bounded P size) :
    s.flights ≤ n * capacity P size := by
  have hsum := Finset.sum_le_card_nsmul Finset.univ (fun i => (s.pairs i).flight)
    (capacity P size) fun i _ => (hbounded i).flight_le (hs.pairs i)
  rwa [Finset.card_univ, Fintype.card_fin, Nat.nsmul_eq_mul] at hsum

/-- What careful steps use up: the room that is left for more packets, and the work between two
reads. -/
def State.left (P : LoopSize) (size : Sizes) (s : State n) : ℕ :=
  (n * capacity P size - s.flights) * (3 * P.val + 1) + s.work P

theorem left_lt {l : Label n} (hl : Careful l) (hs : s.Inv P)
    (hbounded : ∀ i, (s.pairs i).Bounded P size) (ht : Steps L P size s l t) :
    t.left P size < s.left P size := by
  obtain ⟨hmono, hread⟩ := ht.flights hl hs
  have hle := flights_le (hs.step ht) (ht.bounded hl hbounded)
  rw [State.left, State.left]
  rcases ht.work hs with hwork | ⟨i, recd, hhandle, hwork⟩
  · have hfactor : n * capacity P size - t.flights ≤ n * capacity P size - s.flights := by omega
    have hmul := Nat.mul_le_mul_right (3 * P.val + 1) hfactor
    omega
  · have hlt := hread i recd hhandle
    have hfactor : n * capacity P size - t.flights + 1 ≤ n * capacity P size - s.flights := by omega
    have hmul := Nat.mul_le_mul_right (3 * P.val + 1) hfactor
    rw [Nat.succ_mul] at hmul
    omega

/-- Where some step can be made, a careful one can. -/
theorem Steps.free {l : Label n} (hs : s.Inv P) (ht : Steps L P size s l t)
    (h : s.next L P size l = some t) : Free L P size s := by
  cases ht with
  | start i hopened hsending => exact ⟨.start, trivial, by rw [h]; rfl⟩
  | push i count hsending hpos hle hroom =>
    exact free_push hsending (List.ne_nil_of_length_pos (by omega)) hroom
  | handle i recd hsending hopened hpos hle hlen =>
    exact free_handle hsending hopened (List.ne_nil_of_length_pos (hpos.trans_le hlen))
  | serve i k server data out hk hserved =>
    have hsound := (hs.pairs i).server
    rcases armed_of_report hk.event with ⟨hseen, harm⟩ | ⟨hseen, harm⟩
    · rw [hsound.interest] at harm
      exact free_read hs (hk.inp hseen).1 (hsound.flow.inp.mp harm)
    · rw [hsound.interest] at harm
      exact free_send hs (hsound.flow.out.mp harm) (of_decide_eq_true (hk.out hseen).1)

/-- **The client can hang.**  However much the streams take, and for any number of connections,
there is a run behind which no step is left: the thread of the client waits in `send_full` for room
on the way to a server whose ring is full, and the server waits for the client to read what the way
back is full of. -/
theorem echo_hangs (L : Layout) (P : LoopSize) (size : Sizes) (hn : 0 < n)
    (hserver : 0 < size.toServer) (hclient : 0 < size.toClient) :
    ∃ s : State n, (system L P size n).Reachable s ∧ (system L P size n).Stuck s ∧
      ∃ i, Hung size s i := by
  let careful := (system L P size n).restrict fun _ l => Careful l
  have hinit : (initial (fun _ _ => 0) 0 : State n).Inv P ∧
      ∀ i, ((initial (fun _ _ => 0) 0 : State n).pairs i).Bounded P size :=
    ⟨State.inv_initial _ _, fun i => ⟨Nat.zero_le _, Nat.zero_le _, Nat.zero_le _⟩⟩
  obtain ⟨ls, s, hrun, hstuck⟩ := System.exists_stuck (M := careful)
    (P := fun s : State n => s.Inv P ∧ ∀ i, (s.pairs i).Bounded P size)
    (State.left P size) (fun s l t hs ht => by
      have hstep := State.steps_of_next hs.1 ht.1
      exact ⟨⟨hs.1.step hstep, hstep.bounded ht.2 hs.2⟩, left_lt ht.2 hs.1 hs.2 hstep⟩) hinit
  have hreach : (system L P size n).Reachable s :=
    ⟨_, ls, ⟨_, _, rfl⟩, System.Run.of_restrict hrun⟩
  have hinv := inv_of_reachable hreach
  have hnot : ¬ Free L P size s := by
    rintro ⟨l, hl, hnext⟩
    obtain ⟨t, ht⟩ := Option.isSome_iff_exists.mp hnext
    exact hstuck l t ⟨ht, hl⟩
  refine ⟨s, hreach, fun l t ht => ?_, ?_⟩
  · exact hnot ((State.steps_of_next hinv ht).free hinv ht)
  · rcases free_or_hung (L := L) hn hserver hclient hinv with hfree | hung
    · exact absurd hfree hnot
    · exact hung

theorem echo_hangs_one : ∃ s : State 1,
    (system Layout.littleEndian oneWord ⟨1, 1⟩ 1).Reachable s ∧
      (system Layout.littleEndian oneWord ⟨1, 1⟩ 1).Stuck s ∧ ∃ i, Hung ⟨1, 1⟩ s i :=
  echo_hangs Layout.littleEndian oneWord ⟨1, 1⟩ (by decide) (by decide) (by decide)

end CppProgramming.Socket.ClientServer
