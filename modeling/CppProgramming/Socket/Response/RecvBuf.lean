import CppProgramming.Socket.Response.Connection

/-!
# Two ways to receive into the ring

`recv_buf` and `recv_buf_native` of `tcp_echo/server_epollout_response.cpp`.  The first
hands all segments to one `recvmsg`; the second, which the server uses, calls `recv` for one
segment after the other and gives up with `-1` when one of them answers `0`.

An `Inbound` is what the socket has for the connection: the bytes that nobody has read yet
and whether the end of the stream is behind them.  It determines the answers of both.

As there are two segments at most, the second `recv` is made when the first one filled its
segment.  If the bytes ended right there, it finds nothing; and if the end of the stream is
there too, it answers `0`, and what the first `recv` has put into the ring is given up.
-/

namespace CppProgramming.Socket

open CppProgramming.Lib

/-- What is left to read on a socket. -/
structure Inbound where
  unread : List UInt8
  eof : Bool

/-- As many bytes as fit, and without any `0` at the end of the stream and else `EAGAIN`. -/
def Inbound.recv (n : ℕ) (q : Inbound) : RecvResult n :=
  if h : 0 < (q.unread.take n).length then .bytes (q.unread.take n) h (List.length_take_le _ _)
  else if q.eof then .eof
  else .again

/-- The socket behind a read of `n` bytes. -/
def Inbound.drop (n : ℕ) (q : Inbound) : Inbound := { q with unread := q.unread.drop n }

theorem Inbound.data_recv (n : ℕ) (q : Inbound) : (q.recv n).data = q.unread.take n := by
  rw [recv]
  split
  · rfl
  · rename_i hzero
    rw [List.eq_nil_of_length_eq_zero (Nat.eq_zero_of_not_pos hzero)]
    split <;> rfl

theorem Inbound.failed_recv {n : ℕ} (hn : 0 < n) (q : Inbound) :
    (q.recv n).failed = true ↔ q.unread = [] ∧ q.eof = true := by
  by_cases hunread : q.unread = []
  · cases heof : q.eof <;> simp [recv, hunread, heof, RecvResult.failed]
  · have hpos : 0 < (q.unread.take n).length := by
      have hlen : 0 < q.unread.length := List.length_pos_iff.mpr hunread
      rw [List.length_take]
      omega
    rw [recv, dif_pos hpos]
    simp [hunread, RecvResult.failed]

namespace Response

open RingBuffer

/-- The answers of the socket to the loop of `recv_buf_native`: a segment is tried when the
segments in front of it are full. -/
def answersOf (q : Inbound) (iov : List IoVec) (k : Answers) : Answers :=
  { k with recv := fun i n => (q.drop (totalLen (iov.take i))).recv n }

namespace State

/-- The bytes are in the segments; `buf.add_exist(recv_len);`. -/
def receive (iov : List IoVec) (data : List UInt8) (s : State) : State :=
  { s with
    buf := (s.buf.scatter iov data).addExist data.length
    received := s.received ++ data }

/-- `recv_buf` from its `recvmsg` on, which read into `iov` and answered `r`. -/
def recvWith (iov : List IoVec) {n : ℕ} (r : RecvResult n) (s : State) : ℤ × State :=
  if r.failed then (-1, s)
  else (r.data.length, s.receive iov r.data)

def recvBuf (recvmsg : (n : ℕ) → RecvResult n) (s : State) : ℤ × State :=
  if s.buf.getBlankSize maxPktSize ≤ 0 then (0, s)
  else
    let iov := s.buf.getBlankIovec maxPktSize
    recvWith iov (recvmsg (totalLen iov)) s

/-! ### Segment by segment -/

variable {s : State} {q : Inbound} {k : Answers} {v w : IoVec}

theorem receive_first {data : List UInt8} (h : data.length ≤ v.len) (iov : List IoVec)
    (s : State) : s.receive (v :: iov) data = s.recvInto v data := by
  have hlen : data.length ≤ (List.range' v.base v.len).length := by rwa [List.length_range']
  have hscatter : s.buf.scatter (v :: iov) data = s.buf.scatter [v] data := by
    rw [scatter, scatter, store_take, store_take (positions [v])]
    simp only [positions, List.flatMap_cons, List.flatMap_nil, List.append_nil,
      List.take_append_of_le_length hlen]
  rw [receive, recvInto, hscatter]

theorem receive_append {data : List UInt8} (h : data.length = v.len) (iov : List IoVec)
    (more : List UInt8) (s : State) :
    s.receive (v :: iov) (data ++ more) = (s.recvInto v data).receive iov more := by
  have hlen : (positions [v]).length = data.length := by simp [positions, h]
  have hsplit : positions (v :: iov) = positions [v] ++ positions iov := by simp [positions]
  have hexist : (s.buf.scatter (v :: iov) (data ++ more)).addExist ((data ++ more).length : ℕ) =
      (((s.buf.scatter [v] data).addExist data.length).scatter iov more).addExist more.length := by
    rw [scatter, hsplit, store_append hlen]
    simp only [scatter, addExist, BitVec.ofInt_natCast, List.length_append, BitVec.ofNat_add,
      BitVec.add_assoc]
  rw [receive, receive, recvInto, hexist, ← List.append_assoc]

theorem recvSegments_one (q : Inbound) (k : Answers) (v : IoVec) (s : State) :
    recvSegments (answersOf q [v] k) [v] 0 0 s =
      s.recvWith [v] (q.recv (totalLen [v])) := by
  have hrecv : (answersOf q [v] k).recv 0 v.len = q.recv (totalLen [v]) := rfl
  rw [recvSegments, hrecv, recvWith]
  by_cases hfail : (q.recv (totalLen [v])).failed = true
  · rw [if_pos hfail]
    exact if_pos hfail
  · rw [if_neg hfail]
    refine (if_neg hfail).trans ?_
    simp only [recvSegments, Int.zero_add, ite_self]
    rfl

/-- **Two segments**, of which the bytes do not just fill the first one in front of the end
of the stream. -/
theorem recvSegments_two (hv : 0 < v.len) (hw : 0 < w.len)
    (h : ¬ (q.unread.length = v.len ∧ q.eof = true)) (k : Answers) (s : State) :
    recvSegments (answersOf q [v, w] k) [v, w] 0 0 s =
      s.recvWith [v, w] (q.recv (totalLen [v, w])) := by
  have htotal : totalLen [v, w] = v.len + w.len := rfl
  have hfirst : (answersOf q [v, w] k).recv 0 v.len = q.recv v.len := rfl
  have hsecond : (answersOf q [v, w] k).recv 1 w.len = (q.drop v.len).recv w.len := rfl
  rw [recvSegments, hfirst, recvWith]
  dsimp only
  by_cases hfail : q.unread = [] ∧ q.eof = true
  · rw [if_pos ((Inbound.failed_recv hv q).mpr hfail),
      if_pos ((Inbound.failed_recv (by omega) q).mpr hfail)]
  · rw [if_neg (mt (Inbound.failed_recv hv q).mp hfail),
      if_neg (mt (Inbound.failed_recv (n := totalLen [v, w]) (by omega) q).mp hfail)]
    simp only [Inbound.data_recv, Int.zero_add, List.length_take]
    rcases Nat.lt_or_ge q.unread.length v.len with hlt | hge
    · -- the bytes end in the first segment
      have hshort : q.unread.take v.len = q.unread := List.take_of_length_le hlt.le
      have hlong : q.unread.take (totalLen [v, w]) = q.unread :=
        List.take_of_length_le (by omega)
      rw [if_pos (by omega), hshort, hlong, receive_first hlt.le, Nat.min_eq_right hlt.le,
        Nat.min_eq_right (by omega)]
    · have hfull : (q.unread.take v.len).length = v.len := by rw [List.length_take]; omega
      have hrest : ¬ ((q.drop v.len).unread = [] ∧ (q.drop v.len).eof = true) := by
        rintro ⟨hnil, heof⟩
        have hle : q.unread.length ≤ v.len := List.drop_eq_nil_iff.mp hnil
        exact h ⟨by omega, heof⟩
      rw [if_neg (by omega), recvSegments, hsecond]
      dsimp only
      rw [if_neg (mt (Inbound.failed_recv hw (q.drop v.len)).mp hrest)]
      simp only [recvSegments, ite_self, Inbound.data_recv, List.length_take]
      have hsplit : q.unread.take (totalLen [v, w]) =
          q.unread.take v.len ++ (q.drop v.len).unread.take w.len := List.take_add
      have hdrop : (q.drop v.len).unread.length = q.unread.length - v.len := List.length_drop
      rw [hsplit, receive_append hfull]
      refine Prod.ext ?_ rfl
      dsimp only
      omega

/-- In the case left out, the second `recv` finds the end of the stream. -/
theorem recvSegments_boundary (hv : 0 < v.len) (hw : 0 < w.len) (hlen : q.unread.length = v.len)
    (heof : q.eof = true) (k : Answers) (s : State) :
    (recvSegments (answersOf q [v, w] k) [v, w] 0 0 s).1 = -1 := by
  have hfirst : (answersOf q [v, w] k).recv 0 v.len = q.recv v.len := rfl
  have hsecond : (answersOf q [v, w] k).recv 1 w.len = (q.drop v.len).recv w.len := rfl
  have hok : ¬ (q.recv v.len).failed = true := by
    rw [Inbound.failed_recv hv]
    rintro ⟨hnil, -⟩
    rw [hnil] at hlen
    exact absurd hlen (Nat.ne_of_lt hv)
  have hfail : ((q.drop v.len).recv w.len).failed = true :=
    (Inbound.failed_recv hw _).mpr ⟨List.drop_eq_nil_iff.mpr hlen.le, heof⟩
  have hdata : (q.recv v.len).data.length = v.len := by
    rw [Inbound.data_recv, List.length_take]
    omega
  rw [recvSegments, hfirst]
  dsimp only
  rw [if_neg hok, hdata, if_neg (Nat.lt_irrefl _), recvSegments, hsecond]
  dsimp only
  rw [if_pos hfail]

/-! ### The ring -/

theorem getBlankIovec_cases (b : RingBuffer) :
    (∃ v, b.getBlankIovec maxPktSize = [v]) ∨
      ∃ v w, b.getBlankIovec maxPktSize = [v, w] ∧ 0 < v.len ∧ 0 < w.len := by
  have hmp : b.p.toNat % maxPktSize < maxPktSize := Nat.mod_lt _ (by decide)
  simp only [getBlankIovec]
  generalize b.f.toNat % maxPktSize = mf
  generalize b.p.toNat % maxPktSize = mp at hmp ⊢
  split_ifs with h₁ h₂ h₃
  · exact Or.inl ⟨_, rfl⟩
  · exact Or.inl ⟨_, rfl⟩
  · exact Or.inl ⟨_, rfl⟩
  · refine Or.inr ⟨_, _, rfl, Nat.sub_pos_of_lt hmp, ?_⟩
    show 0 < mf - 1
    omega

/-- **The case that goes wrong**: there is room, in two segments, the unread bytes just fill
the first one, and the end of the stream is behind them. -/
def Boundary (q : Inbound) (s : State) : Prop :=
  0 < s.buf.getBlankSize maxPktSize ∧
    ∃ v w, s.buf.getBlankIovec maxPktSize = [v, w] ∧ q.unread.length = v.len ∧ q.eof = true

/-- The answers of the socket to `recv_buf_native`. -/
def onSocket (q : Inbound) (k : Answers) (s : State) : Answers :=
  answersOf q (s.buf.getBlankIovec maxPktSize) k

theorem recvBufNative_eq (h : ¬ s.Boundary q) (k : Answers) :
    s.recvBufNative (s.onSocket q k) = s.recvBuf q.recv := by
  rw [recvBufNative, recvBuf, onSocket]
  split
  · rfl
  · rename_i hblank
    rcases getBlankIovec_cases s.buf with ⟨v, hv⟩ | ⟨v, w, hvw, hv, hw⟩
    · rw [hv]
      exact recvSegments_one q k v s
    · rw [hvw]
      have hnot : ¬ (q.unread.length = v.len ∧ q.eof = true) :=
        fun hb => h ⟨by omega, v, w, hvw, hb.1, hb.2⟩
      exact recvSegments_two hv hw hnot k s

/-- There the bytes are in the ring, and the result is `-1`. -/
theorem recvBufNative_boundary (h : s.Boundary q) (k : Answers) :
    (s.recvBufNative (s.onSocket q k)).1 = -1 := by
  obtain ⟨hblank, v, w, hvw, hlen, heof⟩ := h
  rw [recvBufNative, if_neg (by omega), onSocket, hvw]
  rcases getBlankIovec_cases s.buf with ⟨v', hv'⟩ | ⟨v', w', hvw', hv', hw'⟩
  · exact absurd (hv'.symm.trans hvw) (by simp)
  · obtain ⟨rfl, hrest⟩ := List.cons.inj (hvw'.symm.trans hvw)
    obtain ⟨rfl, -⟩ := List.cons.inj hrest
    exact recvSegments_boundary hv' hw' hlen heof k s

theorem recvBuf_boundary (h : s.Boundary q) : 0 ≤ (s.recvBuf q.recv).1 := by
  obtain ⟨hblank, v, w, hvw, hlen, heof⟩ := h
  rcases getBlankIovec_cases s.buf with ⟨v', hv'⟩ | ⟨v', w', hvw', hv', hw'⟩
  · exact absurd (hv'.symm.trans hvw) (by simp)
  · obtain ⟨rfl, hrest⟩ := List.cons.inj (hvw'.symm.trans hvw)
    have hok : ¬ (q.recv (totalLen [v', w])).failed = true := by
      have htotal : totalLen [v', w] = v'.len + w.len := rfl
      rw [Inbound.failed_recv (by omega)]
      rintro ⟨hnil, -⟩
      rw [hnil] at hlen
      exact absurd hlen (Nat.ne_of_lt hv')
    rw [recvBuf, if_neg (by omega), hvw]
    dsimp only [recvWith]
    rw [if_neg hok]
    exact Int.natCast_nonneg _

theorem recvBuf_failed {recvmsg : (n : ℕ) → RecvResult n} (h : (s.recvBuf recvmsg).1 < 0) :
    (s.recvBuf recvmsg).2 = s := by
  rw [recvBuf] at h ⊢
  split at h
  · exact absurd h (lt_irrefl 0)
  · rename_i hblank
    rw [if_neg hblank]
    dsimp only [recvWith] at h ⊢
    split at h
    · rename_i hfail
      rw [if_pos hfail]
    · exact absurd h (by simp)

/-! ### The requests in the ring -/

theorem countRequests_lt : ∀ {s t : State}, s.countRequests = some t →
    t.buf.getExistSize < 8 ∧ t.received = s.received := by
  intro s
  induction s using countRequests.induct with
  | case1 s hge hmax =>
    intro t h
    rw [countRequests, dif_pos hge, if_pos hmax] at h
    exact absurd h (by simp)
  | case2 s hge hmax ih =>
    intro t h
    rw [countRequests, dif_pos hge, if_neg hmax] at h
    exact ih h
  | case3 s hlt =>
    intro t h
    rw [countRequests, dif_neg hlt] at h
    obtain rfl := Option.some.inj h
    exact ⟨by omega, rfl⟩

theorem nextResponse_keeps (s : State) :
    s.nextResponse.buf = s.buf ∧ s.nextResponse.received = s.received := by
  rw [nextResponse]
  split_ifs <;> exact ⟨rfl, rfl⟩

theorem sendLoop_keeps (k : Answers) (send : ℕ → (n : ℕ) → SendResult n) (i : ℕ) (s : State) :
    (sendLoop k send i s).2.buf = s.buf ∧ (sendLoop k send i s).2.received = s.received := by
  induction i, s using sendLoop.induct k send with
  | case1 i s hp r =>
    rename_i hfail
    rw [sendLoop, dif_pos hp]
    dsimp only
    rw [if_pos hfail]
    exact nextResponse_keeps s
  | case2 i s hp r hfail sendLen t hdone =>
    rename_i ih
    rw [sendLoop, dif_pos hp]
    dsimp only
    rw [if_neg hfail, dif_pos hdone]
    have ht := nextResponse_keeps s
    split at ih
    · rename_i hen
      rw [if_pos hen]
      exact ⟨ih.1.trans ht.1, ih.2.trans ht.2⟩
    · rename_i hen
      rw [if_neg hen]
      exact ⟨ih.1.trans ht.1, ih.2.trans ht.2⟩
  | case3 i s hp r hfail sendLen t hdone =>
    rename_i hlen
    rw [sendLoop, dif_pos hp]
    dsimp only
    rw [if_neg hfail, dif_neg hdone, dif_pos hlen]
    have ht := nextResponse_keeps s
    split
    · exact ht
    · exact ht
  | case4 i s hp r hfail sendLen t hdone hlen =>
    rename_i ih
    rw [sendLoop, dif_pos hp]
    dsimp only
    rw [if_neg hfail, dif_neg hdone, dif_neg hlen]
    have ht := nextResponse_keeps s
    exact ⟨ih.1.trans ht.1, ih.2.trans ht.2⟩
  | case5 i s hp =>
    rw [sendLoop, dif_neg hp]
    exact ⟨rfl, rfl⟩

/-- What `recv_buf_native` has to do on a socket. -/
structure Agrees (q : Inbound) (k : Answers) (s : State) : Prop where
  same : s.recvBufNative (s.onSocket q k) = s.recvBuf q.recv
  kept : (s.recvBufNative (s.onSocket q k)).1 < 0 → (s.recvBufNative (s.onSocket q k)).2 = s
  counted : ∀ ret t, s.recvRequest (s.onSocket q k) = some (ret, t) → t.received ≠ s.received →
    t.buf.getExistSize < 8

/-- `recv_request` leaves less than a request in the ring, unless the receiving failed. -/
theorem recvRequest_counted {k : Answers} {ret : ℤ} {t : State}
    (h : s.recvRequest k = some (ret, t)) :
    (s.recvBufNative k).1 < 0 ∧ t = (s.recvBufNative k).2 ∨ t.buf.getExistSize < 8 := by
  rw [recvRequest] at h
  generalize s.recvBufNative k = r at h ⊢
  obtain ⟨recvLen, u⟩ := r
  dsimp only at h ⊢
  split at h
  · rename_i hneg
    obtain ⟨-, rfl⟩ := Prod.mk.inj (Option.some.inj h)
    exact Or.inl ⟨hneg, rfl⟩
  · right
    obtain ⟨v, hcount, hsend⟩ := Option.map_eq_some_iff.mp h
    have hkeep := sendLoop_keeps k k.sendIn 0 v
    have hlt := (countRequests_lt hcount).1
    unfold State.sendResponse at hsend
    generalize sendLoop k k.sendIn 0 v = r at hkeep hsend
    obtain ⟨sendRet, w⟩ := r
    dsimp only at hkeep hsend
    split at hsend <;> (obtain ⟨-, rfl⟩ := Prod.mk.inj hsend; rw [hkeep.1]; exact hlt)

end State

/-- **The two versions agree** exactly where the unread bytes do not end, with the end of the
stream, at the end of the first of two segments. -/
theorem recv_buf_agrees_iff (q : Inbound) (k : Answers) (s : State) :
    s.Agrees q k ↔ ¬ s.Boundary q := by
  refine ⟨fun h => ?_, fun h => ?_⟩
  · intro hb
    have hnative := State.recvBufNative_boundary hb k
    have hvectored := State.recvBuf_boundary hb
    rw [h.same] at hnative
    omega
  · have hsame := State.recvBufNative_eq h k
    have hkept : (s.recvBufNative (s.onSocket q k)).1 < 0 →
        (s.recvBufNative (s.onSocket q k)).2 = s := by
      rw [hsame]
      exact State.recvBuf_failed
    refine ⟨hsame, hkept, fun ret t ht hmoved => ?_⟩
    rcases State.recvRequest_counted ht with ⟨hneg, rfl⟩ | hlt
    · exact absurd (congrArg State.received (hkept hneg)) hmoved
    · exact hlt

/-- One request has gone through the ring, seven more have arrived, and the peer has shut
down its side. -/
def sevenRequests : Inbound := ⟨List.replicate 56 0, true⟩

def afterOneRequest : State := { State.fresh (fun _ => 0) true with buf := ⟨8, 8, fun _ => 0⟩ }

/-- The seven requests are in the ring, none is counted, and `recv_request` fails. -/
theorem recv_buf_native_discards :
    ¬ ∀ (q : Inbound) (k : Answers) (s : State), s.buf.Ok maxPktSize → s.Agrees q k := by
  intro h
  have hagrees := h sevenRequests firstCall.answers afterOneRequest
    (show afterOneRequest.buf.used ≤ maxPktSize - 1 by decide)
  have hnative : (afterOneRequest.recvBufNative
      (afterOneRequest.onSocket sevenRequests firstCall.answers)).1 = -1 := by decide
  have hring : (afterOneRequest.recvBufNative
      (afterOneRequest.onSocket sevenRequests firstCall.answers)).2.buf.getExistSize = 56 := by
    decide
  rw [hagrees.kept (by rw [hnative]; decide)] at hring
  exact absurd hring (by decide)

end Response

end CppProgramming.Socket
