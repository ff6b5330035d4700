import CppProgramming.Socket.Response.Connection
import Mathlib.Tactic.Ring

/-!
# Every request is answered once, in order

After `c` complete requests the ring holds what was received behind byte `8 * c`,
and the bytes sent are a front of `c` copies of `response_buf`.  How far that
front reaches is what `response_cnt` and `response_pos` say: `response_cnt`
copies are not begun, and the last one begun lacks
`response_size - response_pos` bytes.  That is the invariant `Inv c`.

`recvBufNative_spec` says what receiving does, whatever the number of segments
it fills; `countRequests_spec` moves the invariant from `c` to the number of
complete requests; `sendLoop_spec` is the loop of `send_response`, which also
leaves `EPOLLOUT` enabled exactly while something is left to send.
`responses_in_order` is the run.
-/

namespace CppProgramming.Socket.Response

open CppProgramming.Lib RingBuffer

namespace State

/-! ### Receiving -/

/-- `t` is `s` with `data` received, and nothing else changed. -/
structure Received (data : List UInt8) (s t : State) : Prop where
  ok : t.buf.Ok maxPktSize
  used : t.buf.used = s.buf.used + data.length
  contents : t.buf.contents maxPktSize = s.buf.contents maxPktSize ++ data
  received : t.received = s.received ++ data
  responseCnt : t.responseCnt = s.responseCnt
  responsePos : t.responsePos = s.responsePos
  enableEpollout : t.enableEpollout = s.enableEpollout
  sent : t.sent = s.sent
  interest : t.interest = s.interest

theorem Received.refl {s : State} (h : s.buf.Ok maxPktSize) : Received [] s s :=
  ⟨h, rfl, by simp, by simp, rfl, rfl, rfl, rfl, rfl⟩

theorem Received.trans {d e : List UInt8} {s t u : State} (h : Received d s t)
    (g : Received e t u) : Received (d ++ e) s u where
  ok := g.ok
  used := by rw [g.used, h.used, List.length_append, Nat.add_assoc]
  contents := by rw [g.contents, h.contents, List.append_assoc]
  received := by rw [g.received, h.received, List.append_assoc]
  responseCnt := g.responseCnt.trans h.responseCnt
  responsePos := g.responsePos.trans h.responsePos
  enableEpollout := g.enableEpollout.trans h.enableEpollout
  sent := g.sent.trans h.sent
  interest := g.interest.trans h.interest

/-- A single segment that starts where the next byte belongs. -/
theorem received_recvInto {s : State} {v : IoVec} {data : List UInt8}
    (hv : positions [v] = ringIdx maxPktSize (s.buf.f.toNat + s.buf.used) v.len)
    (hfit : s.buf.used + v.len ≤ maxPktSize - 1) (hn : data.length ≤ v.len) :
    Received data s (s.recvInto v data) where
  ok := ok_addExist pktSize (by rw [used_scatter]; omega)
  used := used_addExist ((show s.buf.used + data.length ≤ maxPktSize - 1 by omega).trans_lt
    (by decide))
  contents := contents_store pktSize hv hfit data hn
  received := rfl
  responseCnt := rfl
  responsePos := rfl
  enableEpollout := rfl
  sent := rfl
  interest := rfl

/-- Segments that cover `m` positions from `start` on begin with one that covers
its own length of them, and go on with the rest. -/
theorem positions_cons {v : IoVec} {iov : List IoVec} {start m : ℕ}
    (h : positions (v :: iov) = ringIdx maxPktSize start m) :
    v.len ≤ m ∧ positions [v] = ringIdx maxPktSize start v.len ∧
      positions iov = ringIdx maxPktSize (start + v.len) (m - v.len) := by
  have hsplit : positions (v :: iov) = positions [v] ++ positions iov := by simp [positions]
  have hhead : (positions [v]).length = v.len := by simp [positions]
  have hle : v.len ≤ m := by
    have hlen := congrArg List.length h
    rw [hsplit, List.length_append, length_ringIdx, hhead] at hlen
    omega
  obtain ⟨r, rfl⟩ := Nat.exists_eq_add_of_le hle
  rw [hsplit, ringIdx_add] at h
  obtain ⟨hone, hrest⟩ := List.append_inj h (by rw [hhead, length_ringIdx])
  exact ⟨hle, hone, by rw [hrest, Nat.add_sub_cancel_left]⟩

/-- The segments are filled one after the other. -/
theorem recvSegments_spec (k : Answers) (iov : List IoVec) : ∀ (i : ℕ) (ret : ℤ) (s : State) (m : ℕ),
    s.buf.Ok maxPktSize → positions iov = ringIdx maxPktSize (s.buf.f.toNat + s.buf.used) m →
    s.buf.used + m ≤ maxPktSize - 1 →
    ∃ data, Received data s (recvSegments k iov i ret s).2 := by
  induction iov with
  | nil => exact fun i ret s m hok _ _ => ⟨[], .refl hok⟩
  | cons v iov ih =>
    intro i ret s m hok hpos hfit
    obtain ⟨hle, hv, hiov⟩ := positions_cons hpos
    have hdata := RecvResult.length_data_le (k.recv i v.len)
    have hone := received_recvInto hv (by omega) hdata
    rw [recvSegments]
    dsimp only
    split
    · exact ⟨[], .refl hok⟩
    split
    · exact ⟨_, hone⟩
    · have hfull : (k.recv i v.len).data.length = v.len := by omega
      have hused : (s.recvInto v (k.recv i v.len).data).buf.used = s.buf.used + v.len := by
        rw [hone.used, hfull]
      obtain ⟨data, hrest⟩ := ih (i + 1) (ret + (k.recv i v.len).data.length) _ (m - v.len)
        hone.ok (by rw [hused, ← Nat.add_assoc]; exact hiov) (by rw [hused]; omega)
      exact ⟨_, hone.trans hrest⟩

theorem recvBufNative_spec (k : Answers) {s : State} (h : s.buf.Ok maxPktSize) :
    ∃ data, Received data s (s.recvBufNative k).2 := by
  have hle : s.buf.used ≤ maxPktSize - 1 := h
  unfold recvBufNative
  split
  · exact ⟨[], .refl h⟩
  · exact recvSegments_spec k _ 0 0 s _ h (positions_getBlankIovec pktSize h) (by omega)

/-! ### The invariant -/

/-- **The invariant** after `c` complete requests. -/
structure Inv (c : ℕ) (s : State) : Prop where
  ok : s.buf.Ok maxPktSize
  received : s.received.length = 8 * c + s.buf.used
  contents : s.buf.contents maxPktSize = s.received.drop (8 * c)
  responseCnt : 0 ≤ s.responseCnt
  pos_nonneg : 0 ≤ s.responsePos
  pos_le : s.responsePos ≤ responseSize
  sent_length : (s.sent.length : ℤ) =
    (c - s.responseCnt) * responseSize - (responseSize - s.responsePos)
  sent : s.sent = (ringIdx responseSize 0 s.sent.length).map responseBuf

theorem inv_fresh (mem : ℕ → UInt8) (added : Bool) : (fresh mem added).Inv 0 where
  ok := by simp [fresh, Ok]
  received := by simp [fresh]
  contents := by simp [fresh]
  responseCnt := le_rfl
  pos_nonneg := Int.natCast_nonneg _
  pos_le := le_rfl
  sent_length := by simp [fresh]
  sent := rfl

variable {k : Answers} {s : State} {c : ℕ}

theorem Inv.setEpollout (h : s.Inv c) (flag : Bool) : (s.setEpollout k flag).Inv c :=
  ⟨h.ok, h.received, h.contents, h.responseCnt, h.pos_nonneg, h.pos_le, h.sent_length, h.sent⟩

theorem Inv.recv {data : List UInt8} {t : State} (h : s.Inv c) (g : Received data s t) :
    t.Inv c where
  ok := g.ok
  received := by rw [g.received, g.used, List.length_append, h.received, Nat.add_assoc]
  contents := by
    rw [g.received, g.contents, h.contents, List.drop_append_of_le_length (by rw [h.received]; omega)]
  responseCnt := by rw [g.responseCnt]; exact h.responseCnt
  pos_nonneg := by rw [g.responsePos]; exact h.pos_nonneg
  pos_le := by rw [g.responsePos]; exact h.pos_le
  sent_length := by rw [g.sent, g.responseCnt, g.responsePos]; exact h.sent_length
  sent := by rw [g.sent]; exact h.sent

theorem Inv.takeRequest (h : s.Inv c) (hused : 8 ≤ s.buf.used) : s.takeRequest.Inv (c + 1) where
  ok := ok_addBlank h.ok hused
  received := by
    have hu : s.takeRequest.buf.used = s.buf.used - 8 := used_addBlank hused
    have hr : s.takeRequest.received.length = 8 * c + s.buf.used := h.received
    omega
  contents := by
    have hc := contents_addBlank pktSize hused
    rw [h.contents, List.drop_drop] at hc
    exact hc
  responseCnt := Int.add_nonneg h.responseCnt Int.one_nonneg
  pos_nonneg := h.pos_nonneg
  pos_le := h.pos_le
  sent_length := by
    have hlen := h.sent_length
    simp only [State.takeRequest]
    rw [hlen]
    push_cast
    ring
  sent := h.sent

theorem Inv.nextResponse (h : s.Inv c) (hp : s.Pending) :
    s.nextResponse.Inv c ∧ s.nextResponse.responsePos < responseSize := by
  have hle := h.pos_le
  unfold State.nextResponse
  split
  · rename_i hfull
    have hcnt : 0 < s.responseCnt := by
      unfold Pending at hp
      omega
    have hlen := h.sent_length
    rw [if_pos hcnt]
    refine ⟨⟨h.ok, h.received, h.contents, Int.le_sub_one_of_lt hcnt, le_rfl,
      Int.natCast_nonneg _, ?_, h.sent⟩, by simp [responseSize_eq]⟩
    simp only
    rw [hlen, hfull]
    ring
  · exact ⟨h, by omega⟩

/-- The next bytes of the current answer continue the copies already sent. -/
theorem Inv.sendSome {n : ℕ} (h : s.Inv c) (hlt : s.responsePos < responseSize)
    (hn : n ≤ s.unsent) : (s.sendSome n).Inv c := by
  have hpos := h.pos_nonneg
  unfold State.unsent at hn
  have hlen := h.sent_length
  have hmod : s.sent.length % responseSize = s.responsePos.toNat % responseSize := by
    rw [responseSize_eq] at *
    omega
  have hrange : ringIdx responseSize s.sent.length n = List.range' s.responsePos.toNat n := by
    rw [ringIdx_congr hmod, ringIdx_eq_range' (by omega)]
  refine ⟨h.ok, h.received, h.contents, h.responseCnt, ?_, ?_, ?_, ?_⟩
  · simp only [State.sendSome]
    omega
  · simp only [State.sendSome]
    omega
  · simp only [State.sendSome, List.length_append, List.length_map, List.length_range']
    push_cast
    rw [hlen]
    ring
  · simp only [State.sendSome, List.length_append, List.length_map, List.length_range']
    rw [ringIdx_add, List.map_append, ← h.sent, Nat.zero_add, hrange]

/-- One round of `send_response`, which sent `n` bytes. -/
theorem Inv.round {n : ℕ} (h : s.Inv c) (hp : s.Pending)
    (hn : n ≤ s.nextResponse.unsent) :
    (s.nextResponse.sendSome n).Inv c :=
  (h.nextResponse hp).1.sendSome (h.nextResponse hp).2 hn

theorem Inv.not_pending_iff (h : s.Inv c) :
    ¬ s.Pending ↔ s.responseCnt = 0 ∧ s.responsePos = responseSize := by
  have hcnt := h.responseCnt
  have hle := h.pos_le
  unfold Pending
  omega

@[simp] theorem nextResponse_buf : s.nextResponse.buf = s.buf := by
  unfold State.nextResponse
  split_ifs <;> rfl

@[simp] theorem sendSome_buf (n : ℕ) : (s.sendSome n).buf = s.buf := rfl

/-! ### The loops -/

/-- The loop of `recv_request` leaves less than a request in the ring. -/
theorem countRequests_spec : ∀ {s t : State} {c : ℕ}, s.Inv c → s.countRequests = some t →
    ∃ d, t.Inv d ∧ t.buf.used < 8 ∧ (s.Pending → t.Pending) ∧
      t.enableEpollout = s.enableEpollout := by
  intro s
  induction s using countRequests.induct with
  | case1 s hge hover =>
    intro t c _ h
    rw [countRequests, dif_pos hge, if_pos hover] at h
    exact absurd h (by simp)
  | case2 s hge hover ih =>
    intro t c hinv h
    rw [countRequests, dif_pos hge, if_neg hover] at h
    rw [getExistSize_eq pktSize hinv.ok] at hge
    obtain ⟨d, hd, hused, hpend, hen⟩ := ih (hinv.takeRequest (by omega)) h
    refine ⟨d, hd, hused, fun hp => hpend ?_, hen⟩
    unfold Pending at hp ⊢
    have := hinv.responseCnt
    simp only [takeRequest]
    omega
  | case3 s hlt =>
    intro t c hinv h
    rw [countRequests, dif_neg hlt] at h
    obtain rfl := Option.some.inj h
    rw [getExistSize_eq pktSize hinv.ok] at hlt
    exact ⟨c, hinv, by omega, id, rfl⟩

/-- `EPOLLOUT` is enabled exactly while something is left to send. -/
def EnableRule (s : State) : Prop := s.enableEpollout = true ↔ s.Pending

/-- The loop of `send_response`.  `EPOLLOUT` must not be enabled for nothing when
it begins. -/
theorem sendLoop_spec (k : Answers) (send : ℕ → (n : ℕ) → SendResult n) :
    ∀ {i : ℕ} {s : State} {c : ℕ}, s.Inv c → (s.enableEpollout = true → s.Pending) →
      0 ≤ (sendLoop k send i s).1 →
      (sendLoop k send i s).2.Inv c ∧ (sendLoop k send i s).2.buf = s.buf ∧
        (sendLoop k send i s).2.EnableRule := by
  intro i s
  induction i, s using sendLoop.induct k send with
  | case1 i s hp r =>
    rename_i hfail
    intro c _ _ hret
    rw [sendLoop, dif_pos hp] at hret
    dsimp only at hret
    rw [if_pos hfail] at hret
    exact absurd hret (by simp)
  | case2 i s hp r hfail sendLen t hdone =>
    rename_i ih
    intro c h _ hret
    have ht : t.Inv c := h.round hp r.count_le
    have heq : sendLoop k send i s =
        sendLoop k send (i + 1) (if t.enableEpollout then t.setEpollout k false else t) := by
      rw [sendLoop, dif_pos hp]
      dsimp only
      rw [if_neg hfail, dif_pos hdone]
    rw [heq] at hret ⊢
    have hbuf : t.buf = s.buf := by simp [t]
    rcases Bool.eq_false_or_eq_true t.enableEpollout with hen | hen
    · simp only [hen, if_true] at ih hret ⊢
      rw [← hbuf]
      exact ih (ht.setEpollout false) (fun hf => absurd hf (by simp [State.setEpollout])) hret
    · simp only [hen] at ih hret ⊢
      rw [← hbuf]
      exact ih ht (fun hf => absurd hf (by simp [hen])) hret
  | case3 i s hp r hfail sendLen t hdone =>
    rename_i hlen
    intro c h _ hret
    have ht : t.Inv c := h.round hp r.count_le
    have hbuf : t.buf = s.buf := by simp [t]
    have hpend : t.Pending := by
      by_contra hnp
      exact hdone (ht.not_pending_iff.mp hnp)
    have heq : sendLoop k send i s =
        (0, if t.enableEpollout then t else t.setEpollout k true) := by
      rw [sendLoop, dif_pos hp]
      dsimp only
      rw [if_neg hfail, dif_neg hdone, dif_pos hlen]
    rw [heq]
    dsimp only
    split
    · rename_i hen
      exact ⟨ht, hbuf, iff_of_true hen hpend⟩
    · exact ⟨ht.setEpollout true, hbuf, iff_of_true rfl hpend⟩
  | case4 i s hp r hfail sendLen t hdone hlen =>
    rename_i ih
    intro c h _ hret
    have ht : t.Inv c := h.round hp r.count_le
    have hbuf : t.buf = s.buf := by simp [t]
    have heq : sendLoop k send i s = sendLoop k send (i + 1) t := by
      rw [sendLoop, dif_pos hp]
      dsimp only
      rw [if_neg hfail, dif_neg hdone, dif_neg hlen]
    rw [heq] at hret ⊢
    rw [← hbuf]
    refine ih ht (fun _ => ?_) hret
    by_contra hnp
    exact hdone (ht.not_pending_iff.mp hnp)
  | case5 i s hp =>
    intro c h hen _
    rw [sendLoop, dif_neg hp]
    exact ⟨h, rfl, fun he => hen he, fun hp' => absurd hp' hp⟩

/-! ### Calls and runs -/

/-- What holds between two calls of `handle`. -/
structure Settled (s : State) : Prop where
  inv : ∃ c, s.Inv c
  used : s.buf.used < 8
  enable : s.EnableRule

theorem handleWrite_spec (h : s.Settled) (hret : 0 ≤ (s.handleWrite k).1) :
    (s.handleWrite k).2.Settled := by
  obtain ⟨c, hinv⟩ := h.inv
  have hspec := sendLoop_spec k k.sendOut (i := 0) hinv h.enable.mp
  unfold State.handleWrite State.sendResponse at hret ⊢
  generalize sendLoop k k.sendOut 0 s = r at hspec hret ⊢
  obtain ⟨ret, t⟩ := r
  dsimp only at hspec hret ⊢
  split at hret
  · simp at hret
  · rename_i hnn
    obtain ⟨ht, hbuf, hen⟩ := hspec (by omega)
    rw [if_neg hnn]
    exact ⟨⟨c, ht⟩, by rw [hbuf]; exact h.used, hen⟩

theorem recvRequest_spec (h : s.Settled) {ret : ℤ} {t : State}
    (heq : s.recvRequest k = some (ret, t)) (hret : 0 ≤ ret) : t.Settled := by
  obtain ⟨c, hinv⟩ := h.inv
  obtain ⟨data, hdata⟩ := recvBufNative_spec k hinv.ok
  unfold State.recvRequest at heq
  generalize s.recvBufNative k = r at hdata heq
  obtain ⟨recvLen, s₁⟩ := r
  dsimp only at hdata heq
  split at heq
  · obtain ⟨rfl, -⟩ := Prod.mk.inj (Option.some.inj heq)
    omega
  obtain ⟨s₂, hcount, heq⟩ := Option.map_eq_some_iff.mp heq
  obtain ⟨d, hd, hused, hpend, hen⟩ := countRequests_spec (hinv.recv hdata) hcount
  have hbegin : s₂.enableEpollout = true → s₂.Pending := by
    intro he
    refine hpend ?_
    rw [hen, hdata.enableEpollout] at he
    have hold := h.enable.mp he
    unfold Pending at hold ⊢
    rwa [hdata.responseCnt, hdata.responsePos]
  have hspec := sendLoop_spec k k.sendIn (i := 0) hd hbegin
  unfold State.sendResponse at heq
  generalize sendLoop k k.sendIn 0 s₂ = r at hspec heq
  obtain ⟨sendRet, s₃⟩ := r
  dsimp only at hspec heq
  split at heq
  · obtain ⟨rfl, -⟩ := Prod.mk.inj heq
    omega
  · obtain ⟨-, rfl⟩ := Prod.mk.inj heq
    obtain ⟨ht, hbuf, hrule⟩ := hspec (by omega)
    exact ⟨⟨d, ht⟩, by rw [hbuf]; exact hused, hrule⟩

theorem handleRead_spec (h : s.Settled) {ret : ℤ} {t : State}
    (heq : s.handleRead k = some (ret, t)) (hret : 0 ≤ ret) : t.Settled := by
  obtain ⟨⟨recvRet, u⟩, hrecv, hu⟩ := Option.map_eq_some_iff.mp heq
  dsimp only at hu
  split at hu
  · obtain ⟨rfl, -⟩ := Prod.mk.inj hu
    omega
  · obtain ⟨-, rfl⟩ := Prod.mk.inj hu
    exact recvRequest_spec h hrecv (by omega)

theorem handleIn_spec (h : s.Settled) {ev : BitVec 32} {t : State}
    (heq : s.handleIn ev k = some (0, t)) : t.Settled := by
  unfold State.handleIn at heq
  split at heq
  · obtain ⟨⟨readRet, u⟩, hread, hu⟩ := Option.map_eq_some_iff.mp heq
    dsimp only at hu
    split at hu
    · obtain ⟨rfl, -⟩ := Prod.mk.inj hu
      omega
    · obtain ⟨-, rfl⟩ := Prod.mk.inj hu
      exact handleRead_spec h hread (by omega)
  · obtain ⟨-, rfl⟩ := Prod.mk.inj (Option.some.inj heq)
    exact h

/-- **A call of `handle` that returns `0` keeps the invariant and the rule.** -/
theorem handle_spec (h : s.Settled) {ev : BitVec 32} {t : State}
    (heq : s.handle ev k = some (0, t)) : t.Settled := by
  have hwrite := handleWrite_spec (k := k) h
  unfold State.handle at heq
  generalize s.handleWrite k = r at hwrite heq
  obtain ⟨ret, u⟩ := r
  dsimp only at hwrite heq
  split at heq
  · simp at heq
  split at heq
  · split at heq
    · obtain ⟨rfl, -⟩ := Prod.mk.inj (Option.some.inj heq)
      omega
    · exact handleIn_spec (hwrite (by omega)) heq
  · exact handleIn_spec h heq

theorem settled_fresh (mem : ℕ → UInt8) (added : Bool) : (fresh mem added).Settled where
  inv := ⟨0, inv_fresh mem added⟩
  used := by simp [fresh]
  enable := by simp [EnableRule, Pending, fresh]

end State

theorem run_settled {mem : ℕ → UInt8} {added : Bool} {calls : List Call} {s : State}
    (h : server.Run (State.fresh mem added) calls s) : s.Settled :=
  h.invariant (P := State.Settled) (fun _ _ _ ht hstep => State.handle_spec ht hstep)
    (State.settled_fresh mem added)

/-- **Requests are answered once, in order.**  After any run of calls that all
returned `0`: the ring holds the bytes of the request that is not yet complete;
the bytes sent are a front of one copy of `response_buf` for each complete
request, as long as `response_cnt` and `response_pos` say; and
`enable_epollout` is set exactly while something is left to send. -/
theorem responses_in_order {mem : ℕ → UInt8} {added : Bool} {calls : List Call} {s : State}
    (h : server.Run (State.fresh mem added) calls s) :
    s.buf.contents maxPktSize = s.received.drop (s.received.length / 8 * 8) ∧
      s.buf.used = s.received.length % 8 ∧
      0 ≤ s.responsePos ∧ s.responsePos ≤ responseSize ∧ 0 ≤ s.responseCnt ∧
      (s.sent.length : ℤ) = ((s.received.length / 8 : ℕ) - s.responseCnt) * responseSize -
        (responseSize - s.responsePos) ∧
      s.sent = ((List.replicate (s.received.length / 8)
        ((List.range responseSize).map responseBuf)).flatten).take s.sent.length ∧
      (s.enableEpollout = true ↔ 0 < s.responseCnt ∨ s.responsePos < responseSize) := by
  have hsettled := run_settled h
  obtain ⟨c, hinv⟩ := hsettled.inv
  have hused := hsettled.used
  have hreceived := hinv.received
  have hc : s.received.length / 8 = c := by omega
  have hlen := hinv.sent_length
  have hle : s.sent.length ≤ c * responseSize := by
    have hpos := hinv.pos_le
    have hcnt := hinv.responseCnt
    rw [responseSize_eq] at *
    omega
  refine ⟨?_, by omega, hinv.pos_nonneg, hinv.pos_le, hinv.responseCnt, ?_, ?_, hsettled.enable⟩
  · rw [hc, Nat.mul_comm]
    exact hinv.contents
  · rw [hc]
    exact hlen
  · rw [hc, flatten_replicate_map, ← List.map_take, ringIdx_take, Nat.min_eq_left hle]
    exact hinv.sent

theorem responses_in_order_firstCall :
    afterFirstCall.buf.contents maxPktSize =
        afterFirstCall.received.drop (afterFirstCall.received.length / 8 * 8) ∧
      afterFirstCall.buf.used = afterFirstCall.received.length % 8 ∧
      0 ≤ afterFirstCall.responsePos ∧ afterFirstCall.responsePos ≤ responseSize ∧
      0 ≤ afterFirstCall.responseCnt ∧
      (afterFirstCall.sent.length : ℤ) =
        ((afterFirstCall.received.length / 8 : ℕ) - afterFirstCall.responseCnt) * responseSize -
          (responseSize - afterFirstCall.responsePos) ∧
      afterFirstCall.sent = ((List.replicate (afterFirstCall.received.length / 8)
        ((List.range responseSize).map responseBuf)).flatten).take afterFirstCall.sent.length ∧
      (afterFirstCall.enableEpollout = true ↔
        0 < afterFirstCall.responseCnt ∨ afterFirstCall.responsePos < responseSize) :=
  responses_in_order run_firstCall

end CppProgramming.Socket.Response
