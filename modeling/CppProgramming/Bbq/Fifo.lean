import CppProgramming.Bbq.Queue

/-!
# `bbq` is a queue

The memory of `bbq` with its processes is simulated by the queue with semaphores of
`Lib.SemQueue`, as long as the offsets of the slots fit in an `int`: the last byte
that a `bbq_put` copies is the moment at which its item enters the queue, and the last
byte that a `bbq_take` copies the moment at which an item leaves it.

`Match` relates the two processes at each point.  Inside the critical section it says
what `f`, `p` and the slot in work look like; outside it says nothing about the memory,
so that the steps of one process inside leave the others alone (`Match.frame`).
-/

namespace CppProgramming.Bbq

open CppProgramming.Lib

variable {Pid : Type} [DecidableEq Pid]

/-! ### Slots -/

variable {n Q : ℕ} {b b' : BoundedBlockingQueue}

/-- **Where a slot is**, when it can be addressed. -/
theorem offset_eq (hn : b.itemSize = n) (hq : b.queueSize = Q) {k : ℕ}
    (hk : n * (k % Q) < 2 ^ 31) : b.offset k = ((n * (k % Q) : ℕ) : ℤ) := by
  rw [BoundedBlockingQueue.offset, hn, hq, Int.tmod_eq_emod_of_nonneg (Int.natCast_nonneg k)]
  rw [← Int.natCast_mod, ← Int.natCast_mul]
  exact wrapInt_eq (Int.natCast_nonneg _) (by exact_mod_cast hk)

/-- Two slots of a queue that is not full have no byte in common. -/
theorem offset_add_ne (hn : b.itemSize = n) (hq : b.queueSize = Q) {k l i j : ℕ}
    (hk : n * (k % Q) < 2 ^ 31) (hl : n * (l % Q) < 2 ^ 31) (hkl : k < l) (hlk : l < k + Q)
    (hi : i < n) (hj : j < n) : b.offset k + i ≠ b.offset l + j := by
  rw [offset_eq hn hq hk, offset_eq hn hq hl]
  intro heq
  have heq : n * (k % Q) + i = n * (l % Q) + j := by exact_mod_cast heq
  have hdiv : k % Q = l % Q := by
    have hk : (n * (k % Q) + i) / n = k % Q := by
      rw [Nat.mul_add_div (by omega), Nat.div_eq_of_lt hi, Nat.add_zero]
    have hl : (n * (l % Q) + j) / n = l % Q := by
      rw [Nat.mul_add_div (by omega), Nat.div_eq_of_lt hj, Nat.add_zero]
    rw [← hk, heq, hl]
  have hmod : (l - k) % Q = 0 := Nat.sub_mod_eq_zero_of_mod_eq hdiv.symm
  rw [Nat.mod_eq_of_lt (by omega)] at hmod
  omega

/-- The slots of all puts so far can be addressed. -/
def Fits (n Q : ℕ) (h : History Pid) : Prop :=
  ∀ k < h.puts.length, n * (k % Q) < 2 ^ 31

/-! ### Matching processes -/

variable {h h' : History Pid} {m m' : SemQueue.Shared Item} {item v : Item} {t : ℕ} {c : Pc}
  {d : SemQueue.Pc Item}

/-- Nobody is in the middle of a change. -/
structure Free (b : BoundedBlockingQueue) (h : History Pid) (m : SemQueue.Shared Item) : Prop where
  p : b.p = m.log.length
  f : b.f = m.popped
  puts : h.puts = m.log
  takes : h.takes = m.popped

/-- A `bbq_put` is inside with an item that is not stored yet. -/
structure PutIn (b : BoundedBlockingQueue) (h : History Pid) (m : SemQueue.Shared Item)
    (item : Item) : Prop where
  f : b.f = m.popped
  puts : h.puts = m.log ++ [item]
  takes : h.takes = m.popped

/-- A `bbq_take` is inside with a number, and has not fetched its item yet. -/
structure TakeIn (b : BoundedBlockingQueue) (h : History Pid) (m : SemQueue.Shared Item) (t : ℕ) :
    Prop where
  p : b.p = m.log.length
  puts : h.puts = m.log
  takes : h.takes = m.popped + 1
  ticket : t = m.popped

/-- **Matching processes**, with `t` the number of a take. -/
inductive Match (n : ℕ) (b : BoundedBlockingQueue) (h : History Pid) (m : SemQueue.Shared Item)
    (t : ℕ) : Pc → SemQueue.Pc Item → Prop
  | idle : Match n b h m t .idle .idle
  | putEmpty (item : Item) : Match n b h m t (.putEmpty item) (.putEmpty item)
  | putMutex (item : Item) : Match n b h m t (.putMutex item) (.putMutex item)
  | putRead (item : Item) (hin : PutIn b h m item) (hp : b.p = m.log.length) :
    Match n b h m t (.putRead item) (.putIn item)
  | putWrite (item : Item) (hin : PutIn b h m item) (hp : b.p = m.log.length) :
    Match n b h m t (.putWrite item m.log.length) (.putIn item)
  | putCopy (item : Item) (i : ℕ) (hin : PutIn b h m item) (hp : b.p = m.log.length + 1)
    (hi : i < n) (hcopied : ∀ j < i, b.que (b.offset m.log.length + j) = item j) :
    Match n b h m t (.putCopy item (b.offset m.log.length) i) (.putIn item)
  | putStored (item : Item) (pointer : ℤ) (hfree : Free b h m) :
    Match n b h m t (.putCopy item pointer n) .putPushed
  | putFull : Match n b h m t .putFull .putFull
  | takeFull (item : Item) : Match n b h m t (.takeFull item) .takeFull
  | takeMutex (item : Item) : Match n b h m t (.takeMutex item) .takeMutex
  | takeRead (item : Item) (hin : TakeIn b h m t) (hf : b.f = m.popped) :
    Match n b h m t (.takeRead item) .takeIn
  | takeWrite (item : Item) (hin : TakeIn b h m t) (hf : b.f = m.popped) :
    Match n b h m t (.takeWrite item m.popped) .takeIn
  | takeCopy (item v : Item) (i : ℕ) (hin : TakeIn b h m t) (hf : b.f = m.popped + 1) (hi : i < n)
    (hv : m.log[m.popped]? = some v) (hcopied : ∀ j < i, item j = v j) :
    Match n b h m t (.takeCopy item (b.offset m.popped) i) .takeIn
  | takeFetched (item v : Item) (pointer : ℤ) (hfree : Free b h m) (hv : m.log[t]? = some v)
    (hcopied : ∀ j < n, item j = v j) :
    Match n b h m t (.takeCopy item pointer n) (.takePopped v)
  | takeEmpty (item v : Item) (hv : m.log[t]? = some v) (hcopied : ∀ j < n, item j = v j) :
    Match n b h m t (.takeEmpty item) (.takeEmpty v)
  | ret (r r' : Option Item) : Match n b h m t (.ret r) (.ret r')

omit [DecidableEq Pid] in
theorem Match.inside_iff (hm : Match n b h m t c d) : c.inside = true ↔ d.inside = 1 := by
  cases hm <;> simp [Pc.inside, SemQueue.Pc.inside]

omit [DecidableEq Pid] in
/-- **A process outside** does not depend on the memory. -/
theorem Match.frame (hm : Match n b h m t c d) (hd : d.inside = 0)
    (hlog : ∀ (k : ℕ) v, m.log[k]? = some v → m'.log[k]? = some v) : Match n b' h' m' t c d := by
  cases hm with
  | idle => exact .idle
  | putEmpty item => exact .putEmpty item
  | putMutex item => exact .putMutex item
  | putFull => exact .putFull
  | takeFull item => exact .takeFull item
  | takeMutex item => exact .takeMutex item
  | takeEmpty item v hv hcopied => exact .takeEmpty item v (hlog _ _ hv) hcopied
  | ret r r' => exact .ret r r'
  | _ => simp [SemQueue.Pc.inside] at hd

/-- `m'` differs from `m`, and so on, in the semaphores only. -/
structure SameQueue (b b' : BoundedBlockingQueue) (h h' : History Pid)
    (m m' : SemQueue.Shared Item) : Prop where
  p : b'.p = b.p
  f : b'.f = b.f
  que : b'.que = b.que
  itemSize : b'.itemSize = b.itemSize
  queueSize : b'.queueSize = b.queueSize
  puts : h'.puts = h.puts
  takes : h'.takes = h.takes
  stored : h'.stored = h.stored
  fetched : h'.fetched = h.fetched
  log : m'.log = m.log
  popped : m'.popped = m.popped

section

omit [DecidableEq Pid]

theorem SameQueue.offset (hs : SameQueue b b' h h' m m') (k : ℤ) : b'.offset k = b.offset k := by
  rw [BoundedBlockingQueue.offset, hs.itemSize, hs.queueSize]
  rfl

theorem SameQueue.free (hs : SameQueue b b' h h' m m') (hf : Free b h m) : Free b' h' m' := by
  refine ⟨?_, ?_, ?_, ?_⟩
  · rw [hs.p, hs.log, hf.p]
  · rw [hs.f, hs.popped, hf.f]
  · rw [hs.puts, hs.log, hf.puts]
  · rw [hs.takes, hs.popped, hf.takes]

theorem SameQueue.putIn (hs : SameQueue b b' h h' m m') (hin : PutIn b h m item) :
    PutIn b' h' m' item := by
  refine ⟨?_, ?_, ?_⟩
  · rw [hs.f, hs.popped, hin.f]
  · rw [hs.puts, hs.log, hin.puts]
  · rw [hs.takes, hs.popped, hin.takes]

theorem SameQueue.takeIn (hs : SameQueue b b' h h' m m') (hin : TakeIn b h m t) :
    TakeIn b' h' m' t := by
  refine ⟨?_, ?_, ?_, ?_⟩
  · rw [hs.p, hs.log, hin.p]
  · rw [hs.puts, hs.log, hin.puts]
  · rw [hs.takes, hs.popped, hin.takes]
  · rw [hs.popped, hin.ticket]

/-- **A step of a semaphore** matters to nobody. -/
theorem Match.same (hm : Match n b h m t c d) (hs : SameQueue b b' h h' m m') :
    Match n b' h' m' t c d := by
  cases hm with
  | idle => exact .idle
  | putEmpty item => exact .putEmpty item
  | putMutex item => exact .putMutex item
  | putRead item hin hp => exact .putRead item (hs.putIn hin) (by rw [hs.p, hs.log, hp])
  | putWrite item hin hp =>
    rw [← hs.log] at hp ⊢
    exact .putWrite item (hs.putIn hin) (hs.p.trans hp)
  | putCopy item i hin hp hi hcopied =>
    rw [← hs.offset, ← hs.log] at hcopied ⊢
    refine .putCopy item i (hs.putIn hin) (by rw [hs.p, hs.log, hp]) hi fun j hj => ?_
    rw [hs.que]
    exact hcopied j hj
  | putStored item pointer hfree => exact .putStored item pointer (hs.free hfree)
  | putFull => exact .putFull
  | takeFull item => exact .takeFull item
  | takeMutex item => exact .takeMutex item
  | takeRead item hin hf => exact .takeRead item (hs.takeIn hin) (by rw [hs.f, hs.popped, hf])
  | takeWrite item hin hf =>
    rw [← hs.popped] at hf ⊢
    exact .takeWrite item (hs.takeIn hin) (hs.f.trans hf)
  | takeCopy item v i hin hf hi hv hcopied =>
    rw [← hs.offset, ← hs.popped]
    refine .takeCopy item v i (hs.takeIn hin) (by rw [hs.f, hs.popped, hf]) hi ?_ hcopied
    rw [hs.log, hs.popped]
    exact hv
  | takeFetched item v pointer hfree hv hcopied =>
    exact .takeFetched item v pointer (hs.free hfree) (hs.log ▸ hv) hcopied
  | takeEmpty item v hv hcopied => exact .takeEmpty item v (hs.log ▸ hv) hcopied
  | ret r r' => exact .ret r r'

end

/-! ### The simulation -/

/-- **What relates the memory to the queue.** -/
structure Sim (n Q : ℕ) (s : State Pid) (a : SemQueue.State Pid Item Unit) : Prop where
  itemSize : s.bbq.itemSize = n
  queueSize : s.bbq.queueSize = Q
  mutex : s.bbq.mutex = a.shared.mutex
  empty : s.bbq.empty = a.shared.empty
  full : s.bbq.full = a.shared.full
  stored : s.history.stored = a.shared.log.length
  fetched : s.history.fetched = a.shared.popped
  puts : a.shared.log <+: s.history.puts
  slots : ∀ (k : ℕ) v, a.shared.popped ≤ k → a.shared.log[k]? = some v →
    ∀ j < n, s.bbq.que (s.bbq.offset k + j) = v j
  free : (∀ q, (a.pc q).inside = 0) → Free s.bbq s.history a.shared
  pcs : ∀ q, Match n s.bbq s.history a.shared (s.history.ticket q) (s.pc q) (a.pc q)
  received : ∀ k item, (k, item) ∈ s.history.received →
    ∃ v, a.shared.log[k]? = some v ∧ ∀ j < n, item j = v j

variable {s : State Pid} {a : SemQueue.State Pid Item Unit} {q : Pid}

/-- **A step that changes semaphores only**, from outside to outside. -/
theorem Sim.same (hs : Sim n Q s a) (hsame : SameQueue s.bbq b' s.history h' a.shared m')
    (hmutex : b'.mutex = m'.mutex) (hempty : b'.empty = m'.empty) (hfull : b'.full = m'.full)
    (hticket : h'.ticket = s.history.ticket) (hin : d.inside = (a.pc q).inside)
    (hq : Match n b' h' m' (h'.ticket q) c d)
    (hreceived : ∀ k item, (k, item) ∈ h'.received →
      ∃ v, m'.log[k]? = some v ∧ ∀ j < n, item j = v j) :
    Sim n Q ⟨b', Function.update s.pc q c, h'⟩
      ⟨m', Function.update a.pc q d, a.loc⟩ where
  itemSize := hsame.itemSize.trans hs.itemSize
  queueSize := hsame.queueSize.trans hs.queueSize
  mutex := hmutex
  empty := hempty
  full := hfull
  stored := by rw [hsame.stored, hsame.log, hs.stored]
  fetched := by rw [hsame.fetched, hsame.popped, hs.fetched]
  puts := by
    rw [hsame.log, hsame.puts]
    exact hs.puts
  slots k v hk hv := by
    rw [hsame.log] at hv
    rw [hsame.popped] at hk
    rw [hsame.que, hsame.offset]
    exact hs.slots k v hk hv
  free hout := by
    refine hsame.free (hs.free fun r => ?_)
    by_cases hrq : r = q
    · subst hrq
      rw [← hin]
      simpa using hout r
    · simpa [hrq] using hout r
  pcs r := by
    by_cases hrq : r = q
    · subst hrq
      simpa using hq
    · simp only [Function.update_of_ne hrq, hticket]
      exact (hs.pcs r).same hsame
  received := hreceived

/-- **A step of the only process inside**, or of one that enters. -/
theorem Sim.alone (hs : Sim n Q s a) (hothers : ∀ r, r ≠ q → (a.pc r).inside = 0)
    (hn : b'.itemSize = n) (hQ : b'.queueSize = Q) (hmutex : b'.mutex = m'.mutex)
    (hempty : b'.empty = m'.empty) (hfull : b'.full = m'.full)
    (hstored : h'.stored = m'.log.length) (hfetched : h'.fetched = m'.popped)
    (hputs : m'.log <+: h'.puts)
    (hslots : ∀ (k : ℕ) v, m'.popped ≤ k → m'.log[k]? = some v →
      ∀ j < n, b'.que (b'.offset k + j) = v j)
    (hlog : ∀ (k : ℕ) v, a.shared.log[k]? = some v → m'.log[k]? = some v)
    (hticket : ∀ r, r ≠ q → h'.ticket r = s.history.ticket r)
    (hreceived : h'.received = s.history.received)
    (hfree : d.inside = 0 → Free b' h' m') (hq : Match n b' h' m' (h'.ticket q) c d) :
    Sim n Q ⟨b', Function.update s.pc q c, h'⟩ ⟨m', Function.update a.pc q d, a.loc⟩ where
  itemSize := hn
  queueSize := hQ
  mutex := hmutex
  empty := hempty
  full := hfull
  stored := hstored
  fetched := hfetched
  puts := hputs
  slots := hslots
  free hout := hfree (by simpa using hout q)
  pcs r := by
    by_cases hrq : r = q
    · subst hrq
      simpa using hq
    · simp only [Function.update_of_ne hrq, hticket r hrq]
      exact (hs.pcs r).frame (hothers r hrq) hlog
  received k item hmem := by
    obtain ⟨v, hv, hcopied⟩ := hs.received k item (hreceived ▸ hmem)
    exact ⟨v, hlog k v hv, hcopied⟩

/-- Processes that may call whenever they are not in a call. -/
def anyCalls : SemQueue.Client Pid Item Unit where
  init _ := ()
  calls _ _ _ := True
  after _ _ _ := ()

/-- The queue answers a step of the memory by one step or by none. -/
def Answered (n Q : ℕ) (t : State Pid) (a : SemQueue.State Pid Item Unit) : Prop :=
  Sim n Q t a ∨ ∃ l e, (SemQueue.system (some Q) anyCalls).step a l e ∧ Sim n Q t e

theorem Answered.none (hpc : a.pc q = d)
    (hs : Sim n Q ⟨b', Function.update s.pc q c, h'⟩ ⟨a.shared, Function.update a.pc q d, a.loc⟩) :
    Answered n Q ⟨b', Function.update s.pc q c, h'⟩ a := by
  rw [← hpc, Function.update_eq_self] at hs
  exact Or.inl hs

theorem Answered.step (hadv : SemQueue.advance (some Q) a.shared (a.pc q) = some (m', d))
    (hs : Sim n Q ⟨b', Function.update s.pc q c, h'⟩ ⟨m', Function.update a.pc q d, a.loc⟩) :
    Answered n Q ⟨b', Function.update s.pc q c, h'⟩ a :=
  Or.inr ⟨.step q, _, ⟨m', d, hadv, rfl⟩, hs⟩

omit [DecidableEq Pid] in
theorem SameQueue.refl (b : BoundedBlockingQueue) (h : History Pid) (m : SemQueue.Shared Item) :
    SameQueue b b h h m m := ⟨rfl, rfl, rfl, rfl, rfl, rfl, rfl, rfl, rfl, rfl, rfl⟩

/-! ### One lemma for each kind of step -/

variable [Fintype Pid]

theorem Sim.enterPut (hs : Sim n Q s a) (hc : SemQueue.Counts (some Q) a) {k : ℕ}
    (ha : a.pc q = .putMutex item)
    (hk : SemQueue.wait s.bbq.mutex = some k) :
    Answered n Q ⟨{ s.bbq with mutex := k }, Function.update s.pc q (.putRead item),
      s.history.record s.bbq.itemSize q (.putMutex item)⟩ a := by
  have hpos : 0 < a.shared.mutex := by
    rw [← hs.mutex, SemQueue.wait_eq_some hk]
    omega
  have hfree := hs.free (hc.outside hpos)
  have hwait : SemQueue.wait a.shared.mutex = some k := hs.mutex ▸ hk
  refine .step (by rw [ha, SemQueue.advance, hwait, Option.map_some]) ?_
  refine hs.alone (fun r _ => hc.outside hpos r) hs.itemSize hs.queueSize rfl hs.empty hs.full
    hs.stored hs.fetched ?_ hs.slots (fun _ _ h => h) (fun _ _ => rfl) rfl
    (fun h => by simp [SemQueue.Pc.inside] at h) ?_
  · exact hs.puts.trans (List.prefix_append ..)
  · refine .putRead item ⟨hfree.f, ?_, hfree.takes⟩ hfree.p
    show s.history.puts ++ [item] = _
    rw [hfree.puts]

theorem Sim.enterTake (hs : Sim n Q s a) (hc : SemQueue.Counts (some Q) a) {k : ℕ}
    (ha : a.pc q = .takeMutex)
    (hk : SemQueue.wait s.bbq.mutex = some k) :
    Answered n Q ⟨{ s.bbq with mutex := k }, Function.update s.pc q (.takeRead item),
      s.history.record s.bbq.itemSize q (.takeMutex item)⟩ a := by
  have hpos : 0 < a.shared.mutex := by
    rw [← hs.mutex, SemQueue.wait_eq_some hk]
    omega
  have hfree := hs.free (hc.outside hpos)
  have hwait : SemQueue.wait a.shared.mutex = some k := hs.mutex ▸ hk
  refine .step (by rw [ha, SemQueue.advance, hwait, Option.map_some]) ?_
  refine hs.alone (fun r _ => hc.outside hpos r) hs.itemSize hs.queueSize rfl hs.empty hs.full
    hs.stored hs.fetched hs.puts hs.slots (fun _ _ h => h)
    (fun r hr => Function.update_of_ne hr ..) rfl
    (fun h => by simp [SemQueue.Pc.inside] at h) ?_
  refine .takeRead item ⟨hfree.p, hfree.puts, ?_, ?_⟩ hfree.f
  · show s.history.takes + 1 = _
    rw [hfree.takes]
  · show Function.update s.history.ticket q s.history.takes q = _
    rw [Function.update_self]
    exact hfree.takes

theorem Sim.copyPut (hs : Sim n Q s a) (hc : SemQueue.Counts (some Q) a)
    (hfit : Fits n Q s.history) {i : ℕ} (ha : a.pc q = .putIn item)
    (hin : PutIn s.bbq s.history a.shared item) (hp : s.bbq.p = a.shared.log.length + 1) (hi : i < n)
    (hcopied : ∀ j < i, s.bbq.que (s.bbq.offset a.shared.log.length + j) = item j) :
    Answered n Q
      ⟨{ s.bbq with
          que := Function.update s.bbq.que (s.bbq.offset a.shared.log.length + i) (item i) },
        Function.update s.pc q (.putCopy item (s.bbq.offset a.shared.log.length) (i + 1)),
        s.history.record s.bbq.itemSize q (.putCopy item (s.bbq.offset a.shared.log.length) i)⟩ a := by
  have hinside : (a.pc q).inside = 1 := by rw [ha]; rfl
  have hroom := hc.length_lt rfl (q := q) (by rw [ha]; rfl)
  have hlen : s.history.puts.length = a.shared.log.length + 1 := by
    rw [hin.puts, List.length_append, List.length_singleton]
  have hcopied' : ∀ j < i + 1, Function.update s.bbq.que
      (s.bbq.offset a.shared.log.length + i) (item i)
        (s.bbq.offset a.shared.log.length + j) = item j := by
    intro j hj
    by_cases hji : j = i
    · rw [hji, Function.update_self]
    · rw [Function.update_of_ne (by omega)]
      exact hcopied j (by omega)
  -- the other slots are not touched
  have hslots : ∀ (k : ℕ) v, a.shared.popped ≤ k → a.shared.log[k]? = some v → ∀ j < n,
      Function.update s.bbq.que (s.bbq.offset a.shared.log.length + i) (item i)
        (s.bbq.offset k + j) = v j := by
    intro k v hk hv j hj
    have hlt : k < a.shared.log.length := (List.getElem?_eq_some_iff.mp hv).1
    rw [Function.update_of_ne]
    · exact hs.slots k v hk hv j hj
    · exact offset_add_ne hs.itemSize hs.queueSize (hfit k (by omega)) (hfit _ (by omega)) hlt
        (by omega) hj hi
  by_cases hlast : i + 1 = n
  · -- the last byte: the item is in the queue
    have hrec : s.history.record s.bbq.itemSize q
        (.putCopy item (s.bbq.offset a.shared.log.length) i) =
          { s.history with stored := s.history.stored + 1 } := by
      rw [History.record, if_pos (by rw [hs.itemSize, hlast])]
    rw [hrec]
    refine .step (by rw [ha, SemQueue.advance]) ?_
    refine hs.alone (fun r hr => hc.alone hinside hr) hs.itemSize hs.queueSize hs.mutex hs.empty
      hs.full ?_ hs.fetched ?_ (fun k v hk hv j hj => ?_) (fun k v hv => ?_) (fun _ _ => rfl) rfl
      (fun h => by simp [SemQueue.Pc.inside] at h) ?_
    · show s.history.stored + 1 = (a.shared.log ++ [item]).length
      rw [hs.stored, List.length_append, List.length_singleton]
    · show a.shared.log ++ [item] <+: s.history.puts
      rw [hin.puts]
    · by_cases hkl : k < a.shared.log.length
      · exact hslots k v hk (by rwa [List.getElem?_append_left hkl] at hv) j hj
      · have hlen := (List.getElem?_eq_some_iff.mp hv).1
        obtain rfl : k = a.shared.log.length := by
          simp only [List.length_append, List.length_singleton] at hlen
          omega
        rw [List.getElem?_concat_length] at hv
        obtain rfl := Option.some.inj hv
        exact hcopied' j (by omega)
    · exact (List.getElem?_append_left (List.getElem?_eq_some_iff.mp hv).1).trans hv
    · rw [hlast]
      refine .putStored item _ ⟨?_, hin.f, hin.puts, hin.takes⟩
      simp [hp]
  · have hrec : s.history.record s.bbq.itemSize q
        (.putCopy item (s.bbq.offset a.shared.log.length) i) = s.history := by
      rw [History.record, if_neg (by rwa [hs.itemSize])]
    rw [hrec]
    refine .none ha ?_
    refine hs.alone (fun r hr => hc.alone hinside hr) hs.itemSize hs.queueSize hs.mutex hs.empty
      hs.full hs.stored hs.fetched hs.puts hslots (fun _ _ h => h) (fun _ _ => rfl) rfl
      (fun h => by simp [SemQueue.Pc.inside] at h) ?_
    exact .putCopy item (i + 1) ⟨hin.f, hin.puts, hin.takes⟩ hp (by omega) hcopied'

theorem Sim.copyTake (hs : Sim n Q s a) (hc : SemQueue.Counts (some Q) a) {i : ℕ}
    (ha : a.pc q = .takeIn) (hin : TakeIn s.bbq s.history a.shared (s.history.ticket q))
    (hf : s.bbq.f = a.shared.popped + 1) (hi : i < n)
    (hv : a.shared.log[a.shared.popped]? = some v) (hcopied : ∀ j < i, item j = v j) :
    Answered n Q
      ⟨s.bbq,
        Function.update s.pc q (.takeCopy
          (Function.update item i (s.bbq.que (s.bbq.offset a.shared.popped + i)))
          (s.bbq.offset a.shared.popped) (i + 1)),
        s.history.record s.bbq.itemSize q (.takeCopy item (s.bbq.offset a.shared.popped) i)⟩ a := by
  have hinside : (a.pc q).inside = 1 := by rw [ha]; rfl
  have hcopied' : ∀ j < i + 1,
      Function.update item i (s.bbq.que (s.bbq.offset a.shared.popped + i)) j = v j := by
    intro j hj
    by_cases hji : j = i
    · rw [hji, Function.update_self]
      exact hs.slots _ v le_rfl hv i hi
    · rw [Function.update_of_ne hji]
      exact hcopied j (by omega)
  by_cases hlast : i + 1 = n
  · -- the last byte: the item has left the queue
    have hrec : s.history.record s.bbq.itemSize q (.takeCopy item (s.bbq.offset a.shared.popped) i) =
        { s.history with fetched := s.history.fetched + 1 } := by
      rw [History.record, if_pos (by rw [hs.itemSize, hlast])]
    rw [hrec]
    refine .step (by rw [ha, SemQueue.advance, hv, Option.map_some]) ?_
    refine hs.alone (fun r hr => hc.alone hinside hr) hs.itemSize hs.queueSize hs.mutex hs.empty
      hs.full hs.stored ?_ hs.puts (fun k w hk hw => hs.slots k w ?_ hw) (fun _ _ h => h)
      (fun _ _ => rfl) rfl (fun h => by simp [SemQueue.Pc.inside] at h) ?_
    · show s.history.fetched + 1 = a.shared.popped + 1
      rw [hs.fetched]
    · exact (Nat.le_succ _).trans hk
    · rw [hlast] at hcopied' ⊢
      refine .takeFetched _ v _ ⟨hin.p, by simp [hf], hin.puts, hin.takes⟩ ?_ hcopied'
      rw [hin.ticket]
      exact hv
  · have hrec : s.history.record s.bbq.itemSize q (.takeCopy item (s.bbq.offset a.shared.popped) i) =
        s.history := by
      rw [History.record, if_neg (by rwa [hs.itemSize])]
    rw [hrec]
    refine .none ha ?_
    refine hs.alone (fun r hr => hc.alone hinside hr) hs.itemSize hs.queueSize hs.mutex hs.empty
      hs.full hs.stored hs.fetched hs.puts hs.slots (fun _ _ h => h) (fun _ _ => rfl) rfl
      (fun h => by simp [SemQueue.Pc.inside] at h) ?_
    exact .takeCopy _ v (i + 1) hin hf (by omega) hv hcopied'

/-- A step inside that leaves the slots alone: a load or a store of an index. -/
theorem Sim.index (hs : Sim n Q s a) (hc : SemQueue.Counts (some Q) a)
    (hinside : (a.pc q).inside = 1) (hsem : b'.mutex = s.bbq.mutex ∧ b'.empty = s.bbq.empty ∧
      b'.full = s.bbq.full) (hque : b'.que = s.bbq.que) (hsize : b'.itemSize = s.bbq.itemSize)
    (hqsize : b'.queueSize = s.bbq.queueSize)
    (hq : Match n b' s.history a.shared (s.history.ticket q) c (a.pc q)) :
    Answered n Q ⟨b', Function.update s.pc q c, s.history⟩ a := by
  obtain ⟨hmutex, hempty, hfull⟩ := hsem
  have hoffset : ∀ k : ℤ, b'.offset k = s.bbq.offset k := fun k => by
    rw [BoundedBlockingQueue.offset, hsize, hqsize]
    rfl
  refine .none rfl ?_
  refine hs.alone (fun r hr => hc.alone hinside hr) (hsize.trans hs.itemSize)
    (hqsize.trans hs.queueSize) (hmutex.trans hs.mutex) (hempty.trans hs.empty)
    (hfull.trans hs.full) hs.stored hs.fetched hs.puts (fun k v hk hv j hj => ?_) (fun _ _ h => h)
    (fun _ _ => rfl) rfl (fun h => by omega) hq
  rw [hque, hoffset]
  exact hs.slots k v hk hv j hj

theorem Sim.storePut (hs : Sim n Q s a) (hc : SemQueue.Counts (some Q) a) (hn : 0 < n)
    (ha : a.pc q = .putIn item) (hin : PutIn s.bbq s.history a.shared item) {p : ℤ}
    (hp : p = a.shared.log.length + 1) :
    Answered n Q ⟨{ s.bbq with p := p },
      Function.update s.pc q (.putCopy item (s.bbq.offset a.shared.log.length) 0), s.history⟩ a := by
  refine hs.index hc (by rw [ha]; rfl) ⟨rfl, rfl, rfl⟩ rfl rfl rfl ?_
  rw [ha]
  exact .putCopy item 0 ⟨hin.f, hin.puts, hin.takes⟩ hp hn fun j hj => absurd hj (Nat.not_lt_zero j)

theorem Sim.storeTake (hs : Sim n Q s a) (hc : SemQueue.Counts (some Q) a) (hn : 0 < n)
    (ha : a.pc q = .takeIn) (hin : TakeIn s.bbq s.history a.shared (s.history.ticket q)) {f : ℤ}
    (hf : f = a.shared.popped + 1) :
    Answered n Q ⟨{ s.bbq with f := f },
      Function.update s.pc q (.takeCopy item (s.bbq.offset a.shared.popped) 0), s.history⟩ a := by
  refine hs.index hc (by rw [ha]; rfl) ⟨rfl, rfl, rfl⟩ rfl rfl rfl ?_
  have hlt := hc.popped_lt ha
  rw [ha]
  exact .takeCopy item (a.shared.log[a.shared.popped]) 0
    ⟨hin.p, hin.puts, hin.takes, hin.ticket⟩ hf hn (List.getElem?_eq_getElem hlt)
    fun j hj => absurd hj (Nat.not_lt_zero j)

theorem Sim.leave (hs : Sim n Q s a) (hc : SemQueue.Counts (some Q) a)
    (hinside : (a.pc q).inside = 1) (hfree : Free s.bbq s.history a.shared)
    (hadv : SemQueue.advance (some Q) a.shared (a.pc q) =
      some ({ a.shared with mutex := a.shared.mutex + 1 }, d))
    (hq : Match n { s.bbq with mutex := s.bbq.mutex + 1 } s.history
      { a.shared with mutex := a.shared.mutex + 1 } (s.history.ticket q) c d) :
    Answered n Q
      ⟨{ s.bbq with mutex := s.bbq.mutex + 1 }, Function.update s.pc q c, s.history⟩ a := by
  refine .step hadv ?_
  exact hs.alone (fun r hr => hc.alone hinside hr) hs.itemSize hs.queueSize
    (by dsimp only; rw [hs.mutex]) hs.empty hs.full hs.stored hs.fetched hs.puts hs.slots
    (fun _ _ h => h) (fun _ _ => rfl) rfl (fun _ => ⟨hfree.p, hfree.f, hfree.puts, hfree.takes⟩) hq

/-- **The queue answers every step** of a process in a call. -/
theorem Sim.advance (hs : Sim n Q s a) (hc : SemQueue.Counts (some Q) a)
    (hfit : Fits n Q s.history) (hn : 0 < n) (hadv : advance s.bbq (s.pc q) = some (b', c))
    (hputs : (s.history.record s.bbq.itemSize q (s.pc q)).puts.length < 2 ^ 31) :
    Answered n Q ⟨b', Function.update s.pc q c, s.history.record s.bbq.itemSize q (s.pc q)⟩ a := by
  have hm := hs.pcs q
  generalize s.pc q = c₀ at hm hadv hputs ⊢
  generalize hdq : a.pc q = d₀ at hm
  have hinside : d₀.inside = 1 → (a.pc q).inside = 1 := fun h => hdq ▸ h
  cases hm with
  | idle => exact absurd hadv (by simp [Bbq.advance])
  | ret r r' => exact absurd hadv (by simp [Bbq.advance])
  | putEmpty item =>
    obtain ⟨k, hk, heq⟩ := Option.map_eq_some_iff.mp hadv
    obtain ⟨rfl, rfl⟩ := Prod.mk.inj heq
    have hwait : SemQueue.wait a.shared.empty = some k := hs.empty ▸ hk
    refine .step (by rw [hdq, SemQueue.advance, hwait, Option.map_some]) ?_
    exact hs.same ⟨rfl, rfl, rfl, rfl, rfl, rfl, rfl, rfl, rfl, rfl, rfl⟩ hs.mutex rfl hs.full rfl
      (by rw [hdq]; rfl) (.putMutex item) hs.received
  | putMutex item =>
    obtain ⟨k, hk, heq⟩ := Option.map_eq_some_iff.mp hadv
    obtain ⟨rfl, rfl⟩ := Prod.mk.inj heq
    exact hs.enterPut hc hdq hk
  | putRead item hin hp =>
    obtain ⟨rfl, rfl⟩ := Prod.mk.inj (Option.some.inj hadv)
    refine hs.index hc (hinside rfl) ⟨rfl, rfl, rfl⟩ rfl rfl rfl ?_
    rw [hdq, hp]
    exact .putWrite item hin hp
  | putWrite item hin hp =>
    obtain ⟨rfl, rfl⟩ := Prod.mk.inj (Option.some.inj hadv)
    have hlen : a.shared.log.length + 1 < 2 ^ 31 := by
      have : s.history.puts.length < 2 ^ 31 := hputs
      rwa [hin.puts, List.length_append, List.length_singleton] at this
    exact hs.storePut hc hn hdq hin (wrapInt_eq (by omega) (by omega))
  | putCopy item i hin hp hi hcopied =>
    rw [Bbq.advance, if_pos (by rwa [hs.itemSize])] at hadv
    obtain ⟨rfl, rfl⟩ := Prod.mk.inj (Option.some.inj hadv)
    exact hs.copyPut hc hfit hdq hin hp hi hcopied
  | putStored item pointer hfree =>
    rw [Bbq.advance, if_neg (by rw [hs.itemSize]; omega)] at hadv
    obtain ⟨rfl, rfl⟩ := Prod.mk.inj (Option.some.inj hadv)
    have hrec : s.history.record s.bbq.itemSize q (.putCopy item pointer n) = s.history := by
      rw [History.record, if_neg (by rw [hs.itemSize]; omega)]
    rw [hrec]
    exact hs.leave hc (hinside rfl) hfree (by rw [hdq]; rfl) .putFull
  | putFull =>
    obtain ⟨rfl, rfl⟩ := Prod.mk.inj (Option.some.inj hadv)
    refine .step (by rw [hdq]; rfl) ?_
    exact hs.same ⟨rfl, rfl, rfl, rfl, rfl, rfl, rfl, rfl, rfl, rfl, rfl⟩ hs.mutex hs.empty
      (by dsimp only; rw [hs.full]) rfl (by rw [hdq]; rfl) (.ret none none) hs.received
  | takeFull item =>
    obtain ⟨k, hk, heq⟩ := Option.map_eq_some_iff.mp hadv
    obtain ⟨rfl, rfl⟩ := Prod.mk.inj heq
    have hwait : SemQueue.wait a.shared.full = some k := hs.full ▸ hk
    refine .step (by rw [hdq, SemQueue.advance, hwait, Option.map_some]) ?_
    exact hs.same ⟨rfl, rfl, rfl, rfl, rfl, rfl, rfl, rfl, rfl, rfl, rfl⟩ hs.mutex hs.empty rfl rfl
      (by rw [hdq]; rfl) (.takeMutex item) hs.received
  | takeMutex item =>
    obtain ⟨k, hk, heq⟩ := Option.map_eq_some_iff.mp hadv
    obtain ⟨rfl, rfl⟩ := Prod.mk.inj heq
    exact hs.enterTake hc hdq hk
  | takeRead item hin hf =>
    obtain ⟨rfl, rfl⟩ := Prod.mk.inj (Option.some.inj hadv)
    refine hs.index hc (hinside rfl) ⟨rfl, rfl, rfl⟩ rfl rfl rfl ?_
    rw [hdq, hf]
    exact .takeWrite item hin hf
  | takeWrite item hin hf =>
    obtain ⟨rfl, rfl⟩ := Prod.mk.inj (Option.some.inj hadv)
    have hlt := hc.popped_lt hdq
    have hlen : a.shared.log.length < 2 ^ 31 := by
      have : s.history.puts.length < 2 ^ 31 := hputs
      rwa [hin.puts] at this
    exact hs.storeTake hc hn hdq hin (wrapInt_eq (by omega) (by omega))
  | takeCopy item v i hin hf hi hv hcopied =>
    rw [Bbq.advance, if_pos (by rwa [hs.itemSize])] at hadv
    obtain ⟨rfl, rfl⟩ := Prod.mk.inj (Option.some.inj hadv)
    exact hs.copyTake hc hdq hin hf hi hv hcopied
  | takeFetched item v pointer hfree hv hcopied =>
    rw [Bbq.advance, if_neg (by rw [hs.itemSize]; omega)] at hadv
    obtain ⟨rfl, rfl⟩ := Prod.mk.inj (Option.some.inj hadv)
    have hrec : s.history.record s.bbq.itemSize q (.takeCopy item pointer n) = s.history := by
      rw [History.record, if_neg (by rw [hs.itemSize]; omega)]
    rw [hrec]
    exact hs.leave hc (hinside rfl) hfree (by rw [hdq]; rfl) (.takeEmpty item v hv hcopied)
  | takeEmpty item v hv hcopied =>
    obtain ⟨rfl, rfl⟩ := Prod.mk.inj (Option.some.inj hadv)
    refine .step (by rw [hdq]; rfl) ?_
    refine hs.same ⟨rfl, rfl, rfl, rfl, rfl, rfl, rfl, rfl, rfl, rfl, rfl⟩ hs.mutex
      (by dsimp only; rw [hs.empty]) hs.full rfl (by rw [hdq]; rfl) (.ret _ _) fun k w hmem => ?_
    rcases List.mem_append.mp hmem with hmem | hmem
    · exact hs.received k w hmem
    · obtain ⟨rfl, rfl⟩ := Prod.mk.inj (List.mem_singleton.mp hmem)
      exact ⟨v, hv, hcopied⟩

/-! ### Every run -/

omit [DecidableEq Pid] [Fintype Pid] in
theorem Fits.mono {h' : History Pid} (hfit : Fits n Q h') (hle : h.puts.length ≤ h'.puts.length) :
    Fits n Q h :=
  fun k hk => hfit k (hk.trans_le hle)

section

omit [Fintype Pid]

theorem length_record_le (h : History Pid) (k : ℕ) (q : Pid) (c : Pc) :
    h.puts.length ≤ (h.record k q c).puts.length := by
  cases c with
  | putCopy item pointer i | takeCopy item pointer i =>
    rw [History.record]
    split <;> exact le_rfl
  | _ => simp [History.record]

theorem Sim.call (hs : Sim n Q s a) (op : SemQueue.Op Item) (hq : s.pc q = .idle)
    (hc : Match n s.bbq s.history a.shared (s.history.ticket q) c (op.enter (some Q)))
    (hout : (op.enter (some Q)).inside = 0) :
    Answered n Q { s with pc := Function.update s.pc q c } a := by
  have hd : a.pc q = .idle := by
    have hm := hs.pcs q
    rw [hq] at hm
    generalize a.pc q = d at hm ⊢
    cases hm
    rfl
  refine Or.inr ⟨.call q op, _, ⟨hd, trivial, rfl⟩, ?_⟩
  exact hs.same (.refl ..) hs.mutex hs.empty hs.full rfl (by rw [hout, hd]; rfl) hc hs.received

theorem Sim.back (hs : Sim n Q s a) {r : Option Item} (hq : s.pc q = .ret r) :
    Answered n Q { s with pc := Function.update s.pc q .idle } a := by
  obtain ⟨r', hd⟩ : ∃ r', a.pc q = .ret r' := by
    have hm := hs.pcs q
    rw [hq] at hm
    generalize a.pc q = d at hm ⊢
    cases hm with
    | ret _ r' => exact ⟨r', rfl⟩
  refine Or.inr ⟨.ret q, _, ⟨r', hd, rfl⟩, ?_⟩
  rw [Subsingleton.elim (Function.update a.loc q _) a.loc]
  exact hs.same (.refl ..) hs.mutex hs.empty hs.full rfl (by rw [hd]; rfl) .idle hs.received

end

/-- **The memory is simulated by the queue**, for as long as fewer than `2^31` items have
been put and the offsets of their slots fit in an `int`. -/
theorem simulation (hn : 0 < n) :
    System.Simulation (system n Q)
      (SemQueue.system (some Q) (anyCalls : SemQueue.Client Pid Item Unit))
      fun s a => s.history.puts.length < 2 ^ 31 → Fits n Q s.history → Sim n Q s a := by
  refine ⟨fun s hs => ?_, fun s l t a _ ha hs ht => ?_⟩
  · obtain ⟨⟨mem, hb⟩, hpc, hputs, hstored, htakes, hfetched, hreceived⟩ := hs
    refine ⟨⟨⟨1, Q, 0, [], 0⟩, fun _ => .idle, fun _ => ()⟩, ⟨rfl, fun _ => rfl, rfl⟩,
      fun _ _ => ?_⟩
    refine ⟨by rw [hb]; rfl, by rw [hb]; rfl, by rw [hb]; rfl, by rw [hb]; rfl, by rw [hb]; rfl,
      hstored, hfetched, List.nil_prefix, fun k v _ hv => by simp at hv, fun _ => ?_,
      fun q => ?_, fun k item hmem => by simp [hreceived] at hmem⟩
    · exact ⟨by rw [hb]; rfl, by rw [hb]; rfl, hputs, htakes⟩
    · rw [hpc]
      exact .idle
  · have hc := SemQueue.Counts.of_reachable ha
    have hstep : t.history.puts.length < 2 ^ 31 → Fits n Q t.history → Answered n Q t a := by
      intro hlt hfit
      cases l with
      | put q item =>
        obtain ⟨hq, rfl⟩ := ht
        exact (hs hlt hfit).call (.put item) hq (.putEmpty item) rfl
      | take q item =>
        obtain ⟨hq, rfl⟩ := ht
        exact (hs hlt hfit).call .take hq (.takeFull item) rfl
      | step q =>
        obtain ⟨b', c, hadv, rfl⟩ := ht
        have hle := length_record_le s.history s.bbq.itemSize q (s.pc q)
        have hfit := hfit.mono hle
        exact (hs (hle.trans_lt hlt) hfit).advance hc hfit hn hadv hlt
      | ret q =>
        obtain ⟨r, hq, rfl⟩ := ht
        exact (hs hlt hfit).back hq
    by_cases hlt : t.history.puts.length < 2 ^ 31 ∧ Fits n Q t.history
    · obtain h | ⟨l, e, hstep, h⟩ := hstep hlt.1 hlt.2
      · exact Or.inl fun _ _ => h
      · exact Or.inr ⟨l, e, hstep, fun _ _ => h⟩
    · exact Or.inl fun h h' => absurd ⟨h, h'⟩ hlt

omit [DecidableEq Pid] in
/-- The indices, wherever the processes stand. -/
theorem Sim.indices (hs : Sim n Q s a) (hc : SemQueue.Counts (some Q) a) :
    0 ≤ s.bbq.p - s.bbq.f ∧ s.bbq.p - s.bbq.f ≤ Q := by
  have hle := hc.popped_le
  have hle' := hc.length_le rfl
  by_cases hout : ∀ q, (a.pc q).inside = 0
  · have hfree := hs.free hout
    rw [hfree.p, hfree.f]
    omega
  · obtain ⟨q, hq⟩ := not_forall.mp hout
    have hm := hs.pcs q
    have hroom : (a.pc q).room = 1 → _ := hc.length_lt rfl
    have hitem := hc.popped_lt (q := q)
    generalize a.pc q = d at hm hq hroom hitem
    generalize s.pc q = c at hm
    cases hm with
    | putRead item hin hp | putWrite item hin hp =>
      rw [hp, hin.f]
      omega
    | putCopy item i hin hp hi hcopied =>
      have := hroom rfl
      rw [hp, hin.f]
      omega
    | takeRead item hin hf | takeWrite item hin hf =>
      rw [hin.p, hf]
      omega
    | takeCopy item v i hin hf hi hv hcopied =>
      have := hitem rfl
      rw [hin.p, hf]
      omega
    | putStored item pointer hfree | takeFetched item v pointer hfree hv hcopied =>
      rw [hfree.p, hfree.f]
      omega
    | _ => simp [SemQueue.Pc.inside] at hq

/-- **`bbq` is a queue** as long as the offsets of the slots fit in an `int`: for any number
of processes and every interleaving of their steps, with fewer than `2^31` puts. -/
theorem bbq_fifo (hn : 1 ≤ n) (hs : (system n Q).Reachable s)
    (hputs : s.history.puts.length < 2 ^ 31) (hfit : Fits n Q s.history) : Fifo s := by
  obtain ⟨a, ha, hsim⟩ := (simulation hn).reachable hs
  have hsim := hsim hputs hfit
  have hc := SemQueue.Counts.of_reachable ha
  obtain ⟨hnonneg, hle⟩ := hsim.indices hc
  have hget : ∀ (k : ℕ) v, a.shared.log[k]? = some v → s.history.puts[k]? = some v := by
    intro k v hv
    obtain ⟨rest, hrest⟩ := hsim.puts
    rw [← hrest, List.getElem?_append_left (List.getElem?_eq_some_iff.mp hv).1, hv]
  refine ⟨fun q r hq hr => ?_, hnonneg, hsim.queueSize.symm ▸ hle, fun k hk hk' => ?_,
    fun q hq => ?_, fun k item hmem => ?_⟩
  · by_contra hqr
    have hq := (hsim.pcs q).inside_iff.mp hq
    have hr := (hsim.pcs r).inside_iff.mp hr
    have := hc.alone hr hqr
    omega
  · rw [hsim.fetched] at hk
    rw [hsim.stored] at hk'
    have hv := List.getElem?_eq_getElem hk'
    refine ⟨_, hget k _ hv, fun j hj => hsim.slots k _ hk hv j (hsim.itemSize ▸ hj)⟩
  · have hm := hsim.pcs q
    rw [hsim.stored]
    generalize a.pc q = d at hm
    generalize s.pc q = c at hm hq
    cases hm with
    | takeCopy item v i hin hf hi hv hcopied =>
      rw [hin.ticket]
      exact (List.getElem?_eq_some_iff.mp hv).1
    | takeFetched item v pointer hfree hv hcopied => exact (List.getElem?_eq_some_iff.mp hv).1
    | _ => simp [Pc.reading] at hq
  · obtain ⟨v, hv, hcopied⟩ := hsim.received k item hmem
    exact ⟨v, hget k v hv, hsim.itemSize ▸ hcopied⟩

/-! ### A process on its own -/

section Solo

variable {g : History Unit} {c' : Pc} {pointer : ℤ} {que : ℤ → UInt8} {i e : ℕ}

theorem reachable_advance (hr : (system n Q).Reachable ⟨b, fun _ => c, g⟩)
    (hadv : advance b c = some (b', c')) :
    (system n Q).Reachable ⟨b', fun _ => c', g.record b.itemSize () c⟩ := by
  have hpc : Function.update (fun _ : Unit => c) () c' = fun _ => c' :=
    funext fun _ => Function.update_self ..
  rw [← hpc]
  exact hr.step (l := .step ()) ⟨b', c', hadv, rfl⟩

/-- The memory behind a `memcpy` of the first `i` bytes of `item`. -/
def copied (que : ℤ → UInt8) (pointer : ℤ) (item : Item) (i : ℕ) : ℤ → UInt8 :=
  fun x => if pointer ≤ x ∧ x < pointer + i then item (x - pointer).toNat else que x

theorem copied_zero : copied que pointer item 0 = que := by
  funext x
  rw [copied, if_neg]
  omega

theorem update_copied :
    Function.update (copied que pointer item i) (pointer + i) (item i) =
      copied que pointer item (i + 1) := by
  funext x
  rw [Function.update_apply, copied, copied]
  by_cases hx : x = pointer + i
  · subst hx
    rw [if_pos rfl, if_pos (by omega)]
    congr
    omega
  · rw [if_neg hx]
    refine if_congr ?_ rfl rfl
    omega

theorem reachable_bytes (hr : (system n Q).Reachable ⟨b, fun _ => .putCopy item pointer 0, g⟩)
    (hi : i < b.itemSize) :
    (system n Q).Reachable
      ⟨{ b with que := copied b.que pointer item i }, fun _ => .putCopy item pointer i, g⟩ := by
  induction i with
  | zero =>
    rw [copied_zero]
    exact hr
  | succ i ih =>
    have hstep := reachable_advance (ih (by omega)) (if_pos (by dsimp only; omega))
    rw [History.record, if_neg (by dsimp only; omega)] at hstep
    rw [← update_copied]
    exact hstep

theorem reachable_memcpy (hr : (system n Q).Reachable ⟨b, fun _ => .putCopy item pointer 0, g⟩)
    (hn : 0 < b.itemSize) :
    (system n Q).Reachable
      ⟨{ b with que := copied b.que pointer item b.itemSize },
        fun _ => .putCopy item pointer b.itemSize, { g with stored := g.stored + 1 }⟩ := by
  obtain ⟨k, hk⟩ : ∃ k, b.itemSize = k + 1 := Nat.exists_eq_add_one.mpr hn
  have hlast := reachable_advance (reachable_bytes hr (i := k) (by omega))
    (if_pos (by dsimp only; omega))
  rw [History.record, if_pos hk.symm, update_copied, ← hk] at hlast
  exact hlast

theorem reachable_enter (hr : (system n Q).Reachable ⟨b, fun _ => .idle, g⟩) (hmutex : b.mutex = 1)
    (hempty : b.empty = e + 1) (item : Item) :
    (system n Q).Reachable
      ⟨{ b with mutex := 0, empty := e, p := wrapInt (b.p + 1) },
        fun _ => .putCopy item (b.offset b.p) 0, { g with puts := g.puts ++ [item] }⟩ := by
  have hpc : Function.update (fun _ : Unit => Pc.idle) () (.putEmpty item) =
      fun _ => .putEmpty item := funext fun _ => Function.update_self ..
  have hcall : (system n Q).Reachable (⟨b, fun _ => .putEmpty item, g⟩ : State Unit) := by
    rw [← hpc]
    exact hr.step (l := .put () item) ⟨rfl, rfl⟩
  have hwait : advance b (.putEmpty item) = some ({ b with empty := e }, .putMutex item) := by
    rw [advance, hempty]
    rfl
  have henter : advance { b with empty := e } (.putMutex item) =
      some ({ b with empty := e, mutex := 0 }, .putRead item) := by
    show (SemQueue.wait b.mutex).map _ = _
    rw [hmutex]
    rfl
  have hload := reachable_advance (reachable_advance (reachable_advance hcall hwait) henter) rfl
  exact reachable_advance hload rfl

theorem reachable_leave
    (hr : (system n Q).Reachable ⟨b, fun _ => .putCopy item pointer b.itemSize, g⟩) :
    (system n Q).Reachable
      ⟨{ b with mutex := b.mutex + 1, full := b.full + 1 }, fun _ => .idle, g⟩ := by
  have hleave := reachable_advance hr (if_neg (lt_irrefl _))
  rw [History.record, if_neg (by omega)] at hleave
  have hpc : Function.update (fun _ : Unit => Pc.ret none) () .idle = fun _ => .idle :=
    funext fun _ => Function.update_self ..
  rw [← hpc]
  exact (reachable_advance hleave rfl).step (l := .ret ()) ⟨none, rfl, rfl⟩

/-- **A whole `bbq_put`**, with nobody else around. -/
theorem reachable_put (hr : (system n Q).Reachable ⟨b, fun _ => .idle, g⟩) (hmutex : b.mutex = 1)
    (hempty : b.empty = e + 1) (hn : 0 < b.itemSize) (item : Item) :
    (system n Q).Reachable
      ⟨{ b with
          mutex := 1
          empty := e
          full := b.full + 1
          p := wrapInt (b.p + 1)
          que := copied b.que (b.offset b.p) item b.itemSize },
        fun _ => .idle, { g with puts := g.puts ++ [item], stored := g.stored + 1 }⟩ :=
  reachable_leave (reachable_memcpy (reachable_enter hr hmutex hempty item) hn)

/-- An empty queue of `Q` items of `n` bytes. -/
def emptyQueue (n Q : ℕ) : State Unit :=
  ⟨bbqInit ⟨0, 0, 0, 0, 0, 0, 0, fun _ => 0⟩ n Q, fun _ => .idle, ⟨[], 0, 0, 0, fun _ => 0, []⟩⟩

theorem reachable_emptyQueue : (system n Q).Reachable (emptyQueue n Q) :=
  System.Reachable.of_init ⟨⟨_, rfl⟩, fun _ => rfl, rfl, rfl, rfl, rfl, rfl⟩

end Solo

/-! ### Two processes -/

/-- The steps, computed. -/
def next (s : State Pid) : Label Pid → Option (State Pid)
  | .put q item =>
    match s.pc q with
    | .idle => some { s with pc := Function.update s.pc q (.putEmpty item) }
    | _ => none
  | .take q item =>
    match s.pc q with
    | .idle => some { s with pc := Function.update s.pc q (.takeFull item) }
    | _ => none
  | .step q => (advance s.bbq (s.pc q)).map fun r =>
      ⟨r.1, Function.update s.pc q r.2, s.history.record s.bbq.itemSize q (s.pc q)⟩
  | .ret q =>
    match s.pc q with
    | .ret _ => some { s with pc := Function.update s.pc q .idle }
    | _ => none

omit [Fintype Pid] in
theorem step_of_next {s t : State Pid} {l : Label Pid} (h : next s l = some t) :
    (system n Q).step s l t := by
  cases l with
  | put q item | take q item =>
    simp only [next] at h
    split at h
    · exact ⟨‹_›, (Option.some.inj h).symm⟩
    · exact absurd h (by simp)
  | ret q =>
    simp only [next] at h
    split at h
    · exact ⟨_, ‹_›, (Option.some.inj h).symm⟩
    · exact absurd h (by simp)
  | step q =>
    obtain ⟨⟨b', c'⟩, hadv, rfl⟩ := Option.map_eq_some_iff.mp h
    exact ⟨b', c', hadv, rfl⟩

/-- Two items of two bytes are put by one process and taken by another, which waits for the mutex
while the second one is stored. -/
def passed (p q : Fin 2) : List (Label (Fin 2)) :=
  .put p (fun j => if j = 0 then 6 else 7) :: List.replicate 8 (.step p) ++
    [.ret p, .put p (fun j => if j = 0 then 8 else 9), .step p, .step p, .step p,
      .take q (fun _ => 0), .step q] ++ List.replicate 5 (.step p) ++
    List.replicate 7 (.step q) ++ [.ret q, .take q fun _ => 0] ++ List.replicate 8 (.step q)

theorem bbq_fifo_passed : ∃ s : State (Fin 2), (system 2 2).Reachable s ∧ Fifo s ∧
    s.history.received.map (fun r => (r.1, r.2 0, r.2 1)) = [(0, 6, 7), (1, 8, 9)] := by
  let empty : State (Fin 2) :=
    ⟨bbqInit ⟨0, 0, 0, 0, 0, 0, 0, fun _ => 0⟩ 2 2, fun _ => .idle, ⟨[], 0, 0, 0, fun _ => 0, []⟩⟩
  have hrun : ((passed 0 1).foldlM next empty).any (fun s => s.history.puts.length = 2 ∧
      s.history.received.map (fun r => (r.1, r.2 0, r.2 1)) = [(0, 6, 7), (1, 8, 9)]) = true := by
    decide +kernel
  obtain ⟨s, hs, hend⟩ := (Option.any_eq_true _ _).mp hrun
  obtain ⟨hputs, hreceived⟩ := of_decide_eq_true hend
  have hreach : (system 2 2).Reachable s :=
    ⟨empty, passed 0 1, ⟨⟨_, rfl⟩, fun _ => rfl, rfl, rfl, rfl, rfl, rfl⟩,
      .of_foldlM (fun _ _ _ => step_of_next) hs⟩
  have hfit : Fits 2 2 s.history := fun k _ => by
    have hmod := Nat.mod_lt k (show 0 < 2 by decide)
    omega
  exact ⟨s, hreach, bbq_fifo (by decide) hreach (by omega) hfit, hreceived⟩

/-- **A third item of `2^31 - 1` bytes** is stored two bytes in front of the first one,
which nobody has taken. -/
theorem bbq_put_overwrites : ¬ ∀ s : State Unit, (system (2 ^ 31 - 1) 3).Reachable s →
    s.history.puts.length < 2 ^ 31 → Fifo s := by
  intro hfifo
  have h₁ := reachable_put (reachable_emptyQueue (n := 2 ^ 31 - 1) (Q := 3)) rfl rfl (by decide)
    fun _ => 0
  have h₂ := reachable_put h₁ rfl rfl (by decide) fun _ => 0
  have h₃ := reachable_put h₂ rfl rfl (by decide) fun _ => 1
  have hf := hfifo _ h₃ (by decide)
  obtain ⟨item, hitem, hkept⟩ := hf.kept 0 (Nat.zero_le _) (by decide)
  obtain rfl := Option.some.inj hitem
  have hbyte := hkept 0 (by decide)
  -- the third item is at the offset -2, so that its third byte lies on the first item
  change copied _ _ (fun _ => 1) _ _ = (0 : UInt8) at hbyte
  rw [copied, if_pos] at hbyte
  · exact absurd hbyte (by decide)
  · simp only [bbqInit, BoundedBlockingQueue.offset, wrapInt]
    decide

end CppProgramming.Bbq
