import CppProgramming.Lib.SemQueue
import Mathlib.Algebra.BigOperators.Fin
import Mathlib.Algebra.Order.Group.Multiset
import Mathlib.Data.Fintype.Sum

/-!
# The stop objects

`producer_proc` and `consumer_proc` of `main.cpp`, as clients of the queue: each of `n`
producers puts its `m` items and then one stop object, and each of `n` consumers takes
until it gets a stop object.

That nobody waits forever is a matter of counting stop objects.  A consumer ends with
exactly one of them, so that `n` are needed for all consumers to end, and as long as a
producer has not put its own there are fewer.  That nothing is left in the queue is
a matter of order: each producer's stop object is the last that it puts, so that a stop
object is the last of all once everything is put.
-/

namespace CppProgramming.ProducerConsumer.StopObject

open CppProgramming.Lib CppProgramming.Lib.SemQueue

structure Node where
  author : ℤ
  id : ℤ
deriving DecidableEq

/-- What a process keeps: the producer how many calls of `bbq_put` lie behind it, the
consumer what it took. -/
inductive Proc
  | producer (i : ℕ)
  | consumer (taken : List Node)
  | consumerEnd (taken : List Node)

def Proc.taken : Proc → List Node
  | .producer _ => []
  | .consumer taken | .consumerEnd taken => taken

/-- The producers, then the consumers. -/
abbrev Pid (n : ℕ) := Fin n ⊕ Fin n

variable {n m : ℕ}

/-- What `producer_proc(id)` puts by its `i`-th call. -/
def producerNode (m : ℕ) (id : Fin n) (i : ℕ) : Node :=
  if i < m then ⟨(id : ℕ), i⟩ else ⟨-1, 0⟩

/-- `producer_proc` and `consumer_proc`; `m` is `item_num`. -/
def client (n m : ℕ) : Client (Pid n) Node Proc where
  init
    | .inl _ => .producer 0
    | .inr _ => .consumer []
  calls
    | .inl id, .producer i, .put node => i ≤ m ∧ node = producerNode m id i
    | .inr _, .consumer _, .take => True
    | _, _, _ => False
  after
    | .inl _, .producer i, _ => .producer (i + 1)
    | .inr _, .consumer taken, some node =>
      if node.author ≠ -1 then .consumer (taken ++ [node]) else .consumerEnd (taken ++ [node])
    | _, l, _ => l

instance (q : Pid n) (l : Proc) (op : Op Node) : Decidable ((client n m).calls q l op) :=
  match q, l, op with
  | .inl id, .producer i, .put node =>
    inferInstanceAs (Decidable (i ≤ m ∧ node = producerNode m id i))
  | .inr _, .consumer _, .take => inferInstanceAs (Decidable True)
  | .inl _, .producer _, .take | .inl _, .consumer _, _ | .inl _, .consumerEnd _, _
  | .inr _, .producer _, _ | .inr _, .consumer _, .put _ | .inr _, .consumerEnd _, _ =>
    inferInstanceAs (Decidable False)

abbrev State (n : ℕ) := SemQueue.State (Pid n) Node Proc

/-- A process has returned. -/
def Exited (m : ℕ) (s : State n) (q : Pid n) : Prop :=
  s.pc q = .idle ∧
    match s.loc q with
    | .producer i => m < i
    | .consumer _ => False
    | .consumerEnd _ => True

/-- **What is left when all have returned**: nothing in the queue, each ordinary item with
one consumer, once, and one stop object with each consumer. -/
structure Drained (m : ℕ) (s : State n) : Prop where
  empty : s.shared.queue = []
  once : ∀ (id : Fin n) (i : ℕ), i < m →
    ∑ c : Fin n, (s.loc (.inr c)).taken.count ⟨(id : ℕ), i⟩ = 1
  stops : ∀ c : Fin n, (s.loc (.inr c)).taken.countP (fun node => node.author = -1) = 1

variable {cap : Option ℕ} {s t : State n} {q : Pid n}

/-! ### The books -/

/-- What a producer behind `i` calls has yet to put. -/
def rest (m : ℕ) : Pid n → Proc → Multiset Node
  | .inl id, .producer i => ((List.range' i (m + 1 - i)).map (producerNode m id) : List Node)
  | _, _ => 0

def taken : Pid n → Proc → Multiset Node
  | .inl _, _ => 0
  | .inr _, l => (l.taken : Multiset Node)

theorem accounts : Accounts (client n m) (rest m) taken := by
  refine ⟨fun q => ?_, fun q l v hcall => ?_, fun q l v hcall => ?_⟩
  · cases q <;> rfl
  · cases q with
    | inr c => cases l <;> exact hcall.elim
    | inl id =>
      cases l with
      | consumer _ | consumerEnd _ => exact hcall.elim
      | producer i =>
        obtain ⟨hi, rfl⟩ := hcall
        refine ⟨?_, rfl⟩
        show ((List.range' i (m + 1 - i)).map (producerNode m id) : Multiset Node) =
          {producerNode m id i} + ((List.range' (i + 1) (m + 1 - (i + 1))).map (producerNode m id) :
            Multiset Node)
        rw [show m + 1 - i = m + 1 - (i + 1) + 1 by omega, List.range'_succ, List.map_cons,
          ← Multiset.cons_coe, Multiset.singleton_add]
  · cases q with
    | inl id => cases l <;> exact hcall.elim
    | inr c =>
      cases l with
      | producer _ | consumerEnd _ => exact hcall.elim
      | consumer ts =>
        refine ⟨rfl, ?_⟩
        show (((if v.author ≠ -1 then Proc.consumer (ts ++ [v]) else .consumerEnd (ts ++ [v])).taken :
          List Node) : Multiset Node) = {v} + (ts : Multiset Node)
        rw [add_comm, ← Multiset.coe_singleton, Multiset.coe_add]
        split <;> rfl

/-! ### Stop objects -/

/-- The number of stop objects. -/
def stops (nodes : Multiset Node) : ℕ := nodes.countP fun node => node.author = -1

theorem stops_add (a b : Multiset Node) : stops (a + b) = stops a + stops b :=
  Multiset.countP_add ..

theorem stops_sum (f : Pid n → Multiset Node) : stops (∑ q, f q) = ∑ q, stops (f q) :=
  map_sum (Multiset.countPAddMonoidHom fun node : Node => node.author = -1) f _

theorem author_producerNode {id : Fin n} {i : ℕ} :
    (producerNode m id i).author = -1 ↔ m ≤ i := by
  rw [producerNode]
  split <;> simp <;> omega

theorem stops_rest {id : Fin n} {i : ℕ} (hi : i ≤ m) : stops (rest m (.inl id) (.producer i)) = 1 := by
  show Multiset.countP _ ((List.range' i (m + 1 - i)).map (producerNode m id) : Multiset Node) = 1
  rw [Multiset.coe_countP, List.countP_map, show m + 1 - i = m - i + 1 by omega, List.range'_concat,
    List.countP_append]
  have hbefore : (List.range' i (m - i)).countP
      ((fun node => decide (node.author = -1)) ∘ producerNode m id) = 0 := by
    refine List.countP_eq_zero.mpr fun j hj => ?_
    have := (List.mem_range'_1.mp hj).2
    simp only [Function.comp_apply, decide_eq_true_eq, author_producerNode]
    omega
  have hlast : ((fun node => decide (node.author = -1)) ∘ producerNode m id)
      (i + 1 * (m - i)) = true := by
    simp only [Function.comp_apply, decide_eq_true_eq, author_producerNode]
    omega
  rw [hbefore, List.countP_singleton, if_pos hlast]

theorem rest_end {id : Fin n} {i : ℕ} (hi : m < i) : rest m (.inl id) (.producer i) = 0 := by
  show ((List.range' i (m + 1 - i)).map (producerNode m id) : Multiset Node) = 0
  rw [Nat.sub_eq_zero_of_le hi]
  rfl

theorem sum_stops_rest : ∑ q, stops (rest m q ((client n m).init q)) = n := by
  rw [Fintype.sum_sum_type]
  have hproducers : ∀ id : Fin n, stops (rest m (.inl id) ((client n m).init (.inl id))) = 1 :=
    fun id => stops_rest (Nat.zero_le m)
  have hconsumers : ∀ c : Fin n, stops (rest m (.inr c) ((client n m).init (.inr c))) = 0 :=
    fun c => rfl
  rw [Finset.sum_congr rfl fun id _ => hproducers id, Finset.sum_congr rfl fun c _ => hconsumers c]
  simp

/-- What is known of a process by what it keeps. -/
def Sound (m : ℕ) : Pid n → Proc → Prop
  | .inl _, .producer i => i ≤ m + 1
  | .inr _, .consumer ts => ts.countP (fun node => node.author = -1) = 0
  | .inr _, .consumerEnd ts => ts.countP (fun node => node.author = -1) = 1
  | _, _ => False

theorem sound (hs : (system cap (client n m)).Reachable s) (q : Pid n) : Sound m q (s.loc q) := by
  refine locals (fun q => ?_) (fun q l v hl hcall => ?_) (fun q l v hl hcall => ?_) hs q
  · cases q with
    | inl id => exact Nat.zero_le _
    | inr c => rfl
  · cases q with
    | inr c => cases l <;> exact hcall.elim
    | inl id =>
      cases l with
      | consumer _ | consumerEnd _ => exact hl.elim
      | producer i => exact Nat.succ_le_succ hcall.1
  · cases q with
    | inl id => cases l <;> exact hcall.elim
    | inr c =>
      cases l with
      | producer _ => exact hl.elim
      | consumerEnd _ => exact hcall.elim
      | consumer ts =>
        have hts : ts.countP (fun node => node.author = -1) = 0 := hl
        by_cases hv : v.author = -1
        · show Sound m (.inr c) (if v.author ≠ -1 then _ else _)
          rw [if_neg (not_not.mpr hv)]
          show (ts ++ [v]).countP _ = 1
          rw [List.countP_append, hts, List.countP_singleton, if_pos (by simpa using hv)]
        · show Sound m (.inr c) (if v.author ≠ -1 then _ else _)
          rw [if_pos hv]
          show (ts ++ [v]).countP _ = 0
          rw [List.countP_append, hts, List.countP_singleton, if_neg (by simpa using hv)]

/-- The stop objects that are put and those that are not yet. -/
theorem stops_put (hs : (system cap (client n m)).Reachable s) :
    stops s.shared.log +
      ∑ q, stops (pending (client n m) (rest m) q (s.loc q) (s.pc q)) = n := by
  have hput := congrArg stops (Balanced.of_reachable accounts hs).put
  rwa [stops_add, stops_sum, stops_sum, sum_stops_rest] at hput

theorem stops_popped (hs : (system cap (client n m)).Reachable s) :
    stops (s.shared.log.take s.shared.popped : List Node) =
      ∑ q, stops (received taken q (s.loc q) (s.pc q)) := by
  have hpopped := congrArg stops (Balanced.of_reachable accounts hs).popped
  rwa [stops_sum] at hpopped

theorem stops_lt (hs : (system cap (client n m)).Reachable s)
    (hq : 0 < stops (pending (client n m) (rest m) q (s.loc q) (s.pc q))) :
    stops s.shared.log < n := by
  have hle := Finset.single_le_sum
    (f := fun q => stops (pending (client n m) (rest m) q (s.loc q) (s.pc q)))
    (fun _ _ => Nat.zero_le _) (Finset.mem_univ q)
  have hput := stops_put hs
  omega

/-- A producer in a call that is not its last has its stop object left. -/
theorem stops_pending_pushed {l : Proc} {v : Node} (hcall : (client n m).calls q l (.put v))
    (hv : v.author ≠ -1) : 0 < stops (pending (client n m) (rest m) q l .putPushed) := by
  cases q with
  | inr c => cases l <;> exact hcall.elim
  | inl id =>
    cases l with
    | consumer _ | consumerEnd _ => exact hcall.elim
    | producer i =>
      obtain ⟨hi, rfl⟩ := hcall
      have him : i + 1 ≤ m := by
        rw [Ne, author_producerNode] at hv
        omega
      show 0 < stops (0 + rest m (.inl id) (.producer (i + 1)))
      rw [zero_add, stops_rest him]
      exact one_pos

/-- A producer that waits for room has its stop object left. -/
theorem stops_pending_waiting {l : Proc} {v : Node} (hcall : (client n m).calls q l (.put v)) :
    0 < stops (pending (client n m) (rest m) q l (.putEmpty v)) := by
  have hrest : pending (client n m) (rest m) q l ((Op.put v).enter (some 0)) = rest m q l :=
    pending_enter accounts hcall
  change pending (client n m) (rest m) q l (.putEmpty v) = rest m q l at hrest
  rw [hrest]
  cases q with
  | inr c => cases l <;> exact hcall.elim
  | inl id =>
    cases l with
    | consumer _ | consumerEnd _ => exact hcall.elim
    | producer i =>
      rw [stops_rest hcall.1]
      exact one_pos

/-- **The last item of all is a stop object**, as long as all stop objects are put. -/
theorem stop_last (hs : (system cap (client n m)).Reachable s) :
    ∀ v, s.shared.log.getLast? = some v → v.author = -1 ∨ stops s.shared.log < n := by
  refine hs.invariant (P := fun s : State n =>
    ∀ v, s.shared.log.getLast? = some v → v.author = -1 ∨ stops s.shared.log < n)
    (fun s hinit v hv => ?_) (fun s l t hs hlast ht => ?_)
  · obtain ⟨hshared, -, -⟩ := hinit
    rw [hshared] at hv
    exact absurd hv (by simp)
  · have hreach := hs.step ht
    cases l with
    | call q op =>
      obtain ⟨-, -, rfl⟩ := ht
      exact hlast
    | ret q =>
      obtain ⟨r, -, rfl⟩ := ht
      exact hlast
    | step q =>
      obtain ⟨m', c', hadv, rfl⟩ := ht
      rcases advance_log hadv with hlog | ⟨v, hq, rfl, hlog⟩
      · dsimp only
        rw [hlog]
        exact hlast
      · intro w hw
        have hw : (s.shared.log ++ [v]).getLast? = some w := hlog ▸ hw
        rw [List.getLast?_concat] at hw
        obtain rfl := Option.some.inj hw
        refine or_iff_not_imp_left.mpr fun hv => ?_
        -- an ordinary item: its producer has a stop object left
        have hcalling := calling hs q
        rw [hq] at hcalling
        rcases hcalling with hidle | ⟨op, hcall, hop⟩
        · exact absurd hidle (by simp)
        · cases hop with
          | putIn v =>
            refine stops_lt hreach (q := q) ?_
            dsimp only
            rw [Function.update_self]
            exact stops_pending_pushed hcall hv

/-! ### Stuck states -/

theorem producer_stuck (hs : (system cap (client n m)).Reachable s)
    (hstuck : (system cap (client n m)).Stuck s) (id : Fin n) :
    Exited m s (.inl id) ∨ (∃ v, s.pc (.inl id) = .putEmpty v) ∧ s.shared.empty = 0 ∧
      0 < stops (pending (client n m) (rest m) (.inl id) (s.loc (.inl id)) (s.pc (.inl id))) := by
  have hcases := (Counts.of_reachable hs).stuck hstuck
  have hcalling := calling hs (.inl id)
  have hsound := sound hs (.inl id)
  generalize hl : s.loc (.inl id) = l at hcalling hsound
  cases l with
  | consumer _ | consumerEnd _ => exact hsound.elim
  | producer i =>
    rcases hcases.1 (.inl id) with ⟨hidle, hcalls⟩ | ⟨v, hq, hempty⟩ | ⟨hq, -⟩
    · refine Or.inl ⟨hidle, ?_⟩
      rw [hl] at hcalls ⊢
      by_contra hi
      exact hcalls (.put (producerNode m id i)) ⟨Nat.le_of_not_lt hi, rfl⟩
    · refine Or.inr ⟨⟨v, hq⟩, hempty, ?_⟩
      rw [hq] at hcalling ⊢
      rcases hcalling with hidle | ⟨op, hcall, hop⟩
      · exact absurd hidle (by simp)
      · cases hop with
        | putEmpty v => exact stops_pending_waiting hcall
    · rw [hq] at hcalling
      rcases hcalling with hidle | ⟨op, hcall, hop⟩
      · exact absurd hidle (by simp)
      · cases hop
        exact hcall.elim

theorem consumer_stuck (hs : (system cap (client n m)).Reachable s)
    (hstuck : (system cap (client n m)).Stuck s) (c : Fin n) :
    Exited m s (.inr c) ∨ s.pc (.inr c) = .takeFull ∧ s.shared.full = 0 ∧
      stops (taken (.inr c) (s.loc (.inr c))) = 0 := by
  have hcases := (Counts.of_reachable hs).stuck hstuck
  have hcalling := calling hs (.inr c)
  have hsound := sound hs (.inr c)
  generalize hl : s.loc (.inr c) = l at hcalling hsound
  cases l with
  | producer _ => exact hsound.elim
  | consumer ts =>
    rcases hcases.1 (.inr c) with ⟨hidle, hcalls⟩ | ⟨v, hq, -⟩ | ⟨hq, hfull⟩
    · rw [hl] at hcalls
      exact absurd trivial (hcalls .take)
    · rw [hq] at hcalling
      rcases hcalling with hidle | ⟨op, hcall, hop⟩
      · exact absurd hidle (by simp)
      · cases hop
        exact hcall.elim
    · exact Or.inr ⟨hq, hfull, hsound⟩
  | consumerEnd ts =>
    rcases hcases.1 (.inr c) with ⟨hidle, -⟩ | ⟨v, hq, -⟩ | ⟨hq, -⟩
    · refine Or.inl ⟨hidle, ?_⟩
      rw [hl]
      trivial
    · rw [hq] at hcalling
      rcases hcalling with hidle | ⟨op, hcall, -⟩
      · exact absurd hidle (by simp)
      · cases op <;> exact hcall.elim
    · rw [hq] at hcalling
      rcases hcalling with hidle | ⟨op, hcall, -⟩
      · exact absurd hidle (by simp)
      · cases op <;> exact hcall.elim

theorem sum_stops_taken (hs : (system cap (client n m)).Reachable s)
    (hcarried : ∀ q, (s.pc q).carried = 0) :
    stops (s.shared.log.take s.shared.popped : List Node) =
      ∑ c : Fin n, stops (taken (.inr c) (s.loc (.inr c))) := by
  rw [stops_popped hs, Fintype.sum_sum_type]
  have hproducers : ∀ id : Fin n,
      stops (received taken (.inl id) (s.loc (.inl id)) (s.pc (.inl id))) = 0 := by
    intro id
    rw [received, hcarried]
    rfl
  have hconsumers : ∀ c : Fin n,
      stops (received taken (.inr c) (s.loc (.inr c)) (s.pc (.inr c))) =
        stops (taken (.inr c) (s.loc (.inr c))) := by
    intro c
    rw [received, hcarried, zero_add]
  rw [Finset.sum_congr rfl fun id _ => hproducers id, Finset.sum_congr rfl fun c _ => hconsumers c,
    Finset.sum_const_zero, zero_add]

theorem Exited.stops_taken (hs : (system cap (client n m)).Reachable s) {c : Fin n}
    (hc : Exited m s (.inr c)) : stops (taken (.inr c) (s.loc (.inr c))) = 1 := by
  have hsound := sound hs (.inr c)
  obtain ⟨-, hl⟩ := hc
  generalize s.loc (.inr c) = l at hl hsound ⊢
  cases l with
  | producer _ => exact hsound.elim
  | consumer _ => exact hl.elim
  | consumerEnd ts => exact hsound

theorem Exited.pending_eq (hs : (system cap (client n m)).Reachable s) {id : Fin n}
    (hid : Exited m s (.inl id)) :
    pending (client n m) (rest m) (.inl id) (s.loc (.inl id)) (s.pc (.inl id)) = 0 := by
  have hsound := sound hs (.inl id)
  obtain ⟨hidle, hl⟩ := hid
  rw [hidle]
  generalize s.loc (.inl id) = l at hl hsound ⊢
  cases l with
  | consumer _ | consumerEnd _ => exact hsound.elim
  | producer i => exact (zero_add _).trans (rest_end hl)

theorem pending_consumer (hs : (system cap (client n m)).Reachable s) (c : Fin n) :
    pending (client n m) (rest m) (.inr c) (s.loc (.inr c)) (s.pc (.inr c)) = 0 := by
  have hto : (s.pc (.inr c)).toPut = 0 := by
    rcases calling hs (.inr c) with hidle | ⟨op, hcall, hop⟩
    · rw [hidle]
      rfl
    · cases op with
      | put v => generalize s.loc (.inr c) = l at hcall; cases l <;> exact hcall.elim
      | take =>
        generalize s.pc (.inr c) = d at hop ⊢
        cases hop <;> rfl
  rw [pending, hto]
  rfl

theorem log_eq (hs : (system cap (client n m)).Reachable s)
    (hproducers : ∀ id, Exited m s (.inl id)) :
    (s.shared.log : Multiset Node) = ∑ id : Fin n, rest m (.inl id) (.producer 0) := by
  have hput := (Balanced.of_reachable accounts hs).put
  rw [Fintype.sum_sum_type, Fintype.sum_sum_type,
    Finset.sum_congr rfl fun id _ => (hproducers id).pending_eq hs,
    Finset.sum_congr rfl fun c _ => pending_consumer hs c] at hput
  simpa [client, rest] using hput

theorem stops_log (hs : (system cap (client n m)).Reachable s)
    (hproducers : ∀ id, Exited m s (.inl id)) : stops s.shared.log = n := by
  have hone : ∀ id : Fin n, (rest m (.inl id) (.producer 0)).countP
      (fun node => node.author = -1) = 1 := fun id => stops_rest (Nat.zero_le m)
  rw [log_eq hs hproducers, stops, ← Multiset.coe_countPAddMonoidHom, map_sum,
    Multiset.coe_countPAddMonoidHom, Finset.sum_congr rfl fun id _ => hone id]
  simp

/-- **The stop objects reach everybody**: a stuck state is the end. -/
theorem exited_of_stuck (hcap : cap ≠ some 0) (hs : (system cap (client n m)).Reachable s)
    (hstuck : (system cap (client n m)).Stuck s) (q : Pid n) : Exited m s q := by
  have hc := Counts.of_reachable hs
  obtain ⟨hcases, hfull, hempty⟩ := hc.stuck hstuck
  have hcarried : ∀ q, (s.pc q).carried = 0 := by
    intro q
    rcases hcases q with ⟨hq, -⟩ | ⟨v, hq, -⟩ | ⟨hq, -⟩ <;> rw [hq] <;> rfl
  have htaken := sum_stops_taken hs hcarried
  -- a producer that waits finds the queue full, so that every consumer has returned
  have hproducers : ∀ id, Exited m s (.inl id) := by
    intro id
    refine (producer_stuck hs hstuck id).resolve_right ?_
    rintro ⟨⟨v, hq⟩, hzero, hpending⟩
    cases cap with
    | none => exact hc.bounded rfl _ v hq
    | some k =>
      have hpos : 0 < k := Nat.pos_of_ne_zero fun h => hcap (congrArg some h)
      have hroom := hempty k rfl
      have hconsumers : ∀ c, Exited m s (.inr c) := fun c =>
        (consumer_stuck hs hstuck c).resolve_right fun ⟨_, h, _⟩ => by omega
      have hall : stops (s.shared.log.take s.shared.popped : List Node) = n := by
        rw [htaken, Finset.sum_congr rfl fun c _ => (hconsumers c).stops_taken hs]
        simp
      have hle : stops (s.shared.log.take s.shared.popped : List Node) ≤ stops s.shared.log :=
        (List.take_sublist _ _).countP_le
      have := stops_lt hs hpending
      omega
  cases q with
  | inl id => exact hproducers id
  | inr c =>
    -- everything is put: a consumer that waits would find the last stop object missing
    refine (consumer_stuck hs hstuck c).resolve_right ?_
    rintro ⟨-, hzero, hnone⟩
    have hput := stops_log hs hproducers
    have hlt : ∑ c : Fin n, stops (taken (.inr c) (s.loc (.inr c))) < ∑ _c : Fin n, 1 := by
      refine Finset.sum_lt_sum (fun d _ => ?_) ⟨c, Finset.mem_univ c, by omega⟩
      rcases consumer_stuck hs hstuck d with hd | ⟨-, -, hd⟩
      · exact (hd.stops_taken hs).le
      · omega
    rw [← htaken, List.take_of_length_le (by omega), hput] at hlt
    simp at hlt

/-! ### The end -/

theorem producerNode_eq_iff {id id' : Fin n} {i j : ℕ} (hi : i < m) :
    producerNode m id j = ⟨(id' : ℕ), i⟩ ↔ id = id' ∧ j = i := by
  rw [producerNode]
  split
  · rw [Node.mk.injEq, Nat.cast_inj, Nat.cast_inj, Fin.val_inj]
  · rw [Node.mk.injEq]
    omega

/-- Each producer puts each of its own items once. -/
theorem count_producerNodes {id id' : Fin n} {i : ℕ} (hi : i < m) :
    (rest m (.inl id) (.producer 0)).count ⟨(id' : ℕ), i⟩ = if id = id' then 1 else 0 := by
  show Multiset.count _ ((List.range' 0 (m + 1)).map (producerNode m id) : Multiset Node) = _
  rw [Multiset.coe_count, ← List.range_eq_range', List.count, List.countP_map]
  by_cases hid : id = id'
  · have hcongr : ∀ j ∈ List.range (m + 1),
        ((fun node => node == (⟨(id' : ℕ), i⟩ : Node)) ∘ producerNode m id) j = (j == i) := by
      intro j _
      rw [Function.comp_apply, Bool.eq_iff_iff, beq_iff_eq, beq_iff_eq, producerNode_eq_iff hi]
      exact and_iff_right hid
    rw [List.countP_congr fun j hj => by rw [hcongr j hj], if_pos hid]
    exact List.count_eq_one_of_mem List.nodup_range (List.mem_range.mpr (by omega))
  · rw [if_neg hid]
    refine List.countP_eq_zero.mpr fun j _ => ?_
    rw [Function.comp_apply, beq_iff_eq, producerNode_eq_iff hi]
    exact fun h => hid h.1

theorem queue_of_exited (hs : (system cap (client n m)).Reachable s)
    (hexited : ∀ q, Exited m s q) : s.shared.queue = [] := by
  have hcarried : ∀ q, (s.pc q).carried = 0 := by
    intro q
    rw [(hexited q).1]
    rfl
  have htaken : stops (s.shared.log.take s.shared.popped : List Node) = n := by
    rw [sum_stops_taken hs hcarried,
      Finset.sum_congr rfl fun c _ => (hexited (.inr c)).stops_taken hs]
    simp
  have hput := stops_log hs fun id => hexited (.inl id)
  have hleft : stops (s.shared.queue : List Node) = 0 := by
    rw [← List.take_append_drop s.shared.popped s.shared.log, ← Multiset.coe_add, stops_add,
      htaken] at hput
    exact Nat.add_eq_left.mp hput
  by_contra hne
  obtain ⟨v, hv⟩ := Option.ne_none_iff_exists'.mp fun h => hne (List.getLast?_eq_none_iff.mp h)
  have hmem := List.mem_of_getLast? hv
  have hlast : s.shared.log.getLast? = some v := by
    rw [← List.take_append_drop s.shared.popped s.shared.log, List.getLast?_append]
    rw [show s.shared.log.drop s.shared.popped = s.shared.queue from rfl, hv]
    rfl
  rcases stop_last hs v hlast with hstop | hlt
  · exact Multiset.countP_eq_zero.mp hleft v hmem hstop
  · omega

/-! ### Termination -/

/-- No more is put than the items and the stop objects. -/
theorem length_log_le (hs : (system cap (client n m)).Reachable s) :
    s.shared.log.length ≤ n * (m + 1) := by
  have hput := congrArg Multiset.card (Balanced.of_reachable accounts hs).put
  have hproducers : ∀ id : Fin n,
      Multiset.card (rest m (.inl id) ((client n m).init (.inl id))) = m + 1 := by
    intro id
    show Multiset.card ((List.range' 0 (m + 1)).map (producerNode m id) : Multiset Node) = m + 1
    rw [Multiset.coe_card, List.length_map, List.length_range']
  have hconsumers : ∀ c : Fin n,
      Multiset.card (rest m (.inr c) ((client n m).init (.inr c))) = 0 := fun _ => rfl
  rw [Multiset.card_add, Multiset.card_sum, Multiset.card_sum, Fintype.sum_sum_type,
    Fintype.sum_sum_type, Finset.sum_congr rfl fun id _ => hproducers id,
    Finset.sum_congr rfl fun c _ => hconsumers c, Multiset.coe_card] at hput
  simp only [Finset.sum_const, Finset.card_univ, Fintype.card_fin, smul_eq_mul, mul_zero,
    add_zero] at hput
  omega

theorem work_le_total (hs : (system cap (client n m)).Reachable s) :
    s.work ≤ 14 * (n * (m + 1)) + 12 * n := by
  have hwork := work_le hs
  have hlog := length_log_le hs
  rw [Fintype.card_sum, Fintype.card_fin] at hwork
  omega

theorem length_run_le (hs : (system cap (client n m)).Reachable s)
    {ls : List (Label (Pid n) Node)} (hrun : (system cap (client n m)).Run s ls t) :
    ls.length ≤ 14 * (n * (m + 1)) + 6 * n := by
  have hle := length_le_work hrun
  have hstart := work_of_reachable hs
  have htotal := work_le_total (hs.run hrun)
  rw [Fintype.card_sum, Fintype.card_fin] at hstart
  omega

/-- From wherever it has come the program can go on to its end. -/
theorem exists_exited (hcap : cap ≠ some 0) (hs : (system cap (client n m)).Reachable s) :
    ∃ ls t, (system cap (client n m)).Run s ls t ∧ ∀ q, Exited m t q := by
  have hstep : ∀ s l t, (system cap (client n m)).Reachable s →
      (system cap (client n m)).step s l t → (system cap (client n m)).Reachable t ∧
        14 * (n * (m + 1)) + 12 * n - t.work < 14 * (n * (m + 1)) + 12 * n - s.work := by
    intro s l t hs ht
    have hlt := work_lt ht
    have htotal := work_le_total (hs.step ht)
    exact ⟨hs.step ht, by omega⟩
  obtain ⟨ls, t, hrun, hstuck⟩ := System.exists_stuck _ hstep hs
  exact ⟨ls, t, hrun, exited_of_stuck hcap (hs.run hrun) hstuck⟩

/-- **The shutdown by stop objects**: no state is stuck before all processes have
returned, every run ends and some run gets there, and then the queue is empty, every item was
taken once and every consumer took one stop object. -/
theorem stop_object_shutdown (hcap : cap ≠ some 0)
    (hs : (system cap (client n m)).Reachable s) :
    ((system cap (client n m)).Stuck s → ∀ q, Exited m s q) ∧
      ((∀ q, Exited m s q) → Drained m s) ∧
      (∀ ls t, (system cap (client n m)).Run s ls t → ls.length ≤ 14 * (n * (m + 1)) + 6 * n) ∧
      ∃ ls t, (system cap (client n m)).Run s ls t ∧ ∀ q, Exited m t q := by
  refine ⟨exited_of_stuck hcap hs, fun hexited => ?_, fun _ _ => length_run_le hs,
    exists_exited hcap hs⟩
  have hqueue := queue_of_exited hs hexited
  refine ⟨hqueue, fun id i hi => ?_, fun c => (hexited (.inr c)).stops_taken hs⟩
  have hpopped := congrArg (Multiset.count ⟨(id : ℕ), i⟩) (Balanced.of_reachable accounts hs).popped
  rw [List.take_of_length_le (List.drop_eq_nil_iff.mp hqueue), log_eq hs fun id => hexited (.inl id),
    Multiset.count_sum', Multiset.count_sum', Fintype.sum_sum_type,
    Finset.sum_congr rfl fun id _ => count_producerNodes hi] at hpopped
  have hproducers : ∀ p : Fin n, (received taken (.inl p) (s.loc (.inl p)) (s.pc (.inl p))).count
      ⟨(id : ℕ), i⟩ = 0 := by
    intro p
    rw [(hexited (.inl p)).1]
    rfl
  have hconsumers : ∀ c : Fin n, (received taken (.inr c) (s.loc (.inr c)) (s.pc (.inr c))).count
      ⟨(id : ℕ), i⟩ = (s.loc (.inr c)).taken.count ⟨(id : ℕ), i⟩ := by
    intro c
    rw [(hexited (.inr c)).1, received, show (Pc.idle : Pc Node).carried = 0 from rfl, zero_add]
    exact Multiset.coe_count _ _
  rw [Finset.sum_congr rfl fun p _ => hproducers p, Finset.sum_congr rfl fun c _ => hconsumers c,
    Finset.sum_const_zero, zero_add, Finset.sum_ite_eq' Finset.univ id,
    if_pos (Finset.mem_univ id)] at hpopped
  exact hpopped.symm

/-- Two producers and two consumers, one item each and room for one: the second consumer
gets the first stop object while the second producer has put nothing. -/
def schedule (i j : Fin 2) : List (Label (Pid 2) Node) :=
  wholeCall (.inl i) (.put ⟨0, 0⟩) ++ wholeCall (.inr i) .take ++
    wholeCall (.inl i) (.put ⟨-1, 0⟩) ++ wholeCall (.inr j) .take ++
    wholeCall (.inl j) (.put ⟨1, 0⟩) ++ wholeCall (.inr i) .take ++
    wholeCall (.inl j) (.put ⟨-1, 0⟩) ++ wholeCall (.inr i) .take

theorem stop_object_shutdown_schedule : ∃ s : State 2, (system (some 1) (client 2 1)).Reachable s ∧
    (∀ q, Exited 1 s q) ∧ Drained 1 s := by
  have hrun : ∃ s : State 2, (schedule 0 1).foldlM (next (some 1) (client 2 1))
      ⟨⟨1, 1, 0, [], 0⟩, fun _ => .idle, (client 2 1).init⟩ = some s ∧ ∀ q, Exited 1 s q := by
    refine ⟨_, rfl, Sum.forall.mpr ⟨?_, ?_⟩⟩ <;> refine Fin.forall_fin_two.mpr ⟨?_, ?_⟩
    · exact ⟨rfl, Nat.one_lt_two⟩
    · exact ⟨rfl, Nat.one_lt_two⟩
    · exact ⟨rfl, trivial⟩
    · exact ⟨rfl, trivial⟩
  obtain ⟨s, hs, hexited⟩ := hrun
  have hreach : (system (some 1) (client 2 1)).Reachable s :=
    ⟨_, _, ⟨rfl, fun _ => rfl, rfl⟩, run_of_next hs⟩
  exact ⟨s, hreach, hexited, (stop_object_shutdown (by simp) hreach).2.1 hexited⟩

end CppProgramming.ProducerConsumer.StopObject
