import CppProgramming.Executors.ForkJoinProgress
import CppProgramming.Lib.SortedRange
import Mathlib.Data.Multiset.AddSub

/-!
# `fork_join_sort` of `fork_join.cpp`

A long range is sorted by two functions that are forked, one for each half, and merged when
both are back; a short range is sorted at once.  The functions of all levels share the
threads of one pool, so at any time some of them are in the queue, some are run, and some wait
under a join for others.

`Sorting` says how the ranges of the functions that have not returned hang together: where a
function is back its range is in order, and no two functions are about to write to the same
place.  It is kept by every step, whatever thread makes it (`Sorting.replace`).  With the
steps that are left counted (`State.cost`), the sort ends in order (`sort_sorts`).
-/

namespace CppProgramming.Executors.ForkJoin

open CppProgramming.Lib

/-- Where the code of `fork_join_sort` is, for the range from `lo` to `hi`. -/
inductive SortCode
  | enter (lo hi : ℕ)
  /-- The executor is there, and its `join_guard`. -/
  | forked (lo hi ex : ℕ)
  /-- The first half was given to the executor. -/
  | half (lo hi ex : ℕ)
  /-- The second half too, and the scope ends. -/
  | joining (lo hi ex : ℕ)
  | merge (lo hi : ℕ)
  | done

def middle (lo hi : ℕ) : ℕ := lo + (hi - lo) / 2

variable {α : Type*} [LinearOrder α]

/-- `fork_join_sort` -/
def forkJoinSort : SortCode → List α → Act SortCode (List α)
  | .enter lo hi, v =>
    if hi - lo > 32768 then .fork (.forked lo hi) else .update (sortRange lo hi v) .done
  | .forked lo hi ex, _ => .execute ex (.enter lo (middle lo hi)) (.half lo hi ex)
  | .half lo hi ex, _ => .execute ex (.enter (middle lo hi) hi) (.joining lo hi ex)
  | .joining lo hi ex, _ => .join ex (.merge lo hi)
  | .merge lo hi, v => .update (mergeRange lo (middle lo hi) hi v) .done
  | .done, _ => .ret

/-- `main` sorts the vector. -/
def sortSystem {P : Type*} [DecidableEq P] [Fintype P] (threadCount : ℕ) (main : P)
    (v : List α) : System (State P SortCode (List α)) (Label P) :=
  system forkJoinSort threadCount main (.enter 0 v.length) v

/-! ### Every function joins executors of its own -/

variable {P : Type*} [DecidableEq P] [Fintype P] {threadCount : ℕ} {main : P} {t : P}
  {s s' : State P SortCode (List α)} {v v' : List α} {fs : List (Frame SortCode)}

namespace SortCode

/-- The executor that the code has constructed. -/
def own : SortCode → Option ℕ
  | forked _ _ ex | half _ _ ex | joining _ _ ex => some ex
  | _ => none

theorem own_of_joined {c : SortCode} {ex : ℕ} (h : ex ∈ (forkJoinSort c v).joined) :
    c.own = some ex := by
  cases c with
  | enter lo hi =>
    rw [forkJoinSort] at h
    split at h <;> exact nomatch h
  | joining => exact h
  | forked | half | merge | done => exact nomatch h

/-! The steps of the code, by what they do. -/

section Act

variable {c f k : SortCode} {ex : ℕ}

theorem of_fork {k : ℕ → SortCode} (h : forkJoinSort c v = .fork k) :
    ∃ lo hi, c = enter lo hi ∧ 32768 < hi - lo ∧ k = forked lo hi := by
  cases c with
  | enter lo hi =>
    rw [forkJoinSort] at h
    split at h
    · exact ⟨lo, hi, rfl, ‹_›, (Act.fork.inj h).symm⟩
    · exact nomatch h
  | forked | half | joining | merge | done => exact nomatch h

theorem of_execute (h : forkJoinSort c v = .execute ex f k) :
    ∃ lo hi, c = forked lo hi ex ∧ f = enter lo (middle lo hi) ∧ k = half lo hi ex ∨
      c = half lo hi ex ∧ f = enter (middle lo hi) hi ∧ k = joining lo hi ex := by
  cases c with
  | enter lo hi =>
    rw [forkJoinSort] at h
    split at h <;> exact nomatch h
  | forked lo hi e =>
    cases h
    exact ⟨lo, hi, Or.inl ⟨rfl, rfl, rfl⟩⟩
  | half lo hi e =>
    cases h
    exact ⟨lo, hi, Or.inr ⟨rfl, rfl, rfl⟩⟩
  | joining | merge | done => exact nomatch h

theorem of_join (h : forkJoinSort c v = .join ex k) :
    ∃ lo hi, c = joining lo hi ex ∧ k = merge lo hi := by
  cases c with
  | enter lo hi =>
    rw [forkJoinSort] at h
    split at h <;> exact nomatch h
  | joining lo hi e =>
    cases h
    exact ⟨lo, hi, rfl, rfl⟩
  | forked | half | merge | done => exact nomatch h

theorem of_update (h : forkJoinSort c v = .update v' k) : k = done ∧
    ∃ lo hi, c = enter lo hi ∧ v' = sortRange lo hi v ∨
      c = merge lo hi ∧ v' = mergeRange lo (middle lo hi) hi v := by
  cases c with
  | enter lo hi =>
    rw [forkJoinSort] at h
    split at h
    · exact nomatch h
    · cases h
      exact ⟨rfl, lo, hi, Or.inl ⟨rfl, rfl⟩⟩
  | merge lo hi =>
    cases h
    exact ⟨rfl, lo, hi, Or.inr ⟨rfl, rfl⟩⟩
  | forked | half | joining | done => exact nomatch h

theorem of_ret (h : forkJoinSort c v = .ret) : c = done := by
  cases c with
  | enter lo hi =>
    rw [forkJoinSort] at h
    split at h <;> exact nomatch h
  | done => rfl
  | forked | half | joining | merge => exact nomatch h

end Act

end SortCode

theorem middle_le {lo hi : ℕ} (h : lo ≤ hi) : lo ≤ middle lo hi ∧ middle lo hi ≤ hi := by
  rw [middle]
  omega

/-- The frame is the one that has constructed the executor of its code. -/
def Owned (executors : ℕ) (owner : ℕ → ℕ) (fr : Frame SortCode) : Prop :=
  ∀ c ∈ fr.code, ∀ ex ∈ c.own, ex < executors ∧ owner ex = fr.stamp

theorem Owned.fork {n stamp : ℕ} {owner : ℕ → ℕ} {fr : Frame SortCode} (h : Owned n owner fr) :
    Owned (n + 1) (Function.update owner n stamp) fr := by
  intro c hc ex hex
  obtain ⟨hlt, heq⟩ := h c hc ex hex
  refine ⟨Nat.lt_succ_of_lt hlt, ?_⟩
  rwa [Function.update_of_ne (Nat.ne_of_lt hlt)]

theorem Frame.eq_of_goto {fr : Frame SortCode} {c k c' : SortCode} (hcode : fr.code = some c)
    (h : (fr.goto k).code = some c') : c' = k := by
  cases fr with
  | worker | join => exact nomatch hcode
  | body | func => exact (Option.some.inj h).symm

/-- The executor is new. -/
theorem Owned.new {n : ℕ} {owner : ℕ → ℕ} {fr : Frame SortCode} {c : SortCode} {lo hi : ℕ}
    (hcode : fr.code = some c) :
    Owned (n + 1) (Function.update owner n fr.stamp) (fr.goto (.forked lo hi n)) := by
  intro c' hc' ex hex
  rw [Frame.eq_of_goto hcode hc'] at hex
  obtain rfl := Option.some.inj hex
  exact ⟨Nat.lt_add_one _, by rw [Function.update_self, Frame.stamp_goto]⟩

/-- Code that goes on with the executor that it had, if it has one then. -/
theorem Owned.goto {n : ℕ} {owner : ℕ → ℕ} {fr : Frame SortCode} {c k : SortCode}
    (h : Owned n owner fr) (hcode : fr.code = some c) (hk : k.own = none ∨ k.own = c.own) :
    Owned n owner (fr.goto k) := by
  intro c' hc' ex hex
  rw [Frame.eq_of_goto hcode hc'] at hex
  rw [Frame.stamp_goto]
  rcases hk with hk | hk
  · rw [hk] at hex
    exact nomatch hex
  · exact h c hcode ex (hk ▸ hex)

theorem Owned.func {n : ℕ} {owner : ℕ → ℕ} {k : SortCode} {ticket : Ticket} {stamp : ℕ}
    (hk : k.own = none) : Owned n owner (.func k ticket stamp) := by
  intro c hc ex hex
  obtain rfl := Option.some.inj hc
  rw [hk] at hex
  exact nomatch hex

theorem Owned.join {n ex : ℕ} {owner : ℕ → ℕ} : Owned n owner (.join ex) := nofun

structure Owning (s : State P SortCode (List α)) : Prop where
  frame : ∀ t, ∀ fr ∈ (s.thread t).stack, Owned s.executors s.owner fr
  queue : ∀ f ∈ s.queue_, f.code.own = none

omit [LinearOrder α] [Fintype P] in
theorem Owning.goto (h : Owning s) {u : State P SortCode (List α)} (hthread : u.thread = s.thread)
    (hqueue : ∀ f ∈ u.queue_, f.code.own = none) (hexecutors : u.executors = s.executors)
    (howner : u.owner = s.owner) (hfs : ∀ fr ∈ fs, Owned s.executors s.owner fr) :
    Owning (u.goto t fs) where
  frame := by
    refine forall_goto (Q := fun _ th => ∀ fr ∈ th.stack, Owned u.executors u.owner fr) hthread ?_
      fun q _ => ?_
    · rwa [hexecutors, howner]
    · rw [hexecutors, howner]
      exact h.frame q
  queue := hqueue

omit [LinearOrder α] [DecidableEq P] [Fintype P] in
theorem Owning.of_stack (h : Owning s) (hstack : ∀ t, (s'.thread t).stack = (s.thread t).stack)
    (hqueue : s'.queue_ = s.queue_) (hexecutors : s'.executors = s.executors)
    (howner : s'.owner = s.owner) : Owning s' where
  frame t := by
    rw [hstack, hexecutors, howner]
    exact h.frame t
  queue := by
    rw [hqueue]
    exact h.queue

theorem SortCode.own_of_execute {c f k : SortCode} {ex : ℕ}
    (h : forkJoinSort c v = .execute ex f k) : c.own = some ex := by
  obtain ⟨lo, hi, ⟨rfl, -⟩ | ⟨rfl, -⟩⟩ := of_execute h <;> rfl

/-- What the steps of the code do with the executor. -/
theorem SortCode.own_execute {c f k : SortCode} {ex : ℕ}
    (h : forkJoinSort c v = .execute ex f k) : f.own = none ∧ k.own = c.own := by
  obtain ⟨lo, hi, ⟨rfl, rfl, rfl⟩ | ⟨rfl, rfl, rfl⟩⟩ := of_execute h <;> exact ⟨rfl, rfl⟩

theorem SortCode.own_join {c k : SortCode} {ex : ℕ} (h : forkJoinSort c v = .join ex k) :
    k.own = none := by
  obtain ⟨lo, hi, rfl, rfl⟩ := of_join h
  rfl

theorem SortCode.own_update {c k : SortCode} (h : forkJoinSort c v = .update v' k) :
    k.own = none := by
  rw [(of_update h).1]
  rfl

theorem Owning.step {l : Label P} (h : Owning s)
    (ht : Steps forkJoinSort threadCount s l s') : Owning s' := by
  have hrest {t : P} {fr : Frame SortCode} {fs : List (Frame SortCode)}
      (hstack : (s.thread t).stack = fr :: fs) : ∀ fr' ∈ fs, Owned s.executors s.owner fr' :=
    fun fr' hmem => h.frame t fr' (hstack ▸ List.mem_cons_of_mem _ hmem)
  have hgoto {t : P} {fr : Frame SortCode} {fs : List (Frame SortCode)} {c k : SortCode}
      (hstack : (s.thread t).stack = fr :: fs) (hcode : fr.code = some c)
      (hk : k.own = none ∨ k.own = c.own) :
      ∀ fr' ∈ fr.goto k :: fs, Owned s.executors s.owner fr' :=
    List.forall_mem_cons.mpr
      ⟨(h.frame t fr (hstack ▸ List.mem_cons_self ..)).goto hcode hk, hrest hstack⟩
  cases ht with
  | @fork t woken fr fs c k hstack hcode hact =>
    obtain ⟨lo, hi, rfl, -, rfl⟩ := SortCode.of_fork hact
    refine ⟨forall_goto (Q := fun _ th => ∀ fr' ∈ th.stack, Owned (s.executors + 1)
      (Function.update s.owner s.executors fr.stamp) fr') rfl ?_ fun q _ fr' hfr' => ?_, h.queue⟩
    · exact List.forall_mem_cons.mpr
        ⟨Owned.new hcode, fun fr' hmem => (hrest hstack fr' hmem).fork⟩
    · exact (h.frame q fr' hfr').fork
  | @begin t woken fr fs c f k ex hstack hcode hact hex hlong =>
    obtain ⟨hf, hk⟩ := SortCode.own_execute hact
    exact h.goto rfl h.queue rfl rfl
      (List.forall_mem_cons.mpr ⟨Owned.func hf, hgoto hstack hcode (Or.inr hk)⟩)
  | @push t woken fr fs c f k ex s' hstack hcode hact hex hnotify =>
    obtain ⟨hf, hk⟩ := SortCode.own_execute hact
    have hqueue : ∀ x ∈ s.queue_ ++ [⟨s.next_id, ex, f⟩], x.code.own = none :=
      List.forall_mem_append.mpr ⟨h.queue, List.forall_mem_singleton.mpr hf⟩
    have hpush := h.goto (t := t) (u := ({ s with
        next_id := s.next_id + 1
        queue_ := s.queue_ ++ [⟨s.next_id, ex, f⟩] } : State P _ _).doWorkStarted ex) rfl
      hqueue rfl rfl (hgoto hstack hcode (Or.inr hk))
    rcases notifyOne_cases hnotify with ⟨q, -, rfl⟩ | ⟨-, rfl⟩
    · exact hpush.of_stack (wake_stack _ q) rfl rfl rfl
    · exact hpush
  | @join t woken fr fs c k ex hstack hcode hact hex =>
    exact h.goto rfl h.queue rfl rfl (List.forall_mem_cons.mpr
      ⟨Owned.join, hgoto hstack hcode (Or.inl (SortCode.own_join hact))⟩)
  | @update t woken fr fs c k g hstack hcode hact =>
    exact h.goto rfl h.queue rfl rfl (hgoto hstack hcode (Or.inl (SortCode.own_update hact)))
  | @ret t woken fs c ticket stamp hstack hact =>
    have hpop : Owning (({ s with ended := ticket ::ₘ s.ended } : State P _ _).goto t fs) :=
      h.goto rfl h.queue rfl rfl (hrest hstack)
    rw [State.doWorkFinished]
    dsimp only
    split
    · exact hpop.of_stack (fun _ => rfl) rfl rfl rfl
    · exact hpop.of_stack (fun _ => rfl) rfl rfl rfl
  | @stop t woken fs c hstack hact =>
    have hpop : Owning (s.goto t fs) := h.goto rfl h.queue rfl rfl (hrest hstack)
    exact hpop.of_stack (fun _ => rfl) rfl rfl rfl
  | @exit t fs hawake hstack huse => exact h.goto rfl h.queue rfl rfl (hrest hstack)
  | @joined t fs ex hawake hstack hwork => exact h.goto rfl h.queue rfl rfl (hrest hstack)
  | wait hawake hstack hloop hqueue => exact h.of_stack (wait_stack s _) rfl rfl rfl
  | @take t fr fs f rest hawake hstack hloop hqueue =>
    have hall : ∀ x ∈ f :: rest, x.code.own = none := hqueue ▸ h.queue
    obtain ⟨hf, hrest'⟩ := List.forall_mem_cons.mp hall
    exact h.goto rfl hrest' rfl rfl
      (List.forall_mem_cons.mpr ⟨Owned.func hf, hstack ▸ h.frame t⟩)
  | wake hwait => exact h.of_stack (wake_stack s _) rfl rfl rfl

omit [LinearOrder α] [Fintype P] in
theorem owning_initial (main : P) (lo hi : ℕ) (v : List α) :
    Owning (State.initial main (.enter lo hi) v) where
  frame t fr hfr c hc ex hex := by
    simp only [State.initial] at hfr
    split at hfr
    · obtain rfl := List.mem_singleton.mp hfr
      obtain rfl := Option.some.inj hc
      cases hex
    · obtain rfl := List.mem_singleton.mp hfr
      cases hc
  queue := by simp [State.initial]

omit [DecidableEq P] [Fintype P] in
/-- The functions of the sort join only executors of their own. -/
theorem Owning.ownOnly (h : Owning s) : ∀ l, State.OwnOnly forkJoinSort s l
  | .code t _ => fun fr hfr c hc ex hex =>
    (h.frame t fr (List.mem_of_mem_head? hfr) c hc ex (SortCode.own_of_joined hex)).2
  | .loop _ | .wake _ => trivial

/-! ### The ranges -/

/-- A function that has not returned, or `main`. -/
structure Activity where
  /-- The executor that it was given to. -/
  ex : Option ℕ
  code : SortCode
  /-- The executor that it waits for. -/
  joins : Option ℕ

/-- The steps that it takes to sort `n` elements, at most. -/
def cost (n : ℕ) : ℕ := 11 * (n - 1) + 2

/-- The steps that the code has still to take, with those of the functions that it will fork, and
one for each of them to be taken out of the queue. -/
def SortCode.weight : SortCode → ℕ
  | enter lo hi => cost (hi - lo)
  | forked lo hi _ => 8 + cost (middle lo hi - lo) + cost (hi - middle lo hi)
  | half lo hi _ => 6 + cost (hi - middle lo hi)
  | joining _ _ _ => 4
  | merge _ _ => 2
  | done => 1

def Activity.weight (a : Activity) : ℕ := a.code.weight + if a.joins.isSome then 1 else 0

def all : Option Activity → Multiset Activity → Multiset Activity
  | none, below => below
  | some top, below => top ::ₘ below

/-- **How a range is sorted.**  The function for the range, if it is not back, and the functions
below it that are not back. -/
inductive Sorting (v : List α) : Option ℕ → ℕ → ℕ → Option Activity → Multiset Activity → Prop
  | back {ex : Option ℕ} {lo hi : ℕ} (h : SortedOn v lo hi) : Sorting v ex lo hi none 0
  | enter {ex : Option ℕ} {lo hi : ℕ} : Sorting v ex lo hi (some ⟨ex, .enter lo hi, none⟩) 0
  | forked {ex : Option ℕ} {lo hi : ℕ} (e : ℕ) :
      Sorting v ex lo hi (some ⟨ex, .forked lo hi e, none⟩) 0
  | half {ex : Option ℕ} {lo hi e : ℕ} {l : Option Activity} {L : Multiset Activity}
      (hl : Sorting v (some e) lo (middle lo hi) l L) :
      Sorting v ex lo hi (some ⟨ex, .half lo hi e, none⟩) (all l L)
  | both {ex : Option ℕ} {lo hi e : ℕ} {c : SortCode} {j : Option ℕ} {l r : Option Activity}
      {L R : Multiset Activity}
      (hc : c = .joining lo hi e ∧ j = none ∨ c = .merge lo hi ∧ j = some e)
      (hl : Sorting v (some e) lo (middle lo hi) l L)
      (hr : Sorting v (some e) (middle lo hi) hi r R) :
      Sorting v ex lo hi (some ⟨ex, c, j⟩) (all l L + all r R)
  | merge {ex : Option ℕ} {lo hi : ℕ} (hl : SortedOn v lo (middle lo hi))
      (hr : SortedOn v (middle lo hi) hi) : Sorting v ex lo hi (some ⟨ex, .merge lo hi, none⟩) 0
  | done {ex : Option ℕ} {lo hi : ℕ} (h : SortedOn v lo hi) :
      Sorting v ex lo hi (some ⟨ex, .done, none⟩) 0

theorem add_eq_cons {β : Type*} {A B M : Multiset β} {a : β} (h : A + B = a ::ₘ M) :
    (∃ A', A = a ::ₘ A' ∧ M = A' + B) ∨ ∃ B', B = a ::ₘ B' ∧ M = A + B' := by
  have hmem : a ∈ A + B := h ▸ Multiset.mem_cons_self a M
  rcases Multiset.mem_add.mp hmem with hA | hB
  · obtain ⟨A', rfl⟩ := Multiset.exists_cons_of_mem hA
    rw [Multiset.cons_add] at h
    exact Or.inl ⟨A', rfl, ((Multiset.cons_inj_right a).mp h).symm⟩
  · obtain ⟨B', rfl⟩ := Multiset.exists_cons_of_mem hB
    rw [Multiset.add_cons] at h
    exact Or.inr ⟨B', rfl, ((Multiset.cons_inj_right a).mp h).symm⟩

namespace Sorting

variable {ex : Option ℕ} {lo hi : ℕ} {top : Option Activity} {X M new : Multiset Activity}
  {a : Activity}

theorem top_ex (h : Sorting v ex lo hi top X) : ∀ b ∈ top, b.ex = ex := by
  cases h with
  | back => exact nofun
  | enter | forked | half | both | merge | done =>
    rintro _ ⟨⟩
    rfl

/-- A change elsewhere does not matter. -/
theorem congr (h : Sorting v ex lo hi top X) (hle : lo ≤ hi)
    (heq : ∀ i, lo ≤ i → i < hi → v'[i]? = v[i]?) : Sorting v' ex lo hi top X := by
  induction h with
  | back h => exact .back (h.congr heq)
  | enter => exact .enter
  | forked e => exact .forked e
  | half hl ihl =>
    obtain ⟨hlo, hhi⟩ := middle_le hle
    exact .half (ihl hlo fun i h h' => heq i h (h'.trans_le hhi))
  | both hc hl hr ihl ihr =>
    obtain ⟨hlo, hhi⟩ := middle_le hle
    exact .both hc (ihl hlo fun i h h' => heq i h (h'.trans_le hhi))
      (ihr hhi fun i h h' => heq i (hlo.trans h) h')
  | merge hl hr =>
    obtain ⟨hlo, hhi⟩ := middle_le hle
    exact .merge (hl.congr fun i h h' => heq i h (h'.trans_le hhi))
      (hr.congr fun i h h' => heq i (hlo.trans h) h')
  | done h => exact .done (h.congr heq)

/-- What a step of `a` does where it stands: `new` takes its place, and outside its range nothing
is changed. -/
def Rewrites (v v' : List α) (a : Activity) (M new : Multiset Activity) : Prop :=
  ∀ ⦃lo hi : ℕ⦄ ⦃X : Multiset Activity⦄, lo ≤ hi → hi ≤ v.length → X ≤ M →
    Sorting v a.ex lo hi (some a) X →
      (∃ top Y, Sorting v' a.ex lo hi top Y ∧ all top Y = new + X) ∧ PermOn v v' lo hi

theorem Rewrites.mono {M' : Multiset Activity} (h : Rewrites v v' a M new) (hle : M' ≤ M) :
    Rewrites v v' a M' new :=
  fun _ _ _ hlo hlen hX => h hlo hlen (hX.trans hle)

/-- **A step of one function keeps the whole in order.** -/
theorem replace (h : Sorting v ex lo hi top X) (hlocal : Rewrites v v' a M new) (hle : lo ≤ hi)
    (hlen : hi ≤ v.length) (hM : all top X = a ::ₘ M) :
    (∃ top' Y, Sorting v' ex lo hi top' Y ∧ all top' Y = new + M) ∧ PermOn v v' lo hi := by
  -- the step is made at the root, or below it
  have hroot {ex : Option ℕ} {lo hi : ℕ} {b : Activity} {X M : Multiset Activity}
      (hb : Sorting v ex lo hi (some b) X) (hlocal : Rewrites v v' a M new) (hle : lo ≤ hi)
      (hlen : hi ≤ v.length) (hM : b ::ₘ X = a ::ₘ M)
      (hbelow : ∀ M', X = a ::ₘ M' → M = b ::ₘ M' →
        (∃ top' Y, Sorting v' ex lo hi top' Y ∧ all top' Y = new + M) ∧ PermOn v v' lo hi) :
      (∃ top' Y, Sorting v' ex lo hi top' Y ∧ all top' Y = new + M) ∧ PermOn v v' lo hi := by
    rcases Multiset.cons_eq_cons.mp hM with ⟨rfl, rfl⟩ | ⟨-, M', hX, hM'⟩
    · obtain rfl := hb.top_ex b rfl
      exact hlocal hle hlen le_rfl hb
    · exact hbelow M' hX hM'
  have hnil {M' : Multiset Activity} {Q : Prop} (h0 : (0 : Multiset Activity) = a ::ₘ M') : Q :=
    absurd h0 (Multiset.zero_ne_cons)
  induction h generalizing M with
  | back h => exact hnil hM
  | enter => exact hroot .enter hlocal hle hlen hM fun _ h0 => hnil h0
  | forked e => exact hroot (.forked e) hlocal hle hlen hM fun _ h0 => hnil h0
  | merge hl hr => exact hroot (.merge hl hr) hlocal hle hlen hM fun _ h0 => hnil h0
  | done h => exact hroot (.done h) hlocal hle hlen hM fun _ h0 => hnil h0
  | @half ex lo hi e l L hl ihl =>
    obtain ⟨hlo, hhi⟩ := middle_le hle
    refine hroot (.half hl) hlocal hle hlen hM ?_
    rintro M' hX rfl
    obtain ⟨⟨l', L', hl', hnew⟩, hsame⟩ :=
      ihl (hlocal.mono (Multiset.le_cons_self ..)) hlo (hhi.trans hlen) hX
    refine ⟨⟨_, _, .half hl', ?_⟩, hsame.mono le_rfl hhi⟩
    rw [all, hnew, Multiset.add_cons]
  | @both ex lo hi e c j l r L R hc hl hr ihl ihr =>
    obtain ⟨hlo, hhi⟩ := middle_le hle
    refine hroot (.both hc hl hr) hlocal hle hlen hM ?_
    rintro M' hX rfl
    rcases add_eq_cons hX with ⟨L', hL, rfl⟩ | ⟨R', hR, rfl⟩
    · obtain ⟨⟨l', L'', hl', hnew⟩, hsame⟩ :=
        ihl (hlocal.mono ((Multiset.le_add_right _ _).trans (Multiset.le_cons_self ..))) hlo
          (hhi.trans hlen) hL
      refine ⟨⟨_, _, .both hc hl' (hr.congr hhi fun i hi' _ => hsame.outside i (Or.inr hi')), ?_⟩,
        hsame.mono le_rfl hhi⟩
      rw [all, hnew, Multiset.add_cons, add_assoc]
    · obtain ⟨⟨r', R'', hr', hnew⟩, hsame⟩ :=
        ihr (hlocal.mono ((Multiset.le_add_left _ _).trans (Multiset.le_cons_self ..))) hhi hlen hR
      refine ⟨⟨_, _, .both hc (hl.congr hlo fun i _ hi' => hsame.outside i (Or.inl hi')) hr', ?_⟩,
        hsame.mono hlo le_rfl⟩
      rw [all, hnew, Multiset.add_cons, add_left_comm]

/-! What the steps do where they are made. -/

section Rewrites

variable {e lo hi : ℕ}

/-- A step that does not write. -/
theorem rewrites_of {a : Activity} (h : ∀ ⦃lo hi : ℕ⦄ ⦃X : Multiset Activity⦄, lo ≤ hi → X ≤ M →
    Sorting v a.ex lo hi (some a) X → ∃ top Y, Sorting v a.ex lo hi top Y ∧ all top Y = new + X) :
    Rewrites v v a M new :=
  fun _ _ _ hle _ hX ha => ⟨h hle hX ha, .refl ..⟩

theorem rewrites_enter_fork :
    Rewrites v v ⟨ex, .enter lo hi, none⟩ M {⟨ex, .forked lo hi e, none⟩} :=
  rewrites_of fun _ _ _ _ _ ha => by
    cases ha with
    | enter => exact ⟨_, _, .forked e, rfl⟩
    | both hc => rcases hc with ⟨hc, -⟩ | ⟨hc, -⟩ <;> exact nomatch hc

theorem rewrites_first : Rewrites v v ⟨ex, .forked lo hi e, none⟩ M
    (⟨ex, .half lo hi e, none⟩ ::ₘ {⟨some e, .enter lo (middle lo hi), none⟩}) :=
  rewrites_of fun _ _ _ _ _ ha => by
    cases ha with
    | forked => exact ⟨_, _, .half .enter, rfl⟩
    | both hc => rcases hc with ⟨hc, -⟩ | ⟨hc, -⟩ <;> exact nomatch hc

theorem rewrites_second : Rewrites v v ⟨ex, .half lo hi e, none⟩ M
    (⟨ex, .joining lo hi e, none⟩ ::ₘ {⟨some e, .enter (middle lo hi) hi, none⟩}) :=
  rewrites_of fun _ _ _ _ _ ha => by
    cases ha with
    | half hl =>
      refine ⟨_, _, .both (Or.inl ⟨rfl, rfl⟩) hl .enter, ?_⟩
      rw [all, all, Multiset.cons_add, Multiset.singleton_add, Multiset.add_cons, add_zero]
    | both hc => rcases hc with ⟨hc, -⟩ | ⟨hc, -⟩ <;> exact nomatch hc

theorem rewrites_join : Rewrites v v ⟨ex, .joining lo hi e, none⟩ M
    {⟨ex, .merge lo hi, some e⟩} :=
  rewrites_of fun _ _ _ _ _ ha => by
    cases ha with
    | both hc hl hr =>
      rcases hc with ⟨hc, -⟩ | ⟨hc, -⟩
      · cases hc
        exact ⟨_, _, .both (Or.inr ⟨rfl, rfl⟩) hl hr, rfl⟩
      · exact nomatch hc

/-- The join returns when no function of the executor is left; so both halves are back. -/
theorem rewrites_joined {c : SortCode} (hnone : ∀ b ∈ M, b.ex ≠ some e) :
    Rewrites v v ⟨ex, c, some e⟩ M {⟨ex, c, none⟩} :=
  rewrites_of fun _ _ _ _ hX ha => by
    have hback {e : ℕ} {l : Option Activity} {L : Multiset Activity} {lo hi : ℕ}
        (hl : Sorting v (some e) lo hi l L) (hsub : ∀ b ∈ all l L, b.ex ≠ some e) :
        SortedOn v lo hi ∧ all l L = 0 := by
      cases l with
      | some b => exact absurd (hl.top_ex b rfl) (hsub b (Multiset.mem_cons_self ..))
      | none =>
        cases hl with
        | back h => exact ⟨h, rfl⟩
    cases ha with
    | both hc hl hr =>
      rcases hc with ⟨-, hj⟩ | ⟨rfl, hj⟩
      · exact nomatch hj
      · cases hj
        obtain ⟨hsl, hL⟩ := hback hl fun b hb =>
          hnone b (Multiset.mem_of_le hX (Multiset.mem_add.mpr (Or.inl hb)))
        obtain ⟨hsr, hR⟩ := hback hr fun b hb =>
          hnone b (Multiset.mem_of_le hX (Multiset.mem_add.mpr (Or.inr hb)))
        exact ⟨_, _, .merge hsl hsr, by rw [hL, hR]; rfl⟩

theorem rewrites_update {c : SortCode} {v' : List α}
    (h : (∃ lo hi, c = .enter lo hi ∧ v' = sortRange lo hi v ∨
      c = .merge lo hi ∧ v' = mergeRange lo (middle lo hi) hi v)) :
    Rewrites v v' ⟨ex, c, none⟩ M {⟨ex, .done, none⟩} := by
  intro lo hi X hle hlen _ ha
  obtain ⟨hlo, hhi⟩ := middle_le hle
  obtain ⟨l, r, ⟨rfl, rfl⟩ | ⟨rfl, rfl⟩⟩ := h
  · cases ha with
    | enter =>
      exact ⟨⟨_, _, .done (sortedOn_sortRange hle hlen), rfl⟩,
        permOn_sortRange hle hlen⟩
    | both hc => rcases hc with ⟨hc, -⟩ | ⟨hc, -⟩ <;> exact nomatch hc
  · cases ha with
    | merge hl hr =>
      exact ⟨⟨_, _, .done (sortedOn_mergeRange hlo hhi hlen hl hr), rfl⟩,
        permOn_mergeRange hle hlen⟩
    | both hc => rcases hc with ⟨hc, -⟩ | ⟨-, hc⟩ <;> exact nomatch hc

theorem rewrites_execute {c f k : SortCode} (h : forkJoinSort c v = .execute e f k) :
    Rewrites v v ⟨ex, c, none⟩ M (⟨ex, k, none⟩ ::ₘ {⟨some e, f, none⟩}) := by
  obtain ⟨lo, hi, ⟨rfl, rfl, rfl⟩ | ⟨rfl, rfl, rfl⟩⟩ := SortCode.of_execute h
  · exact rewrites_first
  · exact rewrites_second

theorem rewrites_ret : Rewrites v v ⟨ex, .done, none⟩ M 0 :=
  rewrites_of fun _ _ _ _ _ ha => by
    cases ha with
    | done h => exact ⟨_, _, .back h, rfl⟩
    | both hc => rcases hc with ⟨hc, -⟩ | ⟨hc, -⟩ <;> exact nomatch hc

end Rewrites

end Sorting

/-! ### The functions that have not returned -/

namespace Frame

/-- The executor that the function of a frame was given to. -/
def ex {K : Type*} : Frame K → Option ℕ
  | func _ ticket _ => some ticket.ex
  | _ => none

def activity (joins : Option ℕ) (fr : Frame SortCode) : Multiset Activity :=
  match fr.code with
  | some c => {⟨fr.ex, c, joins⟩}
  | none => 0

theorem activity_of_code {fr : Frame SortCode} {c : SortCode} (hcode : fr.code = some c)
    (joins : Option ℕ) : fr.activity joins = {⟨fr.ex, c, joins⟩} := by
  rw [activity, hcode]

theorem activity_goto {fr : Frame SortCode} (hcode : fr.code.isSome) (k : SortCode)
    (joins : Option ℕ) : (fr.goto k).activity joins = {⟨fr.ex, k, joins⟩} := by
  cases fr with
  | worker | join => exact nomatch hcode
  | body | func => rfl

end Frame

/-- The functions on a stack; a join belongs to the frame below it. -/
def activities : List (Frame SortCode) → Multiset Activity
  | .join e :: fr :: fs => fr.activity (some e) + activities fs
  | fr :: fs => fr.activity none + activities fs
  | [] => 0

theorem activities_of_code {fr : Frame SortCode} {c : SortCode} (hcode : fr.code = some c) :
    activities (fr :: fs) = ⟨fr.ex, c, none⟩ ::ₘ activities fs := by
  cases fr with
  | worker | join => exact nomatch hcode
  | body | func =>
    obtain rfl := Option.some.inj hcode
    rfl

theorem activities_goto {fr : Frame SortCode} (hcode : fr.code.isSome) (k : SortCode) :
    activities (fr.goto k :: fs) = ⟨fr.ex, k, none⟩ ::ₘ activities fs := by
  cases fr with
  | worker | join => exact nomatch hcode
  | body | func => rfl

theorem activities_join {fr : Frame SortCode} (hcode : fr.code.isSome) (e : ℕ) (k : SortCode) :
    activities (.join e :: fr.goto k :: fs) = ⟨fr.ex, k, some e⟩ ::ₘ activities fs := by
  rw [activities, Frame.activity_goto hcode, Multiset.singleton_add]

theorem activities_worker : activities (.worker :: fs) = activities fs := zero_add _

/-- A function in the queue. -/
def Func.activity (f : Func SortCode) : Activity := ⟨some f.ex, f.code, none⟩

def State.activities (s : State P SortCode (List α)) : Multiset Activity :=
  (s.queue_.map Func.activity : Multiset Activity) + ∑ t, ForkJoin.activities (s.thread t).stack

omit [LinearOrder α] [DecidableEq P] in
theorem state_activities_congr (hstack : ∀ t, (s'.thread t).stack = (s.thread t).stack)
    (hqueue : s'.queue_ = s.queue_) : s'.activities = s.activities := by
  simp only [State.activities, hstack, hqueue]

omit [LinearOrder α] in
/-- One thread goes on; `extra` is what it gives to the queue. -/
theorem state_activities_goto {u : State P SortCode (List α)} {extra old new R : Multiset Activity}
    (hthread : u.thread = s.thread)
    (hqueue : (u.queue_.map Func.activity : Multiset Activity) =
      extra + (s.queue_.map Func.activity : Multiset Activity))
    (hold : activities (s.thread t).stack = old + R) (hnew : activities fs = new + R) :
    ∃ M, s.activities = old + M ∧ (u.goto t fs).activities = extra + new + M := by
  have hmem : activities (s.thread t).stack ≤ s.activities :=
    (Finset.single_le_sum (f := fun q => activities (s.thread q).stack)
      (fun _ _ => Multiset.zero_le _) (Finset.mem_univ t)).trans (Multiset.le_add_left _ _)
  rw [hold] at hmem
  obtain ⟨M, hM⟩ := Multiset.le_iff_exists_add.mp ((Multiset.le_add_right _ _).trans hmem)
  refine ⟨M, hM, ?_⟩
  have hsum := sum_update (fun th : Thread SortCode => activities th.stack) s.thread t ⟨fs, false⟩
  rw [hold, show (Thread.mk fs false).stack = fs from rfl, hnew, ← add_assoc, ← add_assoc,
    add_left_inj] at hsum
  have hu : (u.goto t fs).activities = (u.queue_.map Func.activity : Multiset Activity) +
      ∑ q, activities ((Function.update s.thread t ⟨fs, false⟩) q).stack := by
    rw [← hthread]
    rfl
  rw [← add_left_inj old, hu, hqueue, add_assoc, add_assoc, hsum, add_assoc, add_assoc,
    add_comm M old, ← hM, State.activities, add_comm new, add_assoc]

def State.weight (s : State P SortCode (List α)) : ℕ :=
  (s.activities.map Activity.weight).sum + s.queue_.length

/-- A step of the code of one function: others take its place, which have less to do, and the
whole is kept in order. -/
def Moves (s s' : State P SortCode (List α)) : Prop :=
  ∃ a M new, s.activities = a ::ₘ M ∧ s'.activities = new + M ∧
    (new.map Activity.weight).sum + s'.queue_.length < a.weight + s.queue_.length ∧
      Sorting.Rewrites s.mem s'.mem a M new

omit [DecidableEq P] in
theorem Moves.weight_lt (h : Moves s s') : s'.weight < s.weight := by
  obtain ⟨a, M, new, hacts, hacts', hlt, -⟩ := h
  rw [State.weight, State.weight, hacts, hacts', Multiset.map_add, Multiset.sum_add,
    Multiset.map_cons, Multiset.sum_cons]
  omega

/-- One thread goes on, and `a` is replaced on its stack. -/
theorem moves_goto {u : State P SortCode (List α)} {new R : Multiset Activity} {a : Activity}
    (hthread : u.thread = s.thread) (hqueue : u.queue_ = s.queue_)
    (hold : activities (s.thread t).stack = a ::ₘ R) (hnew : activities fs = new + R)
    (hlt : (new.map Activity.weight).sum < a.weight)
    (hlocal : ∀ M, s.activities = a ::ₘ M → Sorting.Rewrites s.mem u.mem a M new) :
    Moves s (u.goto t fs) := by
  rw [← Multiset.singleton_add] at hold
  obtain ⟨M, hM, hM'⟩ := state_activities_goto hthread (by rw [hqueue, zero_add]) hold hnew
  rw [Multiset.singleton_add] at hM
  rw [zero_add] at hM'
  refine ⟨a, M, new, hM, hM', ?_, hlocal M hM⟩
  rw [show (u.goto t fs).queue_ = u.queue_ from rfl, hqueue]
  omega

theorem moves_one {u : State P SortCode (List α)} {R : Multiset Activity} {a b : Activity}
    (hthread : u.thread = s.thread) (hqueue : u.queue_ = s.queue_)
    (hold : activities (s.thread t).stack = a ::ₘ R) (hnew : activities fs = b ::ₘ R)
    (hlt : b.weight < a.weight)
    (hlocal : ∀ M, s.activities = a ::ₘ M → Sorting.Rewrites s.mem u.mem a M {b}) :
    Moves s (u.goto t fs) := by
  refine moves_goto hthread hqueue hold ?_ ?_ hlocal
  · rw [hnew, Multiset.singleton_add]
  · rwa [Multiset.map_singleton, Multiset.sum_singleton]

omit [DecidableEq P] in
theorem Moves.of_stack {u : State P SortCode (List α)} (h : Moves s u)
    (hstack : ∀ t, (s'.thread t).stack = (u.thread t).stack) (hqueue : s'.queue_ = u.queue_)
    (hmem : s'.mem = u.mem) : Moves s s' := by
  rw [Moves, state_activities_congr hstack hqueue, hmem, hqueue]
  exact h

section

omit [LinearOrder α] [DecidableEq P]

theorem mem_activities {b : Activity} (hb : b ∈ s.activities) :
    (∃ f ∈ s.queue_, f.activity = b) ∨
      ∃ t fr joins, fr ∈ (s.thread t).stack ∧ b ∈ fr.activity joins := by
  have hstack (fs : List (Frame SortCode)) (h : b ∈ activities fs) :
      ∃ fr joins, fr ∈ fs ∧ b ∈ fr.activity joins := by
    induction fs using activities.induct with
    | case1 e' fr fs ih =>
      rcases Multiset.mem_add.mp h with h | h
      · exact ⟨fr, _, by simp, h⟩
      · obtain ⟨fr', joins, hmem, hb'⟩ := ih h
        exact ⟨fr', joins, by simp [hmem], hb'⟩
    | case2 fr fs hne ih =>
      rw [activities] at h
      · rcases Multiset.mem_add.mp h with h | h
        · exact ⟨fr, _, by simp, h⟩
        · obtain ⟨fr', joins, hmem, hb'⟩ := ih h
          exact ⟨fr', joins, by simp [hmem], hb'⟩
      · exact hne
    | case3 => exact absurd h (Multiset.notMem_zero _)
  rcases Multiset.mem_add.mp hb with hq | hs
  · obtain ⟨f, hf, rfl⟩ := List.mem_map.mp (Multiset.mem_coe.mp hq)
    exact Or.inl ⟨f, hf, rfl⟩
  · obtain ⟨t, -, ht⟩ := Multiset.mem_sum.mp hs
    obtain ⟨fr, joins, hmem, hb'⟩ := hstack _ ht
    exact Or.inr ⟨t, fr, joins, hmem, hb'⟩

/-- A function that has not returned is unfinished. -/
theorem unfinished_of_activity {b : Activity} {e : ℕ} (hb : b ∈ s.activities) (he : b.ex = some e) :
    ∃ ticket ∈ s.accounts.unfinished, ticket.ex = e := by
  rcases mem_activities hb with ⟨f, hf, rfl⟩ | ⟨t, fr, joins, hmem, hfr⟩
  · exact ⟨f.ticket, mem_unfinished.mpr (Or.inl ⟨f, hf, rfl⟩), Option.some.inj he⟩
  · cases fr with
    | worker | join => exact absurd hfr (Multiset.notMem_zero _)
    | body c =>
      obtain rfl := Multiset.mem_singleton.mp hfr
      exact nomatch he
    | func c ticket stamp =>
      obtain rfl := Multiset.mem_singleton.mp hfr
      exact ⟨ticket, mem_unfinished.mpr (Or.inr ⟨t, c, stamp, hmem⟩), Option.some.inj he⟩

/-- As long as the sort of `main` has not returned, neither has `main`. -/
theorem Inv.not_stopped_of_activity (h : Inv s) {b : Activity} (hb : b ∈ s.activities)
    (hnone : b.ex = none) : s.stopped = false := by
  rcases mem_activities hb with ⟨f, hf, rfl⟩ | ⟨t, fr, joins, hmem, hfr⟩
  · exact nomatch hnone
  · cases fr with
    | worker | join => exact absurd hfr (Multiset.notMem_zero _)
    | func c ticket stamp =>
      obtain rfl := Multiset.mem_singleton.mp hfr
      exact nomatch hnone
    | body c =>
      have hframe : 1 ≤ ((s.thread t).stack.map Frame.bodies).sum :=
        List.single_le_sum (fun _ _ => Nat.zero_le _) _
          (List.mem_map_of_mem (f := Frame.bodies) hmem)
      have htotal := weight_le_sum (fun th : Thread SortCode => (th.stack.map Frame.bodies).sum)
        s.thread t
      have hbody := h.body
      rw [State.total] at hbody
      cases hs : s.stopped with
      | false => rfl
      | true =>
        rw [hs] at hbody
        simp only [Bool.not_true, Bool.toNat_false] at hbody
        omega

end

theorem weight_execute {c f k : SortCode} {ex : ℕ} (h : forkJoinSort c v = .execute ex f k) :
    k.weight + f.weight + 1 < c.weight := by
  obtain ⟨lo, hi, ⟨rfl, rfl, rfl⟩ | ⟨rfl, rfl, rfl⟩⟩ := SortCode.of_execute h <;>
    simp only [SortCode.weight] <;> omega

theorem weight_fork {lo hi : ℕ} (ex : ℕ) (h : 32768 < hi - lo) :
    (SortCode.forked lo hi ex).weight < (SortCode.enter lo hi).weight := by
  simp only [SortCode.weight, cost, middle]
  omega

theorem weight_done {c : SortCode} (h : ∃ lo hi, c = .enter lo hi ∨ c = .merge lo hi) :
    SortCode.done.weight < c.weight := by
  obtain ⟨lo, hi, rfl | rfl⟩ := h <;> simp only [SortCode.weight, cost] <;> omega

theorem moves_of_code {woken : Option P}
    (ht : Steps forkJoinSort threadCount s (.code t woken) s') : Moves s s' := by
  have hold {t : P} {fr : Frame SortCode} {fs : List (Frame SortCode)} {c : SortCode}
      (hstack : (s.thread t).stack = fr :: fs) (hcode : fr.code = some c) :
      activities (s.thread t).stack = ⟨fr.ex, c, none⟩ ::ₘ activities fs := by
    rw [hstack, activities_of_code hcode]
  cases ht with
  | @fork t woken fr fs c k hstack hcode hact =>
    have hsome : fr.code.isSome := by simp [hcode]
    obtain ⟨lo, hi, rfl, hlong, rfl⟩ := SortCode.of_fork hact
    exact moves_one rfl rfl (hold hstack hcode) (activities_goto hsome _)
      (weight_fork s.executors hlong)
      fun _ _ => Sorting.rewrites_enter_fork
  | @begin t woken fr fs c f k ex hstack hcode hact hex hlong =>
    have hsome : fr.code.isSome := by simp [hcode]
    have hlt := weight_execute hact
    refine moves_goto rfl rfl (hold hstack hcode) ?_ ?_
      fun _ _ => Sorting.rewrites_execute hact
    · rw [activities_of_code rfl, activities_goto hsome, Multiset.cons_add, Multiset.singleton_add]
      exact Multiset.cons_swap ..
    · simp only [Multiset.map_cons, Multiset.sum_cons, Multiset.map_singleton,
        Multiset.sum_singleton, Activity.weight, Option.isSome_none, Bool.false_eq_true, if_false]
      omega
  | @push t woken fr fs c f k ex s' hstack hcode hact hex hnotify =>
    have hsome : fr.code.isSome := by simp [hcode]
    have hlt := weight_execute hact
    have hpush : Moves s ((({ s with
        next_id := s.next_id + 1
        queue_ := s.queue_ ++ [⟨s.next_id, ex, f⟩] } : State P _ _).doWorkStarted ex).goto t
          (fr.goto k :: fs)) := by
      have hqueue : ((s.queue_ ++ [(⟨s.next_id, ex, f⟩ : Func _)]).map Func.activity :
          Multiset Activity) =
            {⟨some ex, f, none⟩} + (s.queue_.map Func.activity : Multiset Activity) := by
        rw [List.map_append, ← Multiset.coe_add, add_comm]
        rfl
      obtain ⟨M, hM, hM'⟩ := state_activities_goto (s := s)
        (u := ({ s with
          next_id := s.next_id + 1
          queue_ := s.queue_ ++ [⟨s.next_id, ex, f⟩] } : State P _ _).doWorkStarted ex) rfl
        hqueue ((hold hstack hcode).trans (Multiset.singleton_add ..).symm)
        ((activities_goto hsome k).trans (Multiset.singleton_add ..).symm)
      rw [Multiset.singleton_add] at hM
      refine ⟨_, M, _, hM, ?_, ?_, Sorting.rewrites_execute hact⟩
      · rw [hM', ← Multiset.singleton_add]
        exact congrArg (· + M) (add_comm _ _)
      · simp only [Multiset.map_cons, Multiset.sum_cons, Multiset.map_singleton,
          Multiset.sum_singleton, Activity.weight, Option.isSome_none, Bool.false_eq_true,
          if_false, State.goto, State.doWorkStarted, List.length_append, List.length_singleton]
        omega
    rcases notifyOne_cases hnotify with ⟨q, -, rfl⟩ | ⟨-, rfl⟩
    · exact hpush.of_stack (wake_stack _ q) rfl rfl
    · exact hpush
  | @join t woken fr fs c k ex hstack hcode hact hex =>
    have hsome : fr.code.isSome := by simp [hcode]
    obtain ⟨lo, hi, rfl, rfl⟩ := SortCode.of_join hact
    exact moves_one rfl rfl (hold hstack hcode) (activities_join hsome _ _) (Nat.lt_add_one 3)
      fun _ _ => Sorting.rewrites_join
  | @update t woken fr fs c k g hstack hcode hact =>
    have hsome : fr.code.isSome := by simp [hcode]
    obtain ⟨rfl, hc⟩ := SortCode.of_update hact
    exact moves_one rfl rfl (hold hstack hcode) (activities_goto hsome _)
      (weight_done (hc.imp fun _ => Exists.imp fun _ => Or.imp And.left And.left))
      fun _ _ => Sorting.rewrites_update hc
  | @ret t woken fs c ticket stamp hstack hact =>
    obtain rfl := SortCode.of_ret hact
    have hpop : Moves s (({ s with ended := ticket ::ₘ s.ended } : State P _ _).goto t fs) :=
      moves_goto rfl rfl (hold hstack rfl) (zero_add _).symm Nat.one_pos
        fun _ _ => Sorting.rewrites_ret
    rw [State.doWorkFinished]
    dsimp only
    split
    · exact hpop.of_stack (fun _ => rfl) rfl rfl
    · exact hpop.of_stack (fun _ => rfl) rfl rfl
  | @stop t woken fs c hstack hact =>
    obtain rfl := SortCode.of_ret hact
    have hpop : Moves s (s.goto t fs) :=
      moves_goto rfl rfl (hold hstack rfl) (zero_add _).symm Nat.one_pos
        fun _ _ => Sorting.rewrites_ret
    exact hpop.of_stack (fun _ => rfl) rfl rfl

theorem moves_of_joined (h : Live main s) {ex : ℕ} (hstack : (s.thread t).stack = .join ex :: fs)
    (hwork : s.work_count_ ex = 0) : Moves s (s.goto t fs) := by
  have htop := hstack ▸ h.seated.stack t
  obtain ⟨fr, fs, rfl, -, hsome, -⟩ := htop.join_top
  obtain ⟨c, hcode⟩ := Option.isSome_iff_exists.mp hsome
  have hold : activities (s.thread t).stack = ⟨fr.ex, c, some ex⟩ ::ₘ activities fs := by
    rw [hstack, activities, Frame.activity_of_code hcode, Multiset.singleton_add]
  refine moves_one rfl rfl hold (activities_of_code hcode) (Nat.lt_add_one c.weight)
    fun M hM => Sorting.rewrites_joined fun b hb he => ?_
  obtain ⟨ticket, hticket, hex⟩ := unfinished_of_activity (hM ▸ Multiset.mem_cons_of_mem hb) he
  exact h.inv.not_unfinished hwork hticket hex

/-- **The invariant of the sort.** -/
structure Sorted (v₀ : List α) (s : State P SortCode (List α)) : Prop where
  perm : s.mem.Perm v₀
  tree : ∃ top X, Sorting s.mem none 0 v₀.length top X ∧ all top X = s.activities

omit [DecidableEq P] in
theorem Sorted.moves {v₀ : List α} (h : Sorted v₀ s) (hm : Moves s s') : Sorted v₀ s' := by
  obtain ⟨top, X, htree, hall⟩ := h.tree
  obtain ⟨a, M, new, hacts, hacts', -, hlocal⟩ := hm
  obtain ⟨⟨top', Y, htree', hnew⟩, hsame⟩ :=
    htree.replace hlocal (Nat.zero_le _) (Nat.le_of_eq h.perm.length_eq.symm) (hall.trans hacts)
  exact ⟨hsame.perm.trans h.perm, top', Y, htree', hnew.trans hacts'.symm⟩

/-! ### The loops -/

def Label.isWake {P : Type*} : Label P → Bool
  | .wake _ => true
  | .code _ _ | .loop _ => false

/-- What a thread can still do on its own: wait, and end. -/
def Thread.restless {K : Type*} (th : Thread K) : ℕ :=
  (!th.waiting).toNat + (!th.stack.isEmpty).toNat

theorem Thread.restless_le {K : Type*} (th : Thread K) : th.restless ≤ 2 :=
  Nat.add_le_add (Bool.toNat_le _) (Bool.toNat_le _)

def State.restless (s : State P SortCode (List α)) : ℕ := ∑ t, (s.thread t).restless

omit [LinearOrder α] [DecidableEq P] in
theorem State.restless_le (s : State P SortCode (List α)) : s.restless ≤ 2 * Fintype.card P := by
  have hsum : s.restless ≤ ∑ _t : P, 2 := Finset.sum_le_sum fun t _ => (s.thread t).restless_le
  rwa [Finset.sum_const_nat fun _ _ => rfl, Finset.card_univ, Nat.mul_comm] at hsum

/-- The steps that are left, up to spurious wake-ups. -/
def State.cost (s : State P SortCode (List α)) : ℕ :=
  (2 * Fintype.card P + 1) * s.weight + s.restless

omit [LinearOrder α] [DecidableEq P] in
theorem cost_lt_of_weight (h : s'.weight < s.weight) : s'.cost < s.cost := by
  have hmul := Nat.mul_le_mul_left (2 * Fintype.card P + 1) (Nat.succ_le_of_lt h)
  have hle := s'.restless_le
  rw [Nat.mul_succ] at hmul
  rw [State.cost, State.cost]
  omega

/-- The functions and the vector are as they were. -/
def Rests (s s' : State P SortCode (List α)) : Prop :=
  s'.activities = s.activities ∧ s'.mem = s.mem

omit [LinearOrder α] in
theorem restless_update {fs : List (Frame SortCode)} {waiting : Bool}
    (h : s'.thread = Function.update s.thread t ⟨fs, waiting⟩) :
    s'.restless + (s.thread t).restless = s.restless + (Thread.mk fs waiting).restless := by
  rw [State.restless, h]
  exact sum_update Thread.restless s.thread t ⟨fs, waiting⟩

omit [LinearOrder α] [DecidableEq P] in
theorem cost_lt_of_restless (hacts : s'.activities = s.activities) (hqueue : s'.queue_ = s.queue_)
    (h : s'.restless < s.restless) : s'.cost < s.cost := by
  rw [State.cost, State.cost, State.weight, State.weight, hacts, hqueue]
  omega

/-- A turn of a loop: if no join returns, the thread takes a function, waits or ends. -/
theorem moves_of_loop (h : Live main s) (ht : Steps forkJoinSort threadCount s (.loop t) s') :
    Moves s s' ∨ Rests s s' ∧ s'.cost < s.cost := by
  cases ht with
  | @exit t fs hawake hstack huse =>
    have hacts : (s.goto t fs).activities = s.activities := by
      have hsame : activities fs = activities (s.thread t).stack := by
        rw [hstack, activities_worker]
      obtain ⟨M, hM, hM'⟩ := state_activities_goto (s := s) (u := s) (t := t) rfl
        (zero_add _).symm (zero_add _).symm (hsame.trans (zero_add _).symm)
      rw [hM, hM', add_zero]
    refine Or.inr ⟨⟨hacts, rfl⟩, cost_lt_of_restless hacts rfl ?_⟩
    have hsum : (s.goto t fs).restless + _ = _ := restless_update rfl
    have htop := hstack ▸ h.seated.stack t
    rw [htop.worker_top] at hsum ⊢
    rw [Thread.restless, Thread.restless, hstack, hawake] at hsum
    simp only [List.isEmpty_cons, List.isEmpty_nil, Bool.not_false, Bool.not_true, Bool.toNat_true,
      Bool.toNat_false] at hsum
    omega
  | @joined t fs ex hawake hstack hwork => exact Or.inl (moves_of_joined h hstack hwork)
  | @wait t fr fs hawake hstack hloop hqueue =>
    have hacts : (s.wait t).activities = s.activities := state_activities_congr (wait_stack s t) rfl
    refine Or.inr ⟨⟨hacts, rfl⟩, cost_lt_of_restless hacts rfl ?_⟩
    have hsum : (s.wait t).restless + _ = _ := restless_update rfl
    rw [Thread.restless, Thread.restless, hawake] at hsum
    simp only [Bool.not_false, Bool.not_true, Bool.toNat_true, Bool.toNat_false] at hsum
    omega
  | @take t fr fs f rest hawake hstack hloop hqueue =>
    have hacts : (({ s with queue_ := rest } : State P _ _).begin t (fr :: fs) f.code
        f.ticket).activities = s.activities := by
      have hnew : activities (.func f.code f.ticket (s.clock + 1) :: fr :: fs) =
          {f.activity} + activities (fr :: fs) := by
        rw [activities_of_code rfl, Multiset.singleton_add]
        rfl
      obtain ⟨M, hM, hM'⟩ := state_activities_goto (s := ({ s with queue_ := rest } : State P _ _))
        (u := ({ s with queue_ := rest, clock := s.clock + 1 } : State P _ _)) (t := t) rfl
        (zero_add _).symm ((congrArg activities hstack).trans (zero_add _).symm) hnew
      refine hM'.trans ?_
      rw [zero_add] at hM
      rw [zero_add, ← hM, State.activities, State.activities, hqueue, List.map_cons,
        ← Multiset.cons_coe, Multiset.singleton_add, Multiset.cons_add]
    refine Or.inr ⟨⟨hacts, rfl⟩, cost_lt_of_weight ?_⟩
    rw [State.weight, State.weight, hacts, hqueue]
    exact Nat.lt_add_one _

omit [LinearOrder α] in
theorem cost_wake (hwait : (s.thread t).waiting = true) : (s.wake t).cost ≤ s.cost + 1 := by
  have hacts : (s.wake t).activities = s.activities := state_activities_congr (wake_stack s t) rfl
  have hsum : (s.wake t).restless + _ = _ := restless_update rfl
  rw [Thread.restless, Thread.restless, hwait] at hsum
  simp only [Bool.not_false, Bool.not_true, Bool.toNat_true, Bool.toNat_false] at hsum
  rw [State.cost, State.cost, State.weight, State.weight, hacts,
    show (s.wake t).queue_ = s.queue_ from rfl]
  omega

/-- **What a step does to the sort.** -/
theorem moves_step {l : Label P} (h : Live main s) (ht : Steps forkJoinSort threadCount s l s') :
    (Moves s s' ∨ Rests s s') ∧
      if l.isWake = true then s'.cost ≤ s.cost + 1 else s'.cost < s.cost := by
  cases l with
  | code t woken =>
    have hmoves := moves_of_code ht
    exact ⟨Or.inl hmoves, cost_lt_of_weight hmoves.weight_lt⟩
  | loop t =>
    rcases moves_of_loop h ht with hmoves | ⟨hrests, hlt⟩
    · exact ⟨Or.inl hmoves, cost_lt_of_weight hmoves.weight_lt⟩
    · exact ⟨Or.inr hrests, hlt⟩
  | wake t =>
    cases ht with
    | wake hwait =>
      exact ⟨Or.inr ⟨state_activities_congr (wake_stack s t) rfl, rfl⟩, cost_wake hwait⟩

/-! ### The sort as a whole -/

omit [DecidableEq P] in
theorem Sorted.step {v₀ : List α} (h : Sorted v₀ s) (hm : Moves s s' ∨ Rests s s') :
    Sorted v₀ s' := by
  rcases hm with hm | ⟨hacts, hmem⟩
  · exact h.moves hm
  · obtain ⟨top, X, htree, hall⟩ := h.tree
    exact ⟨hmem ▸ h.perm, top, X, hmem ▸ htree, hall.trans hacts.symm⟩

theorem sorted_initial (main : P) (v : List α) :
    Sorted v (State.initial main (.enter 0 v.length) v) where
  perm := .refl v
  tree := by
    refine ⟨_, _, .enter, ?_⟩
    have hthread : ∀ t, activities ((State.initial main (.enter 0 v.length) v).thread t).stack =
        if t = main then {⟨none, .enter 0 v.length, none⟩} else 0 := fun t => by
      by_cases ht : t = main <;> simp [State.initial, ht] <;> rfl
    rw [State.activities, Finset.sum_congr rfl fun t _ => hthread t]
    simp [State.initial, all]

/-- Everything that holds in the runs of the sort. -/
structure SortInv (main : P) (v : List α) (s : State P SortCode (List α)) : Prop where
  live : Live main s
  owning : Owning s
  sorted : Sorted v s

theorem SortInv.step {l : Label P} (h : SortInv main v s)
    (ht : s.next forkJoinSort threadCount l = some s') : SortInv main v s' where
  live := h.live.step (h.owning.ownOnly l) ht
  owning := h.owning.step (steps_of_next ht)
  sorted := h.sorted.step (moves_step h.live (steps_of_next ht)).1

theorem sortInv_initial (main : P) (v : List α) :
    SortInv main v (State.initial main (.enter 0 v.length) v) :=
  ⟨live_initial .., owning_initial .., sorted_initial ..⟩

theorem sortInv_of_reachable (h : (sortSystem threadCount main v).Reachable s) :
    SortInv main v s :=
  h.invariant (fun _ hs => hs ▸ sortInv_initial main v) fun _ _ _ _ hs ht => hs.step ht

omit [LinearOrder α] in
theorem exists_notifyOne (s : State P SortCode (List α)) :
    ∃ woken s', s.notifyOne woken = some s' := by
  by_cases hwait : ∃ q, (s.thread q).waiting = true
  · obtain ⟨q, hq⟩ := hwait
    exact ⟨some q, s.wake q, by rw [State.notifyOne, if_pos hq]⟩
  · have hall : ∀ q, (s.thread q).waiting = false := by simpa using hwait
    exact ⟨none, s, by rw [State.notifyOne, if_pos hall]⟩

/-- A thread whose code is at a step can make it. -/
theorem SortInv.exists_code (h : SortInv main v s) (threadCount : ℕ) {fr : Frame SortCode}
    {c : SortCode} (hstack : (s.thread t).stack = fr :: fs) (hcode : fr.code = some c) :
    ∃ woken s', s.next forkJoinSort threadCount (.code t woken) = some s' := by
  have hex : ∀ ex ∈ c.own, ex < s.executors := fun ex hex =>
    (h.owning.frame t fr (hstack ▸ List.mem_cons_self ..) c hcode ex hex).1
  have hnext (woken : Option P) : s.next forkJoinSort threadCount (.code t woken) =
      s.run threadCount t fr fs woken (forkJoinSort c s.mem) := by
    simp only [State.next, hstack, hcode]
  simp only [hnext]
  cases hact : forkJoinSort c s.mem with
  | fork k | update g k | ret => exact ⟨none, _, rfl⟩
  | join ex k =>
    have hlt : ex < s.executors := hex ex (SortCode.own_of_joined (by rw [hact]; rfl))
    exact ⟨none, _, by rw [State.run, if_pos hlt]⟩
  | execute ex f k =>
    have hlt : ex < s.executors := hex ex (SortCode.own_of_execute hact)
    simp only [State.run, if_pos hlt, State.doExecute]
    split
    · exact ⟨none, _, rfl⟩
    · exact exists_notifyOne _

/-- The steps that nobody has to wait for. -/
def unaidedSort (threadCount : ℕ) (main : P) (v : List α) :
    System (State P SortCode (List α)) (Label P) :=
  (sortSystem threadCount main v).restrict fun _ l => l.isWake = false

/-- Where nobody can go on, all threads have ended. -/
theorem SortInv.ended_of_stuck (h : SortInv main v s) {w : P} (hw : w ≠ main)
    (hstuck : (unaidedSort threadCount main v).Stuck s) (t : P) : (s.thread t).stack = [] := by
  by_contra hne
  obtain ⟨q, hawake, hq⟩ := h.live.exists_awake hw ⟨t, hne⟩
  obtain ⟨fr, fs, hstack⟩ := List.exists_cons_of_ne_nil hq
  cases hcode : fr.code with
  | some c =>
    obtain ⟨woken, s', hs'⟩ := h.exists_code threadCount hstack hcode
    exact hstuck _ _ ⟨hs', rfl⟩
  | none =>
    have hloop : ∃ s', s.next forkJoinSort threadCount (.loop q) = some s' := by
      simp only [State.next, hawake, hstack, Bool.false_eq_true, if_false]
      cases fr with
      | worker | join => exact ⟨_, rfl⟩
      | body | func => cases hcode
    obtain ⟨s', hs'⟩ := hloop
    exact hstuck _ _ ⟨hs', rfl⟩

omit [DecidableEq P] in
/-- `main` returns from the sort, and then the vector is in order. -/
theorem SortInv.sorted_of_stopped (h : SortInv main v s) (hstop : s.stopped = true) :
    s.mem.Pairwise (· ≤ ·) ∧ s.mem.Perm v := by
  refine ⟨?_, h.sorted.perm⟩
  obtain ⟨top, X, htree, hall⟩ := h.sorted.tree
  cases top with
  | some b =>
    have hopen := h.live.inv.not_stopped_of_activity (hall ▸ Multiset.mem_cons_self b X)
      (htree.top_ex b rfl)
    rw [hstop] at hopen
    exact nomatch hopen
  | none =>
    cases htree with
    | back hsorted =>
      rw [← h.sorted.perm.length_eq] at hsorted
      exact hsorted.all

omit [DecidableEq P] in
theorem SortInv.stopped_of_ended (h : SortInv main v s) (hended : ∀ t, (s.thread t).stack = []) :
    s.stopped = true := by
  have hbodies : s.total Frame.bodies = 0 := Finset.sum_eq_zero fun t _ => by simp [hended t]
  have hbody := h.live.inv.body
  rw [hbodies] at hbody
  cases hs : s.stopped with
  | true => rfl
  | false =>
    rw [hs] at hbody
    exact nomatch hbody

theorem length_le_of_run {ls : List (Label P)}
    (h : (sortSystem threadCount main v).Run (.initial main (.enter 0 v.length) v) ls s) :
    ls.length ≤ (State.initial main (.enter 0 v.length) v).cost + 2 * ls.countP Label.isWake := by
  have hbound := (h.length_le (P := SortInv main v) State.cost Label.isWake
    (fun _ _ _ hs ht => ⟨hs.step ht, (moves_step hs.live (steps_of_next ht)).2⟩)
    (sortInv_initial main v)).2
  omega

/-- **The sort sorts, whatever the order of steps.**  When `main` returns from it, the vector is
in order and has the elements that it had.  It returns: where no thread can go on, all have
ended, and there is a bound on the number of steps, up to spurious wake-ups. -/
theorem sort_sorts {w : P} (hw : w ≠ main) (threadCount : ℕ) (v : List α) :
    (∀ s, (sortSystem threadCount main v).Reachable s →
      (s.stopped = true → s.mem.Pairwise (· ≤ ·) ∧ s.mem.Perm v) ∧
      ((unaidedSort threadCount main v).Stuck s →
        (∀ t, (s.thread t).stack = []) ∧ s.stopped = true)) ∧
    ∃ bound, ∀ s ls,
      (sortSystem threadCount main v).Run (.initial main (.enter 0 v.length) v) ls s →
        ls.length ≤ bound + 2 * ls.countP Label.isWake := by
  refine ⟨fun s hs => ?_, _, fun _ _ hrun => length_le_of_run hrun⟩
  have hinv := sortInv_of_reachable hs
  refine ⟨hinv.sorted_of_stopped, fun hstuck => ?_⟩
  have hended := hinv.ended_of_stuck hw hstuck
  exact ⟨hended, hinv.stopped_of_ended hended⟩

/-- Each half goes into the queue; the thread of the pool sorts the first one, and the joining
thread the second one. -/
def forking : List (Label (Fin 2)) :=
  [.code 0 none, .code 0 none, .code 0 none, .code 0 none, .loop 1, .loop 0, .code 1 none,
    .code 0 none, .code 1 none, .code 0 none, .loop 0, .code 0 none, .code 0 none, .loop 1]

theorem sort_sorts_forking : ∃ s : State (Fin 2) SortCode (List ℕ), s.ended.card = 2 ∧
    s.stopped = true ∧ s.mem.Pairwise (· ≤ ·) ∧ s.mem.Perm (List.range 32769).reverse := by
  have hlen : (List.range 32769).reverse.length = 32769 := by simp
  generalize (List.range 32769).reverse = v at hlen ⊢
  have hrun : ((forking.foldlM (State.next forkJoinSort 1) (.initial 0 (.enter 0 32769) v)).map
      fun s => decide (s.ended.card = 2 ∧ s.stopped = true)) = some true := by rfl
  obtain ⟨s, hs, hend⟩ := Option.map_eq_some_iff.mp hrun
  obtain ⟨hcard, hstop⟩ := of_decide_eq_true hend
  have hreach : (sortSystem (P := Fin 2) 1 0 v).Reachable s :=
    ⟨_, forking, rfl, System.run_ofStep (hlen ▸ hs)⟩
  exact ⟨s, hcard, hstop, ((sort_sorts (w := 1) (by decide) 1 v).1 s hreach).1 hstop⟩

/-! ### No two functions are about to write to one place -/

/-- The code is about to sort or to merge a range with the position `i` in it. -/
def SortCode.Touches (i : ℕ) : SortCode → Prop
  | enter lo hi => hi - lo ≤ 32768 ∧ lo ≤ i ∧ i < hi
  | merge lo hi => lo ≤ i ∧ i < hi
  | forked _ _ _ | half _ _ _ | joining _ _ _ | done => False

instance SortCode.decidableTouches (i : ℕ) : ∀ c : SortCode, Decidable (c.Touches i)
  | enter _ _ => inferInstanceAs (Decidable (_ ∧ _ ∧ _))
  | merge _ _ => inferInstanceAs (Decidable (_ ∧ _))
  | forked _ _ _ | half _ _ _ | joining _ _ _ | done => isFalse id

/-- How many functions are about to write at the position `i`. -/
def writers (i : ℕ) (A : Multiset Activity) : ℕ :=
  A.countP fun a => a.joins = none ∧ a.code.Touches i

theorem writers_cons (i : ℕ) (a : Activity) (A : Multiset Activity) : writers i (a ::ₘ A) =
    writers i A + if a.joins = none ∧ a.code.Touches i then 1 else 0 :=
  Multiset.countP_cons ..

theorem writers_add (i : ℕ) (A B : Multiset Activity) :
    writers i (A + B) = writers i A + writers i B :=
  Multiset.countP_add ..

/-- At most one function is about to write at a position, and only if the range has it. -/
theorem Sorting.writers_le {ex : Option ℕ} {lo hi : ℕ} {top : Option Activity}
    {X : Multiset Activity} (h : Sorting v ex lo hi top X) (hle : lo ≤ hi) (i : ℕ) :
    writers i (all top X) ≤ if lo ≤ i ∧ i < hi then 1 else 0 := by
  have hleaf {b : Activity} {lo hi : ℕ} (htouch : b.code.Touches i → lo ≤ i ∧ i < hi) :
      writers i (all (some b) 0) ≤ if lo ≤ i ∧ i < hi then 1 else 0 := by
    rw [all, writers_cons, show writers i 0 = 0 from rfl, zero_add]
    split
    · rename_i hb
      rw [if_pos (htouch hb.2)]
    · exact Nat.zero_le _
  induction h with
  | back => exact Nat.zero_le _
  | enter => exact hleaf And.right
  | merge => exact hleaf id
  | forked | done => exact hleaf False.elim
  | @half ex lo hi e l L hl ihl =>
    obtain ⟨hlo, hhi⟩ := middle_le hle
    have hbelow := ihl hlo
    rw [all, writers_cons, if_neg fun hb => hb.2]
    split at hbelow <;> split <;> omega
  | @both ex lo hi e c j l r L R hc hl hr ihl ihr =>
    obtain ⟨hlo, hhi⟩ := middle_le hle
    have hleft := ihl hlo
    have hright := ihr hhi
    have hroot : ¬(j = none ∧ c.Touches i) := by
      rcases hc with ⟨rfl, -⟩ | ⟨-, rfl⟩
      · exact fun hb => hb.2
      · exact fun hb => nomatch hb.1
    rw [all, writers_cons, if_neg hroot, writers_add]
    split at hleft <;> split at hright <;> split <;> omega

/-- **No two threads are about to write to one place.**  What a thread sorts or merges is its
own, as long as it does. -/
theorem no_race (h : (sortSystem threadCount main v).Reachable s) {t' : P} (hne : t ≠ t')
    {fr fr' : Frame SortCode} {fs' : List (Frame SortCode)} {c c' : SortCode}
    (hstack : (s.thread t).stack = fr :: fs) (hcode : fr.code = some c)
    (hstack' : (s.thread t').stack = fr' :: fs') (hcode' : fr'.code = some c') (i : ℕ)
    (htouch : c.Touches i) : ¬ c'.Touches i := by
  intro htouch'
  obtain ⟨top, X, htree, hall⟩ := (sortInv_of_reachable h).sorted.tree
  have hone := htree.writers_le (Nat.zero_le _) i
  have htop {t : P} {fr : Frame SortCode} {fs : List (Frame SortCode)} {c : SortCode}
      (hstack : (s.thread t).stack = fr :: fs) (hcode : fr.code = some c) (htouch : c.Touches i) :
      1 ≤ writers i (activities (s.thread t).stack) := by
    rw [hstack, activities_of_code hcode, writers_cons, if_pos ⟨rfl, htouch⟩]
    exact Nat.le_add_left _ _
  have hsum : ∑ q, writers i (activities (s.thread q).stack) ≤ writers i s.activities := by
    rw [State.activities, writers_add]
    refine le_of_eq_of_le ?_ (Nat.le_add_left _ _)
    exact (map_sum (Multiset.countPAddMonoidHom fun a : Activity =>
      a.joins = none ∧ a.code.Touches i) _ _).symm
  have htwo := add_weight_le_sum (fun th : Thread SortCode => writers i (activities th.stack))
    s.thread hne
  have hfirst := htop hstack hcode htouch
  have hsecond := htop hstack' hcode' htouch'
  rw [hall] at hone
  split at hone <;> omega

theorem no_race_halves : ∃ s : State (Fin 3) SortCode (List ℕ),
    (s.thread 1).stack = [.func (.enter 0 20000) ⟨0, 0⟩ 1, .worker] ∧
      (s.thread 2).stack = [.func (.enter 20000 40000) ⟨1, 0⟩ 2, .worker] ∧
      ¬ (SortCode.enter 20000 40000).Touches 5 := by
  let v : List ℕ := List.replicate 40000 0
  -- `main` forks both halves, and two threads of the pool take them
  let ls : List (Label (Fin 3)) := [.code 0 none, .code 0 none, .code 0 none, .loop 1, .loop 2]
  have hrun (v : List ℕ) : ∃ s, (system forkJoinSort 2 (0 : Fin 3) (.enter 0 40000) v).Run
      (.initial 0 (.enter 0 40000) v) ls s ∧
      (s.thread 1).stack = [.func (.enter 0 20000) ⟨0, 0⟩ 1, .worker] ∧
      (s.thread 2).stack = [.func (.enter 20000 40000) ⟨1, 0⟩ 2, .worker] :=
    ⟨_, System.run_ofStep (by rfl), by rfl, by rfl⟩
  obtain ⟨s, hs, hone, htwo⟩ := hrun v
  have hreach : (sortSystem 2 0 v).Reachable s := by
    rw [sortSystem, show v.length = 40000 from List.length_replicate]
    exact ⟨_, ls, rfl, hs⟩
  exact ⟨s, hone, htwo, no_race hreach (t := 1) (by decide) hone rfl htwo rfl 5 (by decide)⟩

end CppProgramming.Executors.ForkJoin
