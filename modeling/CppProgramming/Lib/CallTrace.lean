import CppProgramming.Lib.Transition
import Mathlib.Data.Finset.Erase
import Mathlib.Data.Finset.Range
import Mathlib.Logic.Function.Basic

/-!
# Tracing calls with a pool of instances

A probe runs one handler when a function is called and another one when the call
returns.  What the first leaves for the second is in an instance, one of a fixed
number that the probe has, and an instance is taken again after the return with
what it held before.  A call that finds no free instance is not traced.

`step` is this machine, for any probes and any tasks whose calls nest and
interleave.  In `ownStep` every call keeps what is its own.  Where no entry
handler looks at what the instance held (`Probe.Overwrites`), the first machine
refines the second, and what the return of a call prints depends on that call
alone (`paired`).
-/

namespace CppProgramming.Lib.CallTrace

open Function

/-! ### The machine -/

/-- A probe with arguments `α` at the entry and `β` at the return, data `δ` and lines `ω`. -/
structure Probe (α β δ ω : Type*) where
  entry : α → δ → δ × List ω
  ret : β → δ → List ω
  maxactive : ℕ

/-- A call that has not returned, with the instance that it has taken. -/
structure Frame (ι : Type*) where
  probe : ι
  slot : Option ℕ

structure State (ι τ δ ω : Type*) where
  data : ι → ℕ → δ
  free : ι → Finset ℕ
  stack : τ → List (Frame ι)
  log : List ω

inductive Event (ι τ α β : Type*)
  | call (t : τ) (p : ι) (slot : Option ℕ) (a : α)
  | ret (t : τ) (b : β)

variable {ι τ α β δ ω : Type*}

/-! ### Stacks of calls -/

/-- Two calls do not share an instance. -/
def Frame.Apart (f g : Frame ι) : Prop := f.slot = none ∨ f ≠ g

theorem Frame.Apart.symm {f g : Frame ι} (h : f.Apart g) : g.Apart f := by
  rcases h with hf | hne
  · by_cases hg : g.slot = none
    · exact .inl hg
    · exact .inr fun hgf => hg (hgf ▸ hf)
  · exact .inr hne.symm

structure Separate (S : τ → List (Frame ι)) : Prop where
  nested : ∀ t, (S t).Pairwise Frame.Apart
  apart : ∀ t u, t ≠ u → ∀ f ∈ S t, ∀ g ∈ S u, f.Apart g

variable [DecidableEq τ]

theorem mem_push {S : τ → List (Frame ι)} {t u : τ} {f g : Frame ι} :
    g ∈ update S t (f :: S t) u ↔ (u = t ∧ g = f) ∨ g ∈ S u := by
  by_cases hu : u = t
  · subst hu
    simp
  · simp [hu]

theorem mem_pop {S : τ → List (Frame ι)} {t u : τ} {f g : Frame ι} {rest : List (Frame ι)}
    (hs : S t = f :: rest) (hg : g ∈ update S t rest u) : g ∈ S u := by
  by_cases hu : u = t
  · subst hu
    rw [update_self] at hg
    exact hs ▸ List.mem_cons_of_mem f hg
  · rwa [update_of_ne hu] at hg

/-- Where a call stays that is not the one that returns. -/
theorem mem_of_ne {S : τ → List (Frame ι)} {t u : τ} {f g : Frame ι} {rest : List (Frame ι)}
    (hs : S t = f :: rest) (hg : g ∈ S u) (hne : g ≠ f) : g ∈ update S t rest u := by
  by_cases hu : u = t
  · subst hu
    rw [hs] at hg
    rw [update_self]
    exact (List.mem_cons.mp hg).resolve_left hne
  · rwa [update_of_ne hu]

namespace Separate

theorem push {S : τ → List (Frame ι)} (h : Separate S) (t : τ) {f : Frame ι}
    (hf : ∀ u, ∀ g ∈ S u, f.Apart g) : Separate (update S t (f :: S t)) := by
  constructor
  · intro u
    by_cases hu : u = t
    · subst hu
      rw [update_self]
      exact .cons (hf u) (h.nested u)
    · rw [update_of_ne hu]
      exact h.nested u
  · intro u v huv g hg k hk
    rcases mem_push.mp hg with ⟨hut, rfl⟩ | hgu
    · rcases mem_push.mp hk with ⟨hvt, -⟩ | hkv
      · exact absurd (hut.trans hvt.symm) huv
      · exact hf v k hkv
    · rcases mem_push.mp hk with ⟨-, rfl⟩ | hkv
      · exact (hf u g hgu).symm
      · exact h.apart u v huv g hgu k hkv

theorem pop {S : τ → List (Frame ι)} (h : Separate S) {t : τ} {f : Frame ι}
    {rest : List (Frame ι)} (hs : S t = f :: rest) : Separate (update S t rest) := by
  constructor
  · intro u
    by_cases hu : u = t
    · subst hu
      rw [update_self]
      exact (hs ▸ h.nested u).of_cons
    · rw [update_of_ne hu]
      exact h.nested u
  · intro u v huv g hg k hk
    exact h.apart u v huv g (mem_pop hs hg) k (mem_pop hs hk)

/-- No other call has the instance of one that returns. -/
theorem popped {S : τ → List (Frame ι)} (h : Separate S) {t : τ} {f : Frame ι}
    {rest : List (Frame ι)} (hs : S t = f :: rest) {u : τ} {g : Frame ι}
    (hg : g ∈ update S t rest u) : f.Apart g := by
  by_cases hu : u = t
  · subst hu
    rw [update_self] at hg
    have hnested := h.nested u
    rw [hs] at hnested
    exact List.rel_of_pairwise_cons hnested hg
  · rw [update_of_ne hu] at hg
    exact h.apart t u (Ne.symm hu) f (hs ▸ List.mem_cons_self) g hg

end Separate

/-! ### The steps -/

variable [DecidableEq ι] (probes : ι → Probe α β δ ω)

/-- A call takes the instance `i`, where its entry handler leaves `r.1` and prints `r.2`. -/
def State.take (s : State ι τ δ ω) (t : τ) (p : ι) (i : ℕ) (r : δ × List ω) : State ι τ δ ω where
  data := update s.data p (update (s.data p) i r.1)
  free := update s.free p ((s.free p).erase i)
  stack := update s.stack t (⟨p, some i⟩ :: s.stack t)
  log := s.log ++ r.2

/-- The call on top returns and gives back the instance `i`. -/
def State.release (s : State ι τ δ ω) (t : τ) (p : ι) (i : ℕ) (rest : List (Frame ι))
    (lines : List ω) : State ι τ δ ω where
  data := s.data
  free := update s.free p (insert i (s.free p))
  stack := update s.stack t rest
  log := s.log ++ lines

def step (s : State ι τ δ ω) : Event ι τ α β → Option (State ι τ δ ω)
  | .call t p (some i) a =>
    if i ∈ s.free p then some (s.take t p i ((probes p).entry a (s.data p i))) else none
  | .call t p none _ =>
    if s.free p = ∅ then some { s with stack := update s.stack t (⟨p, none⟩ :: s.stack t) }
    else none
  | .ret t b =>
    match s.stack t with
    | [] => none
    | ⟨_, none⟩ :: rest => some { s with stack := update s.stack t rest }
    | ⟨p, some i⟩ :: rest => some (s.release t p i rest ((probes p).ret b (s.data p i)))

/-- No call is running and every instance is free, whatever it holds. -/
def State.Init (s : State ι τ δ ω) : Prop :=
  (∀ p, s.free p = Finset.range (probes p).maxactive) ∧ (∀ t, s.stack t = []) ∧ s.log = []

def machine : System (State ι τ δ ω) (Event ι τ α β) := .ofStep (State.Init probes) (step probes)

/-! ### Calls that keep what is their own -/

structure Own (ι τ δ ω : Type*) where
  stack : τ → List (ι × Option δ)
  log : List ω

/-- What a call leaves for its return, nothing where it is not traced. -/
def Probe.leaves [Inhabited δ] (P : Probe α β δ ω) (slot : Option ℕ) (a : α) : Option δ :=
  slot.map fun _ => (P.entry a default).1

def Probe.entryLines [Inhabited δ] (P : Probe α β δ ω) (slot : Option ℕ) (a : α) : List ω :=
  slot.elim [] fun _ => (P.entry a default).2

def Probe.retLines (P : Probe α β δ ω) (b : β) (d : Option δ) : List ω := d.elim [] (P.ret b)

def ownStep [Inhabited δ] (s : Own ι τ δ ω) : Event ι τ α β → Option (Own ι τ δ ω)
  | .call t p slot a =>
    some ⟨update s.stack t ((p, (probes p).leaves slot a) :: s.stack t),
      s.log ++ (probes p).entryLines slot a⟩
  | .ret t b =>
    match s.stack t with
    | [] => none
    | (p, d) :: rest => some ⟨update s.stack t rest, s.log ++ (probes p).retLines b d⟩

def ownMachine [Inhabited δ] : System (Own ι τ δ ω) (Event ι τ α β) :=
  .ofStep (fun s => (∀ t, s.stack t = []) ∧ s.log = []) (ownStep probes)

/-- A call with what its instance holds. -/
def State.content (s : State ι τ δ ω) (f : Frame ι) : ι × Option δ :=
  (f.probe, f.slot.map (s.data f.probe))

def State.own (s : State ι τ δ ω) : Own ι τ δ ω where
  stack t := (s.stack t).map s.content
  log := s.log

/-- The entry handler does not look at what the instance held. -/
def Probe.Overwrites (P : Probe α β δ ω) : Prop := ∀ a d d', P.entry a d = P.entry a d'

/-! ### The instances in use -/

/-- An instance in use is not free and has one user, and none is lost. -/
structure State.Inv (s : State ι τ δ ω) : Prop where
  held : ∀ t p i, ⟨p, some i⟩ ∈ s.stack t → i ∉ s.free p
  separate : Separate s.stack
  kept : ∀ p, ∀ i < (probes p).maxactive, i ∈ s.free p ∨ ∃ t, ⟨p, some i⟩ ∈ s.stack t

variable {probes} {s s' : State ι τ δ ω}

theorem step_call {t : τ} {p : ι} {i : ℕ} (hi : i ∈ s.free p) (a : α) :
    step probes s (.call t p (some i) a) =
      some (s.take t p i ((probes p).entry a (s.data p i))) := if_pos hi

theorem step_ret {t : τ} {p : ι} {i : ℕ} {rest : List (Frame ι)}
    (hs : s.stack t = ⟨p, some i⟩ :: rest) (b : β) :
    step probes s (.ret t b) =
      some (s.release t p i rest ((probes p).ret b (s.data p i))) := by
  rw [step, hs]

/-- All that a step can do. -/
theorem step_cases {e : Event ι τ α β} (h : step probes s e = some s') :
    (∃ t p i a, e = .call t p (some i) a ∧ i ∈ s.free p ∧
      s' = s.take t p i ((probes p).entry a (s.data p i))) ∨
    (∃ t p a, e = .call t p none a ∧ s.free p = ∅ ∧
      s' = { s with stack := update s.stack t (⟨p, none⟩ :: s.stack t) }) ∨
    (∃ t b p rest, e = .ret t b ∧ s.stack t = ⟨p, none⟩ :: rest ∧
      s' = { s with stack := update s.stack t rest }) ∨
    (∃ t b p i rest, e = .ret t b ∧ s.stack t = ⟨p, some i⟩ :: rest ∧
      s' = s.release t p i rest ((probes p).ret b (s.data p i))) := by
  match e with
  | .call t p (some i) a =>
    obtain ⟨hi, hs⟩ := Option.ite_none_right_eq_some.mp h
    obtain rfl := Option.some.inj hs
    exact .inl ⟨t, p, i, a, rfl, hi, rfl⟩
  | .call t p none a =>
    obtain ⟨hfree, hs⟩ := Option.ite_none_right_eq_some.mp h
    obtain rfl := Option.some.inj hs
    exact .inr (.inl ⟨t, p, a, rfl, hfree, rfl⟩)
  | .ret t b =>
    rw [step] at h
    split at h
    · cases h
    · next hs =>
      obtain rfl := Option.some.inj h
      exact .inr (.inr (.inl ⟨t, b, _, _, rfl, hs, rfl⟩))
    · next hs =>
      obtain rfl := Option.some.inj h
      exact .inr (.inr (.inr ⟨t, b, _, _, _, rfl, hs, rfl⟩))

theorem mem_free_take {t : τ} {p q : ι} {i j : ℕ} {r : δ × List ω} :
    j ∈ (s.take t p i r).free q ↔ j ∈ s.free q ∧ ¬(q = p ∧ j = i) := by
  by_cases hq : q = p
  · subst hq
    simp [State.take, and_comm]
  · simp [State.take, hq]

theorem mem_free_release {t : τ} {p q : ι} {i j : ℕ} {rest : List (Frame ι)} {lines : List ω} :
    j ∈ (s.release t p i rest lines).free q ↔ j ∈ s.free q ∨ (q = p ∧ j = i) := by
  by_cases hq : q = p
  · subst hq
    simp [State.release, or_comm]
  · simp [State.release, hq]

namespace State.Inv

omit [DecidableEq ι] [DecidableEq τ] in
theorem init (h : s.Init probes) : s.Inv probes := by
  obtain ⟨hfree, hstack, -⟩ := h
  refine ⟨?_, ⟨?_, ?_⟩, ?_⟩
  · simp [hstack]
  · simp [hstack]
  · simp [hstack]
  · intro p i hi
    exact .inl (by simpa [hfree] using hi)

theorem take (h : s.Inv probes) (t : τ) {p : ι} {i : ℕ} (hi : i ∈ s.free p) (r : δ × List ω) :
    (s.take t p i r).Inv probes := by
  refine ⟨?_, ?_, ?_⟩
  · intro u q j hj hfree
    obtain ⟨hold, hne⟩ := mem_free_take.mp hfree
    rcases mem_push.mp hj with ⟨-, hf⟩ | hj
    · obtain ⟨rfl, hij⟩ := Frame.mk.inj hf
      exact hne ⟨rfl, Option.some.inj hij⟩
    · exact h.held u q j hj hold
  · refine h.separate.push t fun u g hg => .inr ?_
    rintro rfl
    exact h.held u p i hg hi
  · intro q j hj
    by_cases hnew : q = p ∧ j = i
    · obtain ⟨rfl, rfl⟩ := hnew
      exact .inr ⟨t, mem_push.mpr (.inl ⟨rfl, rfl⟩)⟩
    · rcases h.kept q j hj with hfree | ⟨u, hu⟩
      · exact .inl (mem_free_take.mpr ⟨hfree, hnew⟩)
      · exact .inr ⟨u, mem_push.mpr (.inr hu)⟩

omit [DecidableEq ι] in
theorem miss (h : s.Inv probes) (t : τ) (p : ι) :
    State.Inv probes { s with stack := update s.stack t (⟨p, none⟩ :: s.stack t) } := by
  refine ⟨?_, h.separate.push t fun _ _ _ => .inl rfl, ?_⟩
  · intro u q j hj
    rcases mem_push.mp hj with ⟨-, hf⟩ | hj
    · cases (Frame.mk.inj hf).2
    · exact h.held u q j hj
  · intro q j hj
    rcases h.kept q j hj with hfree | ⟨u, hu⟩
    · exact .inl hfree
    · exact .inr ⟨u, mem_push.mpr (.inr hu)⟩

omit [DecidableEq ι] in
theorem leave (h : s.Inv probes) {t : τ} {p : ι} {rest : List (Frame ι)}
    (hs : s.stack t = ⟨p, none⟩ :: rest) :
    State.Inv probes { s with stack := update s.stack t rest } := by
  refine ⟨fun u q j hj => h.held u q j (mem_pop hs hj), h.separate.pop hs, ?_⟩
  intro q j hj
  rcases h.kept q j hj with hfree | ⟨u, hu⟩
  · exact .inl hfree
  · exact .inr ⟨u, mem_of_ne hs hu (by simp)⟩

theorem release (h : s.Inv probes) {t : τ} {p : ι} {i : ℕ} {rest : List (Frame ι)}
    (hs : s.stack t = ⟨p, some i⟩ :: rest) (lines : List ω) :
    (s.release t p i rest lines).Inv probes := by
  refine ⟨?_, h.separate.pop hs, ?_⟩
  · intro u q j hj hfree
    rcases mem_free_release.mp hfree with hold | ⟨rfl, rfl⟩
    · exact h.held u q j (mem_pop hs hj) hold
    · -- the instance that comes back had one user
      rcases h.separate.popped hs hj with hnone | hne
      · cases hnone
      · exact hne rfl
  · intro q j hj
    by_cases hold : q = p ∧ j = i
    · exact .inl (mem_free_release.mpr (.inr hold))
    · rcases h.kept q j hj with hfree | ⟨u, hu⟩
      · exact .inl (mem_free_release.mpr (.inl hfree))
      · refine .inr ⟨u, mem_of_ne hs hu fun hf => hold ?_⟩
        obtain ⟨rfl, hij⟩ := Frame.mk.inj hf
        exact ⟨rfl, Option.some.inj hij⟩

theorem step (h : s.Inv probes) {e : Event ι τ α β} (hstep : step probes s e = some s') :
    s'.Inv probes := by
  rcases step_cases hstep with ⟨t, p, i, a, -, hi, rfl⟩ | ⟨t, p, a, -, -, rfl⟩ |
    ⟨t, b, p, rest, -, hs, rfl⟩ | ⟨t, b, p, i, rest, -, hs, rfl⟩
  · exact h.take t hi _
  · exact h.miss t p
  · exact h.leave hs
  · exact h.release hs _

theorem reachable (h : (machine probes).Reachable s) : s.Inv probes :=
  h.invariant (fun _ => init) fun _ _ _ _ hs hl => hs.step hl

end State.Inv

/-! ### The refinement -/

omit [DecidableEq ι] [DecidableEq τ] in
@[simp] theorem own_stack (s : State ι τ δ ω) (t : τ) :
    s.own.stack t = (s.stack t).map s.content := rfl

/-- What the other calls have in their instances stays when an instance is filled. -/
theorem content_take (h : s.Inv probes) (t : τ) {p : ι} {i : ℕ} (hi : i ∈ s.free p)
    (r : δ × List ω) {u : τ} {f : Frame ι} (hf : f ∈ s.stack u) :
    (s.take t p i r).content f = s.content f := by
  obtain ⟨q, slot⟩ := f
  cases slot with
  | none => rfl
  | some j =>
    have hnot : ¬(q = p ∧ j = i) := by
      rintro ⟨rfl, rfl⟩
      exact h.held u q j hf hi
    by_cases hq : q = p
    · subst hq
      have hji : j ≠ i := fun hji => hnot ⟨rfl, hji⟩
      simp [State.content, State.take, hji]
    · simp [State.content, State.take, hq]

theorem own_take (h : s.Inv probes) (t : τ) {p : ι} {i : ℕ} (hi : i ∈ s.free p)
    (r : δ × List ω) :
    (s.take t p i r).own =
      ⟨update s.own.stack t ((p, some r.1) :: s.own.stack t), s.log ++ r.2⟩ := by
  have hstack : (s.take t p i r).own.stack =
      update s.own.stack t ((p, some r.1) :: s.own.stack t) := by
    funext u
    have hold : (s.stack u).map (s.take t p i r).content = (s.stack u).map s.content :=
      List.map_congr_left fun f hf => content_take h t hi r hf
    by_cases hu : u = t
    · subst hu
      have hnew : (s.take u p i r).content ⟨p, some i⟩ = (p, some r.1) := by
        simp [State.content, State.take]
      have hpush : (s.take u p i r).stack u = ⟨p, some i⟩ :: s.stack u := update_self ..
      rw [own_stack, hpush, List.map_cons, hnew, hold, update_self, own_stack]
    · have hsame : (s.take t p i r).stack u = s.stack u := update_of_ne hu ..
      rw [own_stack, hsame, hold, update_of_ne hu, own_stack]
  rw [← hstack]
  rfl

omit [DecidableEq ι] in
theorem own_update (s : State ι τ δ ω) (t : τ) (fs : List (Frame ι)) :
    (fun u => (update s.stack t fs u).map s.content) =
      update s.own.stack t (fs.map s.content) := by
  funext u
  by_cases hu : u = t
  · subst hu
    simp
  · simp [hu]

variable [Inhabited δ]

theorem step_refines (hprobes : ∀ p, (probes p).Overwrites) (h : s.Inv probes)
    {e : Event ι τ α β} (hstep : step probes s e = some s') :
    ownStep probes s.own e = some s'.own := by
  rcases step_cases hstep with ⟨t, p, i, a, rfl, hi, rfl⟩ | ⟨t, p, a, rfl, -, rfl⟩ |
    ⟨t, b, p, rest, rfl, hs, rfl⟩ | ⟨t, b, p, i, rest, rfl, hs, rfl⟩
  · rw [own_take h t hi, hprobes p a (s.data p i) default]
    rfl
  · have hlog : s.log ++ (probes p).entryLines none a = s.log := List.append_nil _
    have hstack := own_update s t (⟨p, none⟩ :: s.stack t)
    rw [ownStep, State.own, hlog]
    exact congrArg (fun S => some (Own.mk S s.log)) hstack.symm
  · have hown : s.own.stack t = (p, none) :: rest.map s.content := by
      simp [hs, State.content]
    have hlog : s.log ++ (probes p).retLines b none = s.log := List.append_nil _
    rw [ownStep, hown]
    show some (Own.mk _ (s.log ++ (probes p).retLines b none)) = _
    rw [hlog]
    exact congrArg (fun S => some (Own.mk S s.log)) (own_update s t rest).symm
  · have hown : s.own.stack t = (p, some (s.data p i)) :: rest.map s.content := by
      simp [hs, State.content]
    rw [ownStep, hown]
    exact congrArg (fun S => some (Own.mk S (s.log ++ (probes p).ret b (s.data p i))))
      (own_update s t rest).symm

/-- **The refinement.**  Where every entry handler overwrites its instance, the instances
might as well belong to the calls. -/
theorem run_refines (hprobes : ∀ p, (probes p).Overwrites) (h : s.Inv probes)
    {es : List (Event ι τ α β)} (hr : (machine probes).Run s es s') :
    (ownMachine probes).Run s.own es s'.own := by
  induction hr with
  | nil => exact .nil _
  | snoc hrun hl ih =>
    have hinv := hrun.invariant (P := State.Inv probes) (fun _ _ _ hs hl => hs.step hl) h
    exact .snoc ih (step_refines hprobes hinv hl)

/-! ### A call and its return -/

/-- How deep the calls of a task are behind an event; no result when the first has returned. -/
def depthStep (t : τ) (d : ℕ) : Event ι τ α β → Option ℕ
  | .call u _ _ _ => some (if u = t then d + 1 else d)
  | .ret u _ => if u = t then (if d = 0 then none else some (d - 1)) else some d

/-- In the course of `es` the task `t` returns from as many calls as it makes, and from no other. -/
def Balanced (t : τ) (es : List (Event ι τ α β)) : Prop := es.foldlM (depthStep t) 0 = some 0

omit [DecidableEq ι] in
theorem ownStep_ret {o o' : Own ι τ δ ω} {t : τ} {b : β}
    (h : ownStep probes o (.ret t b) = some o') :
    ∃ p d rest, o.stack t = (p, d) :: rest ∧
      o' = ⟨update o.stack t rest, o.log ++ (probes p).retLines b d⟩ := by
  rw [ownStep] at h
  split at h
  · cases h
  · next hs => exact ⟨_, _, _, hs, (Option.some.inj h).symm⟩

omit [DecidableEq ι] in
theorem ownStep_depth {t : τ} {fs rest : List (ι × Option δ)} {o o' : Own ι τ δ ω}
    {e : Event ι τ α β} (hs : o.stack t = fs ++ rest) (h : ownStep probes o e = some o') {d : ℕ}
    (hd : depthStep t fs.length e = some d) :
    ∃ gs, o'.stack t = gs ++ rest ∧ gs.length = d := by
  match e with
  | .call u p slot a =>
    obtain rfl := Option.some.inj h
    obtain rfl := Option.some.inj hd
    by_cases hu : u = t
    · subst hu
      exact ⟨(p, (probes p).leaves slot a) :: fs, by simp [hs], by simp⟩
    · exact ⟨fs, by simp [Ne.symm hu, hs], by simp [hu]⟩
  | .ret u b =>
    obtain ⟨p, c, rest', hstack, rfl⟩ := ownStep_ret h
    by_cases hu : u = t
    · subst hu
      rw [depthStep, if_pos rfl] at hd
      match fs with
      | [] => cases hd
      | f :: fs =>
        obtain rfl := Option.some.inj hd
        rw [hs] at hstack
        obtain ⟨-, rfl⟩ := List.cons.inj hstack
        exact ⟨fs, by simp, by simp⟩
    · rw [depthStep, if_neg hu] at hd
      obtain rfl := Option.some.inj hd
      exact ⟨fs, by simp [Ne.symm hu, hs], rfl⟩

omit [DecidableEq ι] in
theorem own_depth {t : τ} {o o' : Own ι τ δ ω} {es : List (Event ι τ α β)}
    (hr : (ownMachine probes).Run o es o') {d : ℕ} (hd : es.foldlM (depthStep t) 0 = some d) :
    ∃ fs, o'.stack t = fs ++ o.stack t ∧ fs.length = d := by
  induction hr generalizing d with
  | nil => exact ⟨[], rfl, Option.some.inj hd⟩
  | snoc hrun hl ih =>
    rw [List.foldlM_append] at hd
    obtain ⟨c, hc, hd⟩ := Option.bind_eq_some_iff.mp hd
    obtain ⟨fs, hfs, rfl⟩ := ih hc
    simp only [List.foldlM_cons, List.foldlM_nil, bind_pure] at hd
    exact ownStep_depth hfs hl hd

/-- **Entry and return.**  In every run, with any calls of the other tasks and any nested ones
in between, the return of a call prints what the probe prints for what this call left. -/
theorem paired (hprobes : ∀ p, (probes p).Overwrites) {s s₁ s₂ s₃ : State ι τ δ ω} {t : τ}
    {p : ι} {slot : Option ℕ} {a : α} {b : β} {es : List (Event ι τ α β)}
    (hs : (machine probes).Reachable s) (hcall : step probes s (.call t p slot a) = some s₁)
    (hrun : (machine probes).Run s₁ es s₂) (hes : Balanced t es)
    (hret : step probes s₂ (.ret t b) = some s₃) :
    s₁.log = s.log ++ (probes p).entryLines slot a ∧
      s₃.log = s₂.log ++ (probes p).retLines b ((probes p).leaves slot a) := by
  have hinv := State.Inv.reachable hs
  have hinv₁ := hinv.step hcall
  have hinv₂ := State.Inv.reachable ((hs.step hcall).run hrun)
  have hown₁ := Option.some.inj (step_refines hprobes hinv hcall)
  have htop : s₁.own.stack t = (p, (probes p).leaves slot a) :: s.own.stack t := by
    rw [← hown₁]
    exact update_self ..
  obtain ⟨fs, hstack, hlen⟩ := own_depth (run_refines hprobes hinv₁ hrun) hes
  obtain rfl := List.length_eq_zero_iff.mp hlen
  obtain ⟨q, d, rest, hq, hown₃⟩ := ownStep_ret (step_refines hprobes hinv₂ hret)
  rw [hstack, List.nil_append, htop] at hq
  obtain ⟨hpd, -⟩ := List.cons.inj hq
  obtain ⟨rfl, rfl⟩ := Prod.mk.inj hpd
  exact ⟨(congrArg Own.log hown₁).symm, congrArg Own.log hown₃⟩

omit [Inhabited δ] in
/-- A call is missed only while as many calls are traced as the probe has instances. -/
theorem missed (hs : (machine probes).Reachable s) {t : τ} {p : ι} {a : α}
    (hcall : step probes s (.call t p none a) = some s') :
    ∀ i < (probes p).maxactive, ∃ u, ⟨p, some i⟩ ∈ s.stack u := by
  intro i hi
  obtain ⟨hfree, -⟩ := Option.ite_none_right_eq_some.mp hcall
  have hkept := (State.Inv.reachable hs).kept p i hi
  rw [hfree] at hkept
  exact hkept.resolve_left (Finset.notMem_empty i)

end CppProgramming.Lib.CallTrace
