import Mathlib.Data.Finset.Basic
import Mathlib.Data.List.Nodup
import Mathlib.Logic.Function.Basic
import Mathlib.Tactic.Common

/-!
# Hash-bucket lists

The intrusive lists of a hash table: a head `h : H` points to the first node, a
node `a : A` points to the next one, and for constant-time deletion a node also
knows the *slot* that points to it, which is the head or the `next` of the node
before it.  `Hlist` is the memory of all heads and nodes together.

The operations do what the kernel's do, one assignment after the other.  They
fail on a node that is not allocated (`live`) and on a poisoned back pointer, so
that an operation that succeeds has touched allocated nodes only.

`Links m l as` says that the slot `l` starts the list `as`.  It is all a user has
to know about a list: no node is in it twice (`Links.nodup`), lists with
different heads are disjoint (`Links.head_eq`), and adding, deleting or
replacing a node of one list leaves the others alone (`Links.frame`).
-/

namespace CppProgramming.Lib

universe u

/-- Where a pointer to a node is stored. -/
inductive Slot (H A : Type u)
  | head (h : H)
  | next (a : A)
deriving DecidableEq

/-- The memory of the lists; `pprev` is `none` where it is poisoned. -/
structure Hlist (H A : Type u) where
  first : H → Option A
  next : A → Option A
  pprev : A → Option (Slot H A)
  live : Finset A

namespace Hlist

variable {H A : Type u}

def slot (m : Hlist H A) : Slot H A → Option A
  | .head h => m.first h
  | .next a => m.next a

@[simp] theorem slot_head (m : Hlist H A) (h : H) : m.slot (.head h) = m.first h := rfl

@[simp] theorem slot_next (m : Hlist H A) (a : A) : m.slot (.next a) = m.next a := rfl

variable [DecidableEq H] [DecidableEq A]

/-! ### Assignments -/

def put (l : Slot H A) (p : Option A) (m : Hlist H A) : Hlist H A :=
  match l with
  | .head h => { m with first := Function.update m.first h p }
  | .next a => { m with next := Function.update m.next a p }

def setPprev (a : A) (l : Option (Slot H A)) (m : Hlist H A) : Hlist H A :=
  { m with pprev := Function.update m.pprev a l }

/-- `if (p) p->pprev = l;` -/
def setPprevOf (p : Option A) (l : Slot H A) (m : Hlist H A) : Hlist H A :=
  match p with
  | none => m
  | some a => m.setPprev a (some l)

variable (m : Hlist H A) (l s : Slot H A) (p : Option A) (a b : A)

@[simp] theorem slot_put : (m.put l p).slot s = if s = l then p else m.slot s := by
  cases l <;> cases s <;> simp [put, slot, Function.update_apply]

@[simp] theorem next_put_head (h : H) : (m.put (.head h) p).next = m.next := rfl

@[simp] theorem first_put_next : (m.put (.next a) p).first = m.first := rfl

@[simp] theorem next_put_next : (m.put (.next a) p).next b = if b = a then p else m.next b := by
  simp [put, Function.update_apply]

@[simp] theorem pprev_put : (m.put l p).pprev = m.pprev := by cases l <;> rfl

@[simp] theorem live_put : (m.put l p).live = m.live := by cases l <;> rfl

section

omit [DecidableEq H]

@[simp] theorem slot_setPprev (q : Option (Slot H A)) : (m.setPprev a q).slot s = m.slot s := by
  cases s <;> rfl

@[simp] theorem next_setPprev (q : Option (Slot H A)) : (m.setPprev a q).next = m.next := rfl

@[simp] theorem first_setPprev (q : Option (Slot H A)) : (m.setPprev a q).first = m.first := rfl

@[simp] theorem pprev_setPprev (q : Option (Slot H A)) :
    (m.setPprev a q).pprev b = if b = a then q else m.pprev b := by
  simp [setPprev, Function.update_apply]

@[simp] theorem live_setPprev (q : Option (Slot H A)) : (m.setPprev a q).live = m.live := rfl

@[simp] theorem slot_setPprevOf : (m.setPprevOf p l).slot s = m.slot s := by
  cases p <;> cases s <;> rfl

@[simp] theorem next_setPprevOf : (m.setPprevOf p l).next = m.next := by cases p <;> rfl

@[simp] theorem first_setPprevOf : (m.setPprevOf p l).first = m.first := by cases p <;> rfl

@[simp] theorem pprev_setPprevOf :
    (m.setPprevOf p l).pprev b = if p = some b then some l else m.pprev b := by
  cases p with
  | none => rfl
  | some a => simp [setPprevOf, eq_comm]

@[simp] theorem live_setPprevOf : (m.setPprevOf p l).live = m.live := by cases p <;> rfl

end

/-! ### Checked accesses -/

/-- The slot is in allocated memory. -/
def Valid (m : Hlist H A) : Slot H A → Prop
  | .head _ => True
  | .next a => a ∈ m.live

instance : DecidablePred m.Valid := fun l =>
  match l with
  | .head _ => inferInstanceAs (Decidable True)
  | .next a => inferInstanceAs (Decidable (a ∈ m.live))

def load (l : Slot H A) : Option (Option A) := if m.Valid l then some (m.slot l) else none

def loadPprev (a : A) : Option (Slot H A) := if a ∈ m.live then m.pprev a else none

def store (l : Slot H A) (p : Option A) (m : Hlist H A) : Option (Hlist H A) :=
  if m.Valid l then some (m.put l p) else none

def storePprev (a : A) (l : Option (Slot H A)) (m : Hlist H A) : Option (Hlist H A) :=
  if a ∈ m.live then some (m.setPprev a l) else none

/-- `if (p) p->pprev = l;` -/
def storePprevOf (p : Option A) (l : Slot H A) (m : Hlist H A) : Option (Hlist H A) :=
  match p with
  | none => some m
  | some a => m.storePprev a (some l)

/-! ### The operations -/

/-- `INIT_HLIST_HEAD` -/
def initHead (h : H) (m : Hlist H A) : Hlist H A := m.put (.head h) none

/-- `hlist_add_head_rcu` -/
def addHead (n : A) (h : H) (m : Hlist H A) : Option (Hlist H A) := do
  let first ← m.load (.head h)
  let m ← m.store (.next n) first
  let m ← m.storePprev n (some (.head h))
  let m ← m.store (.head h) (some n)
  m.storePprevOf first (.next n)

/-- `hlist_del_rcu`: the node keeps its `next`. -/
def del (n : A) (m : Hlist H A) : Option (Hlist H A) := do
  let next ← m.load (.next n)
  let pprev ← m.loadPprev n
  let m ← m.store pprev next
  let m ← m.storePprevOf next pprev
  m.storePprev n none

/-- `hlist_replace_rcu`: the old node keeps its `next`. -/
def replace (old new : A) (m : Hlist H A) : Option (Hlist H A) := do
  let next ← m.load (.next old)
  let m ← m.store (.next new) next
  let pprev ← m.loadPprev old
  let m ← m.storePprev new (some pprev)
  let m ← m.store pprev (some new)
  let m ← m.storePprevOf next (.next new)
  m.storePprev old none

/-- A node comes into being with whatever its memory holds. -/
def alloc (a : A) (m : Hlist H A) : Hlist H A := { m with live := insert a m.live }

def free (a : A) (m : Hlist H A) : Option (Hlist H A) :=
  if a ∈ m.live then some { m with live := m.live.erase a } else none

/-! ### Lists -/

/-- The slot `l` starts the list `as`: it points to the first node, which knows
it, and the `next` of each node starts the rest. -/
def Links (m : Hlist H A) : Slot H A → List A → Prop
  | l, [] => m.slot l = none
  | l, a :: as => m.slot l = some a ∧ m.pprev a = some l ∧ a ∈ m.live ∧ Links m (.next a) as

variable {m l a} {as bs : List A}

section

omit [DecidableEq H] [DecidableEq A]

theorem Links.live (h : m.Links l as) : ∀ x ∈ as, x ∈ m.live := by
  induction as generalizing l with
  | nil => simp
  | cons x as ih =>
    obtain ⟨_, _, hx, hrest⟩ := h
    exact List.forall_mem_cons.mpr ⟨hx, ih hrest⟩

/-- The slot of a member is the start of the list or the `next` of a member. -/
theorem Links.pprev_of_mem (h : m.Links l as) {x : A} (hx : x ∈ as) :
    m.pprev x = some l ∨ ∃ y ∈ as, m.pprev x = some (.next y) := by
  induction as generalizing l with
  | nil => simp at hx
  | cons z as ih =>
    obtain ⟨_, hz, _, hrest⟩ := h
    rcases List.mem_cons.mp hx with rfl | hx
    · exact Or.inl hz
    · rcases ih hrest hx with hp | ⟨y, hy, hp⟩
      · exact Or.inr ⟨z, by simp, hp⟩
      · exact Or.inr ⟨y, by simp [hy], hp⟩

theorem Links.nodup_of (h : m.Links l as) (hl : ∀ x ∈ as, l ≠ .next x) : as.Nodup := by
  induction as generalizing l with
  | nil => exact List.nodup_nil
  | cons z as ih =>
    obtain ⟨_, hz, _, hrest⟩ := h
    have hnot : z ∉ as := by
      intro hmem
      have hl' := List.forall_mem_cons.mp hl
      rcases hrest.pprev_of_mem hmem with hp | ⟨y, hy, hp⟩
      · exact hl'.1 (Option.some.inj (hz.symm.trans hp))
      · exact hl'.2 y hy (Option.some.inj (hz.symm.trans hp))
    refine List.nodup_cons.mpr ⟨hnot, ih hrest fun x hx heq => ?_⟩
    rw [Slot.next.injEq] at heq
    exact hnot (heq ▸ hx)

/-- **No node is in a list twice.** -/
theorem Links.nodup {h : H} (hl : m.Links (.head h) as) : as.Nodup :=
  hl.nodup_of fun _ _ => by simp

/-- **A node is in the list of one head only.** -/
theorem Links.head_eq {g h : H} (hg : m.Links (.head g) as) (hh : m.Links (.head h) bs) {x : A}
    (hxa : x ∈ as) (hxb : x ∈ bs) : g = h := by
  have key : ∀ (l : Slot H A) (cs : List A), m.Links l cs → (∃ y ∈ cs, y ∈ bs) →
      l = .head h ∨ ∃ z ∈ bs, l = .next z := by
    intro l cs
    induction cs generalizing l with
    | nil => rintro _ ⟨y, hy, _⟩; simp at hy
    | cons c cs ih =>
      rintro ⟨_, hc, _, hrest⟩ ⟨y, hy, hyb⟩
      have hfirst : c ∈ bs → l = .head h ∨ ∃ z ∈ bs, l = .next z := by
        intro hcb
        rcases hh.pprev_of_mem hcb with hp | ⟨z, hz, hp⟩
        · exact Or.inl (Option.some.inj (hc.symm.trans hp))
        · exact Or.inr ⟨z, hz, Option.some.inj (hc.symm.trans hp)⟩
      rcases List.mem_cons.mp hy with rfl | hy
      · exact hfirst hyb
      · rcases ih (.next c) hrest ⟨y, hy, hyb⟩ with hn | ⟨z, hz, hn⟩
        · exact absurd hn (by simp)
        · obtain rfl : c = z := by simpa using hn
          exact hfirst hz
  rcases key _ _ hg ⟨x, hxa, hxb⟩ with heq | ⟨z, _, heq⟩
  · simpa using heq
  · exact absurd heq (by simp)

/-- **A list depends on its own slots and nodes only.** -/
theorem Links.frame {m' : Hlist H A} (h : m.Links l as) (hl : m'.slot l = m.slot l)
    (hmem : ∀ x ∈ as, m'.next x = m.next x ∧ m'.pprev x = m.pprev x ∧ x ∈ m'.live) :
    m'.Links l as := by
  induction as generalizing l with
  | nil => exact hl.trans h
  | cons x as ih =>
    obtain ⟨hx, hp, _, hrest⟩ := h
    obtain ⟨hfirst, hmem⟩ := List.forall_mem_cons.mp hmem
    exact ⟨hl.trans hx, hfirst.2.1.trans hp, hfirst.2.2, ih hrest hfirst.1 hmem⟩

end

/-- The slot behind the nodes `as` of a list that starts at `l`. -/
def endSlot (l : Slot H A) : List A → Slot H A
  | [] => l
  | a :: as => endSlot (.next a) as

section

omit [DecidableEq H] [DecidableEq A]

theorem endSlot_eq (l : Slot H A) (as : List A) :
    endSlot l as = l ∧ as = [] ∨ ∃ x ∈ as, endSlot l as = .next x := by
  induction as generalizing l with
  | nil => exact Or.inl ⟨rfl, rfl⟩
  | cons a as ih =>
    rcases ih (.next a) with ⟨h, rfl⟩ | ⟨x, hx, h⟩
    · exact Or.inr ⟨a, by simp, h⟩
    · exact Or.inr ⟨x, by simp [hx], h⟩

/-- Behind its first nodes a list goes on as a list. -/
theorem Links.drop (h : m.Links l (as ++ bs)) : m.Links (endSlot l as) bs := by
  induction as generalizing l with
  | nil => exact h
  | cons a as ih => exact ih h.2.2.2

/-- Changing what follows the first nodes `as` of a list. -/
theorem Links.splice {m' : Hlist H A} {cs : List A} (h : m.Links l (as ++ bs))
    (hnodup : as.Nodup) (hl : ∀ x ∈ as, l ≠ .next x)
    (hslot : ∀ s, (s = l ∨ ∃ x ∈ as, s = .next x) → s ≠ endSlot l as → m'.slot s = m.slot s)
    (hpprev : ∀ x ∈ as, m'.pprev x = m.pprev x ∧ x ∈ m'.live)
    (hcs : m'.Links (endSlot l as) cs) : m'.Links l (as ++ cs) := by
  induction as generalizing l with
  | nil => exact hcs
  | cons a as ih =>
    obtain ⟨ha, hp, _, hrest⟩ := h
    obtain ⟨hfirst, hpprev⟩ := List.forall_mem_cons.mp hpprev
    obtain ⟨hnot, hnodup⟩ := List.nodup_cons.mp hnodup
    have hne : l ≠ endSlot (.next a) as := by
      rcases endSlot_eq (Slot.next a : Slot H A) as with ⟨he, _⟩ | ⟨x, hx, he⟩
      · rw [he]
        exact hl a (by simp)
      · rw [he]
        exact hl x (by simp [hx])
    refine ⟨(hslot l (Or.inl rfl) hne).trans ha, hfirst.1.trans hp, hfirst.2, ?_⟩
    refine ih hrest hnodup (fun x hx heq => ?_) (fun s hs hse => ?_) hpprev hcs
    · rw [Slot.next.injEq] at heq
      exact hnot (heq ▸ hx)
    · refine hslot s (Or.inr ?_) hse
      rcases hs with rfl | ⟨x, hx, rfl⟩
      · exact ⟨a, by simp, rfl⟩
      · exact ⟨x, by simp [hx], rfl⟩

end

/-! ### What the operations do -/

variable {n old new : A} {h : H} {pre post : List A} {m' : Hlist H A}

theorem store_eq (p : Option A) (hl : m.Valid l) : m.store l p = some (m.put l p) := if_pos hl

omit [DecidableEq H] in
theorem storePprev_eq (l : Option (Slot H A)) (ha : a ∈ m.live) :
    m.storePprev a l = some (m.setPprev a l) := if_pos ha

omit [DecidableEq H] in
theorem storePprevOf_eq (l : Slot H A) {p : Option A} (hp : ∀ x, p = some x → x ∈ m.live) :
    m.storePprevOf p l = some (m.setPprevOf p l) := by
  cases p with
  | none => rfl
  | some x => exact if_pos (hp x rfl)

section

omit [DecidableEq H] [DecidableEq A]

@[simp] theorem valid_head (h : H) : m.Valid (.head h) := trivial

theorem valid_next (ha : a ∈ m.live) : m.Valid (.next a) := ha

theorem valid_congr (hlive : m'.live = m.live) : m'.Valid l ↔ m.Valid l := by
  cases l with
  | head h => exact Iff.rfl
  | next a => exact iff_of_eq (congrArg (a ∈ ·) hlive)

end

/-- The memory behind `addHead`. -/
def added (n : A) (h : H) (m : Hlist H A) : Hlist H A :=
  (((m.put (.next n) (m.first h)).setPprev n (some (.head h))).put (.head h) (some n)).setPprevOf
    (m.first h) (.next n)

theorem addHead_eq (hn : n ∈ m.live) (hfirst : ∀ x, m.first h = some x → x ∈ m.live) :
    m.addHead n h = some (m.added n h) := by
  have hload : m.load (.head h) = some (m.first h) := if_pos trivial
  simp only [addHead, hload, Option.bind_eq_bind, Option.bind_some]
  rw [store_eq _ (valid_next hn), Option.bind_some, storePprev_eq _ (by simpa using hn),
    Option.bind_some, store_eq _ (by simp), Option.bind_some, storePprevOf_eq _ (by simpa using hfirst)]
  rfl

/-- The memory behind `del` of a node in the slot `l`. -/
def deleted (a : A) (l : Slot H A) (m : Hlist H A) : Hlist H A :=
  ((m.put l (m.next a)).setPprevOf (m.next a) l).setPprev a none

theorem del_eq (ha : a ∈ m.live) (hp : m.pprev a = some l) (hl : m.Valid l)
    (hnext : ∀ x, m.next a = some x → x ∈ m.live) : m.del a = some (m.deleted a l) := by
  have hload : m.load (.next a) = some (m.next a) := if_pos ha
  have hprev : m.loadPprev a = some l := (if_pos ha).trans hp
  simp only [del, hload, hprev, Option.bind_eq_bind, Option.bind_some]
  rw [store_eq _ hl, Option.bind_some, storePprevOf_eq _ (by simpa using hnext), Option.bind_some,
    storePprev_eq _ (by simpa using ha)]
  rfl

/-- The memory behind `replace` of a node in the slot `l`. -/
def replaced (old new : A) (l : Slot H A) (m : Hlist H A) : Hlist H A :=
  ((((m.put (.next new) (m.next old)).setPprev new (some l)).put l (some new)).setPprevOf
    (m.next old) (.next new)).setPprev old none

theorem replace_eq (hold : old ∈ m.live) (hnew : new ∈ m.live) (hp : m.pprev old = some l)
    (hl : m.Valid l) (hnext : ∀ x, m.next old = some x → x ∈ m.live) :
    m.replace old new = some (m.replaced old new l) := by
  have hload : m.load (.next old) = some (m.next old) := if_pos hold
  have hprev : (m.put (.next new) (m.next old)).loadPprev old = some l := by
    rw [loadPprev, live_put, if_pos hold, pprev_put, hp]
  simp only [replace, hload, Option.bind_eq_bind, Option.bind_some]
  rw [store_eq _ (valid_next hnew), Option.bind_some, hprev, Option.bind_some,
    storePprev_eq _ (by simpa using hnew), Option.bind_some,
    store_eq _ ((valid_congr (by simp)).mpr hl), Option.bind_some,
    storePprevOf_eq _ (by simpa using hnext), Option.bind_some,
    storePprev_eq _ (by simpa using hold)]
  rfl

@[simp] theorem first_added (g : H) :
    (m.added n h).first g = if g = h then some n else m.first g := by
  simp [added, put, Function.update_apply]

@[simp] theorem next_added : (m.added n h).next b = if b = n then m.first h else m.next b := by
  simp [added]

@[simp] theorem pprev_added :
    (m.added n h).pprev b =
      if m.first h = some b then some (.next n) else if b = n then some (.head h) else m.pprev b := by
  simp [added]

@[simp] theorem live_added : (m.added n h).live = m.live := by simp [added]

theorem slot_deleted : (m.deleted a l).slot s = if s = l then m.next a else m.slot s := by
  simp [deleted]

@[simp] theorem first_deleted (g : H) :
    (m.deleted a l).first g = if .head g = l then m.next a else m.first g := slot_deleted (.head g)

@[simp] theorem next_deleted :
    (m.deleted a l).next b = if .next b = l then m.next a else m.next b := slot_deleted (.next b)

@[simp] theorem pprev_deleted :
    (m.deleted a l).pprev b =
      if b = a then none else if m.next a = some b then some l else m.pprev b := by
  simp [deleted]

@[simp] theorem live_deleted : (m.deleted a l).live = m.live := by simp [deleted]

theorem slot_replaced :
    (m.replaced old new l).slot s =
      if s = l then some new else if s = .next new then m.next old else m.slot s := by
  simp [replaced]

@[simp] theorem first_replaced (g : H) :
    (m.replaced old new l).first g = if .head g = l then some new else m.first g := by
  rw [← slot_head, slot_replaced]
  simp

@[simp] theorem next_replaced :
    (m.replaced old new l).next b =
      if .next b = l then some new else if b = new then m.next old else m.next b := by
  rw [← slot_next, slot_replaced]
  simp

@[simp] theorem pprev_replaced :
    (m.replaced old new l).pprev b =
      if b = old then none else if m.next old = some b then some (.next new)
        else if b = new then some l else m.pprev b := by
  simp [replaced]

@[simp] theorem live_replaced : (m.replaced old new l).live = m.live := by simp [replaced]

/-- `m'` is `m` with the list of `h` changed from `as` to `bs`: no node is allocated
or freed, and no other head or node is touched. -/
structure Changes (h : H) (as bs : List A) (m m' : Hlist H A) : Prop where
  links : m'.Links (.head h) bs
  live : m'.live = m.live
  first : ∀ g, g ≠ h → m'.first g = m.first g
  node : ∀ x, x ∉ as → x ∉ bs → m'.next x = m.next x ∧ m'.pprev x = m.pprev x

omit [DecidableEq H] [DecidableEq A] in
/-- **Lists with other heads are left alone.** -/
theorem Changes.other {g : H} {cs : List A} (hc : Changes h as bs m m')
    (hh : m.Links (.head h) as) (hgh : g ≠ h) (hg : m.Links (.head g) cs)
    (hnew : ∀ x ∈ bs, x ∉ as → x ∉ cs) : m'.Links (.head g) cs := by
  refine hg.frame (hc.first g hgh) fun x hx => ?_
  have hxa : x ∉ as := fun hmem => hgh (hg.head_eq hh hx hmem)
  have hxb : x ∉ bs := fun hmem => hnew x hmem hxa hx
  obtain ⟨hnext, hpprev⟩ := hc.node x hxa hxb
  refine ⟨hnext, hpprev, ?_⟩
  rw [hc.live]
  exact hg.live x hx

omit [DecidableEq H] [DecidableEq A] in
/-- The first node of a list is in it. -/
theorem Links.mem_of_slot (hl : m.Links l as) {x : A} (hx : m.slot l = some x) : x ∈ as := by
  cases as with
  | nil => exact absurd (hl.symm.trans hx) (by simp)
  | cons y as =>
    obtain rfl : y = x := Option.some.inj (hl.1.symm.trans hx)
    exact List.mem_cons_self

/-- **Adding a node in front.** -/
theorem Links.addHead (hl : m.Links (.head h) as) (hn : n ∈ m.live) (hnot : n ∉ as) :
    m.addHead n h = some (m.added n h) ∧ Changes h as (n :: as) m (m.added n h) := by
  have hfirst : ∀ x, m.first h = some x → x ∈ as := fun x hx => hl.mem_of_slot hx
  have hfn : m.first h ≠ some n := fun hf => hnot (hfirst n hf)
  refine ⟨addHead_eq hn fun x hx => hl.live x (hfirst x hx), ⟨?_, by simp, ?_, ?_⟩⟩
  · refine ⟨by simp, by simp [hfn], by simpa using hn, ?_⟩
    cases as with
    | nil => simpa [Links] using hl
    | cons y as =>
      have hnodup := List.nodup_cons.mp hl.nodup
      obtain ⟨hy, _, hylive, hrest⟩ := hl
      rw [slot_head] at hy
      obtain ⟨hny, hnot⟩ := not_or.mp (List.mem_cons.not.mp hnot)
      refine ⟨by simp [hy], by simp [hy], by simpa using hylive, hrest.frame ?_ fun x hx => ?_⟩
      · simp [Ne.symm hny]
      · have hxn : x ≠ n := fun he => hnot (he ▸ hx)
        have hyx : y ≠ x := fun he => hnodup.1 (he ▸ hx)
        exact ⟨by simp [hxn], by simp [hy, hyx, hxn], by simpa using hrest.live x hx⟩
  · intro g hg
    simp [hg]
  · intro x hxa hxb
    have hxn : x ≠ n := fun he => hxb (by simp [he])
    have hfx : m.first h ≠ some x := fun hf => hxa (hfirst x hf)
    exact ⟨by simp [hxn], by simp [hfx, hxn]⟩

/-- **Deleting the node in the slot `l`**, whatever that slot holds, leaves the slot
with the rest of the list. -/
theorem Links.deleted (hrest : m.Links (.next a) bs) (hl : ∀ x ∈ a :: bs, l ≠ .next x)
    (hnot : a ∉ bs) : (m.deleted a l).Links l bs := by
  cases bs with
  | nil => simpa [Links, slot_deleted] using hrest
  | cons y bs =>
    have hnodup : (y :: bs).Nodup := by
      refine hrest.nodup_of fun x hx he => ?_
      rw [Slot.next.injEq] at he
      exact hnot (he ▸ hx)
    obtain ⟨hy, _, hylive, hrest⟩ := hrest
    obtain ⟨hyl, hl⟩ := List.forall_mem_cons.mp (List.forall_mem_cons.mp hl).2
    obtain ⟨hya, hnot⟩ := not_or.mp (List.mem_cons.not.mp hnot)
    rw [slot_next] at hy
    refine ⟨by simp [slot_deleted, hy], by simp [hy, Ne.symm hya], by simpa using hylive, ?_⟩
    refine hrest.frame (by simp [Ne.symm hyl]) fun x hx => ?_
    have hyx : y ≠ x := fun he => (List.nodup_cons.mp hnodup).1 (he ▸ hx)
    have hxa : x ≠ a := fun he => hnot (he ▸ hx)
    exact ⟨by simp [Ne.symm (hl x hx)], by simp [hxa, hy, hyx], by simpa using hrest.live x hx⟩

omit [DecidableEq H] [DecidableEq A] in
/-- The slot in front of a node of a list is a head or a node of the list before it. -/
theorem valid_endSlot (h : ∀ x ∈ as, x ∈ m.live) (g : H) : m.Valid (endSlot (.head g) as) := by
  rcases endSlot_eq (Slot.head g : Slot H A) as with ⟨he, _⟩ | ⟨x, hx, he⟩
  · rw [he]
    exact trivial
  · rw [he]
    exact h x hx

/-- **Replacing the node in the slot `l`**, whatever that slot holds. -/
theorem Links.replaced (hrest : m.Links (.next old) bs) (hl : ∀ x ∈ bs, l ≠ .next x)
    (hnot : old ∉ bs) (hlnew : l ≠ .next new) (hnew : new ∈ m.live) (hnewb : new ∉ bs)
    (hne : new ≠ old) : (m.replaced old new l).Links l (new :: bs) := by
  have hnext : m.next old ≠ some new := fun hn => hnewb (hrest.mem_of_slot hn)
  refine ⟨by simp [slot_replaced], by simp [hne, hnext], by simpa using hnew, ?_⟩
  cases bs with
  | nil => simpa [Links, slot_replaced, Ne.symm hlnew] using hrest
  | cons y bs =>
    have hnodup : (y :: bs).Nodup := by
      refine hrest.nodup_of fun x hx he => ?_
      rw [Slot.next.injEq] at he
      exact hnot (he ▸ hx)
    obtain ⟨hy, _, hylive, hrest⟩ := hrest
    obtain ⟨hyl, hl⟩ := List.forall_mem_cons.mp hl
    obtain ⟨hyo, hnot⟩ := not_or.mp (List.mem_cons.not.mp hnot)
    obtain ⟨hyn, hnewb⟩ := not_or.mp (List.mem_cons.not.mp hnewb)
    rw [slot_next] at hy
    refine ⟨?_, by simp [hy, Ne.symm hyo], by simpa using hylive, ?_⟩
    · simp [Ne.symm hlnew, hy]
    · refine hrest.frame (by simp [Ne.symm hyl, Ne.symm hyn]) fun x hx => ?_
      have hyx : y ≠ x := fun he => (List.nodup_cons.mp hnodup).1 (he ▸ hx)
      have hxo : x ≠ old := fun he => hnot (he ▸ hx)
      have hxn : x ≠ new := fun he => hnewb (he ▸ hx)
      exact ⟨by simp [Ne.symm (hl x hx), hxn], by simp [hxo, hy, hyx, hxn],
        by simpa using hrest.live x hx⟩

omit [DecidableEq H] [DecidableEq A] in
/-- What surrounds a node of a list: its slot belongs to the nodes before it. -/
theorem Links.around (hl : m.Links (.head h) (as ++ a :: bs)) :
    m.Valid (endSlot (.head h) as) ∧
      (∀ x, x ∉ as → endSlot (.head h) as ≠ .next x) ∧
      (∀ g, g ≠ h → endSlot (.head h) as ≠ .head g) ∧
      (∀ x ∈ as, x ≠ a ∧ x ∉ bs) ∧ a ∉ bs := by
  have hnodup := List.nodup_append.mp hl.nodup
  have hdisj : ∀ x ∈ as, x ∉ a :: bs := fun x hx hxb => hnodup.2.2 x hx x hxb rfl
  refine ⟨?_, ?_, ?_, ?_, (List.nodup_cons.mp hnodup.2.1).1⟩
  · exact valid_endSlot (fun x hx => hl.live x (List.mem_append_left _ hx)) h
  · intro x hx
    rcases endSlot_eq (Slot.head h : Slot H A) as with ⟨he, _⟩ | ⟨y, hy, he⟩
    · simp [he]
    · rw [he]
      intro heq
      rw [Slot.next.injEq] at heq
      exact hx (heq ▸ hy)
  · intro g hg
    rcases endSlot_eq (Slot.head h : Slot H A) as with ⟨he, _⟩ | ⟨y, hy, he⟩
    · simpa [he] using Ne.symm hg
    · simp [he]
  · intro x hx
    exact not_or.mp (List.mem_cons.not.mp (hdisj x hx))

/-- **Deleting a node.** -/
theorem Links.del (hl : m.Links (.head h) (as ++ a :: bs)) :
    m.del a = some (m.deleted a (endSlot (.head h) as)) ∧
      Changes h (as ++ a :: bs) (as ++ bs) m (m.deleted a (endSlot (.head h) as)) := by
  obtain ⟨hvalid, hslot, hhead, hpre, hnot⟩ := hl.around
  have hrest : m.Links (.next a) bs := hl.drop.2.2.2
  have hmem : ∀ x, m.next a = some x → x ∈ bs := fun x hx => hrest.mem_of_slot hx
  refine ⟨del_eq (hl.live a (by simp)) hl.drop.2.1 hvalid fun x hx => hrest.live x (hmem x hx), ?_⟩
  refine ⟨?_, live_deleted .., fun g hg => ?_, fun x hx _ => ?_⟩
  · refine hl.splice (List.nodup_append.mp hl.nodup).1 (fun _ _ => by simp) (fun s _ hs => ?_)
      (fun x hx => ?_) (hrest.deleted (fun x hx => hslot x fun hxa => ?_) hnot)
    · rw [slot_deleted, if_neg hs]
    · have hnx : m.next a ≠ some x := fun hn => (hpre x hx).2 (hmem x hn)
      exact ⟨by simp [(hpre x hx).1, hnx], by simpa using hl.live x (by simp [hx])⟩
    · exact (List.mem_cons.mp hx).elim (hpre x hxa).1 (hpre x hxa).2
  · rw [first_deleted, if_neg (Ne.symm (hhead g hg))]
  · have hxa : x ∉ as := fun hmem => hx (by simp [hmem])
    have hxn : x ≠ a := fun he => hx (by simp [he])
    have hnx : m.next a ≠ some x := fun hn => hx (by simp [hmem x hn])
    exact ⟨by simp [Ne.symm (hslot x hxa)], by simp [hxn, hnx]⟩

/-- **Replacing a node.** -/
theorem Links.replace (hl : m.Links (.head h) (as ++ a :: bs)) (hn : n ∈ m.live)
    (hnot : n ∉ as ++ a :: bs) :
    m.replace a n = some (m.replaced a n (endSlot (.head h) as)) ∧
      Changes h (as ++ a :: bs) (as ++ n :: bs) m (m.replaced a n (endSlot (.head h) as)) := by
  obtain ⟨hvalid, hslot, hhead, hpre, hnota⟩ := hl.around
  have hrest : m.Links (.next a) bs := hl.drop.2.2.2
  have hmem : ∀ x, m.next a = some x → x ∈ bs := fun x hx => hrest.mem_of_slot hx
  have hna : n ∉ as := fun hmem => hnot (by simp [hmem])
  have hne : n ≠ a := fun he => hnot (by simp [he])
  have hnb : n ∉ bs := fun hmem => hnot (by simp [hmem])
  refine ⟨replace_eq (hl.live a (by simp)) hn hl.drop.2.1 hvalid
    fun x hx => hrest.live x (hmem x hx), ?_⟩
  refine ⟨?_, live_replaced .., fun g hg => ?_, fun x hx hx' => ?_⟩
  · refine hl.splice (List.nodup_append.mp hl.nodup).1 (fun _ _ => by simp) (fun s hs hse => ?_)
      (fun x hx => ?_) (hrest.replaced (fun x hx => hslot x fun hxa => (hpre x hxa).2 hx) hnota
        (hslot n hna) hn hnb hne)
    · have hsn : s ≠ .next n := by
        rintro rfl
        rcases hs with hs | ⟨x, hx, hs⟩
        · exact absurd hs (by simp)
        · rw [Slot.next.injEq] at hs
          exact hna (hs ▸ hx)
      rw [slot_replaced, if_neg hse, if_neg hsn]
    · have hnx : m.next a ≠ some x := fun he => (hpre x hx).2 (hmem x he)
      have hxn : x ≠ n := fun he => hna (he ▸ hx)
      exact ⟨by simp [(hpre x hx).1, hnx, hxn], by simpa using hl.live x (by simp [hx])⟩
  · rw [first_replaced, if_neg (Ne.symm (hhead g hg))]
  · have hxa : x ∉ as := fun hmem => hx (by simp [hmem])
    have hxo : x ≠ a := fun he => hx (by simp [he])
    have hxn : x ≠ n := fun he => hx' (by simp [he])
    have hnx : m.next a ≠ some x := fun he => hx (by simp [hmem x he])
    exact ⟨by simp [Ne.symm (hslot x hxa), hxn], by simp [hxo, hnx, hxn]⟩

end Hlist

end CppProgramming.Lib
