import CppProgramming.Lib.Transition
import Mathlib.Algebra.Ring.Nat
import Mathlib.Data.Int.Notation
import Mathlib.Data.List.Induction
import Mathlib.Logic.Function.Basic

/-!
# The hook tables of `func_trans/main1.c`

`hello_register_hook` puts a function into the table of the functions that run before
`hello_func` or into the one of those that run after it.  Its first call puts `hello_func`
itself into the place `7` of the first table, and no call is meant to change that place.

`struct hook_t` has its two tables and a union one behind the other, so it is modelled as it
lies in memory: sixteen places.  The index is compared with `7` only.  Any other one is
written to wherever it leads, to the other table, to the union or out of the structure
(`registerHook_iff`).

* `Slot`, `Registry`: what the tables are for, without the places in memory.
* `Represents`: the places hold a registry.  `Represents.register`: every call with an index
  in `0..7` or with a type that there is not keeps that.
-/

namespace CppProgramming.FuncTrans

open CppProgramming.Lib

/-! ### The tables -/

/-- `struct hook_func_t` -/
structure HookFunc where
  func : BitVec 64
  flag : BitVec 64
deriving DecidableEq

/-- What a global has before it is written. -/
def HookFunc.zero : HookFunc := ⟨0, 0⟩

/-- `struct hook_t`, in units of a `struct hook_func_t`: `prev_func` has the places `0..7`,
`post_func` `8..14`, and the union has `15`. -/
structure Hook where
  place : Fin 16 → HookFunc

namespace Hook

def prevFunc (h : Hook) (i : Fin 8) : HookFunc := h.place ⟨i, by omega⟩

/-- `post_func[7]` is the `blank` of the union. -/
def postFunc (h : Hook) (i : Fin 8) : HookFunc := h.place ⟨8 + i, by omega⟩

def set (h : Hook) (k : Fin 16) (f : HookFunc) : Hook := ⟨Function.update h.place k f⟩

theorem place_set (h : Hook) (k l : Fin 16) (f : HookFunc) :
    (h.set k f).place l = if l = k then f else h.place l :=
  Function.update_apply ..

/-- The place that lies `index` places behind another one. -/
def behind (base : ℕ) (index : ℤ) : Option (Fin 16) :=
  if h : 0 ≤ base + index ∧ base + index < 16 then some ⟨(base + index).toNat, by omega⟩ else none

/-- `prev_func[index] = f` and `post_func[index] = f`; `none` is a write outside of the
structure. -/
def assign (h : Hook) (base : ℕ) (index : ℤ) (f : HookFunc) : Option Hook :=
  (behind base index).map fun k => h.set k f

end Hook

/-! ### The code -/

/-- `hello_hook`, `hello_addr` and `hello_hook_inited` -/
structure Globals where
  helloHook : Hook
  helloAddr : BitVec 64
  inited : Bool

def Globals.init : Globals := ⟨⟨fun _ => .zero⟩, 0, false⟩

/-- Where the linker has put the two functions. -/
structure Symbols where
  helloFunc : BitVec 64
  helloHookFunc : BitVec 64
  helloFunc_ne : helloFunc ≠ 0

/-- The arguments of `hello_register_hook`. -/
structure Registration where
  funcAddr : BitVec 64
  flag : BitVec 64
  type : ℤ
  index : ℤ
deriving DecidableEq

def Registration.funcHook (r : Registration) : HookFunc := ⟨r.funcAddr, r.flag⟩

variable (sym : Symbols)

/-- `origin_func_hook` -/
def Symbols.originFuncHook : HookFunc := ⟨sym.helloFunc, 0⟩

/-- The first part of `hello_register_hook`. -/
def Globals.install (g : Globals) : Globals :=
  if g.inited then g
  else
    { helloHook := g.helloHook.set 7 sym.originFuncHook
      helloAddr := sym.helloHookFunc
      inited := true }

/-- `hello_register_hook`; `none` is a write outside of `hello_hook`. -/
def registerHook (g : Globals) (r : Registration) : Option (ℤ × Globals) :=
  let g := g.install sym
  if r.index = 7 then some (-1, g)
  else if r.type = 0 then
    (g.helloHook.assign 0 r.index r.funcHook).map fun h => (0, { g with helloHook := h })
  else if r.type = 1 then
    (g.helloHook.assign 8 r.index r.funcHook).map fun h => (0, { g with helloHook := h })
  else some (-1, g)

/-- The calls of `hello_register_hook`, one after the other. -/
def registrations : System Globals Registration :=
  .ofStep (· = Globals.init) fun g r => (registerHook sym g r).map Prod.snd

/-! ### What the tables are for -/

/-- What runs before the original function, and what runs after it. -/
inductive Table
  | prev
  | post
deriving DecidableEq

/-- The number of a table, the `type` of a call. -/
def Table.type : Table → ℤ
  | .prev => 0
  | .post => 1

/-- A place that may be asked for. -/
structure Slot where
  table : Table
  index : Fin 7
deriving DecidableEq

def Slot.place (s : Slot) : Fin 16 :=
  match s.table with
  | .prev => ⟨s.index, by omega⟩
  | .post => ⟨8 + s.index, by omega⟩

/-- What a call asks for. -/
def Registration.slot (r : Registration) : Option Slot :=
  if h : 0 ≤ r.index ∧ r.index ≤ 6 then
    if r.type = 0 then some ⟨.prev, ⟨r.index.toNat, by omega⟩⟩
    else if r.type = 1 then some ⟨.post, ⟨r.index.toNat, by omega⟩⟩
    else none
  else none

/-- The hooks that are registered. -/
abbrev Registry := Slot → Option HookFunc

/-- A function `NULL` makes its place empty. -/
def HookFunc.entry (f : HookFunc) : Option HookFunc := if f.func = 0 then none else some f

def Registry.register (reg : Registry) (r : Registration) : Registry :=
  match r.slot with
  | none => reg
  | some s => Function.update reg s r.funcHook.entry

/-- The registry that calls have made. -/
def Registry.ofCalls (rs : List Registration) : Registry :=
  rs.foldl Registry.register fun _ => none

/-- **What is asked of a call**: a call for a slot returns `0` and changes that slot only, and
any other call returns `-1` and changes no place.  The first call fills the reserved place
besides. -/
structure Correct (g : Globals) (r : Registration) (out : Option (ℤ × Globals)) : Prop where
  accepted : ∀ s, r.slot = some s → ∃ g', out = some (0, g') ∧ ∀ k, g'.helloHook.place k =
    if k = s.place then r.funcHook
    else if k = 7 ∧ g.inited = false then sym.originFuncHook
    else g.helloHook.place k
  refused : r.slot = none → ∃ g', out = some (-1, g') ∧ ∀ k, g'.helloHook.place k =
    if k = 7 ∧ g.inited = false then sym.originFuncHook else g.helloHook.place k

/-- The same, and a refused call does not fill the reserved place either. -/
structure CorrectStrict (g : Globals) (r : Registration) (out : Option (ℤ × Globals)) : Prop
    extends Correct sym g r out where
  unchanged : r.slot = none → ∀ a g', out = some (a, g') →
    ∀ k, g'.helloHook.place k = g.helloHook.place k

/-! ### What a call does -/

/-- The index is in the tables or is the reserved one, or there is no table of this type. -/
def Registration.Checked (r : Registration) : Prop :=
  (0 ≤ r.index ∧ r.index ≤ 7) ∨ (r.type ≠ 0 ∧ r.type ≠ 1)

instance Registration.decidableChecked (r : Registration) : Decidable r.Checked :=
  inferInstanceAs (Decidable (_ ∨ _))

/-- The code turns the call away. -/
def Registration.TurnedAway (r : Registration) : Prop :=
  r.index = 7 ∨ (r.type ≠ 0 ∧ r.type ≠ 1)

variable {sym} {g g' : Globals} {r : Registration} {s : Slot}

theorem inited_install : (g.install sym).inited = true := by
  unfold Globals.install
  split <;> simp [*]

theorem place_install (k : Fin 16) : (g.install sym).helloHook.place k =
    if k = 7 ∧ g.inited = false then sym.originFuncHook else g.helloHook.place k := by
  unfold Globals.install
  cases g.inited with
  | true => simp
  | false => simp [Hook.place_set]

/-- No slot is the reserved place or the union. -/
theorem place_ne (s : Slot) {k : Fin 16} (hk : k = 7 ∨ k = 15) : s.place ≠ k := by
  obtain ⟨table, i⟩ := s
  have hi := i.isLt
  have hval : (k : ℕ) = 7 ∨ (k : ℕ) = 15 := hk.imp (congrArg Fin.val) (congrArg Fin.val)
  rintro rfl
  cases table with
  | prev =>
    have hplace : (i : ℕ) = 7 ∨ (i : ℕ) = 15 := hval
    omega
  | post =>
    have hplace : 8 + (i : ℕ) = 7 ∨ 8 + (i : ℕ) = 15 := hval
    omega

theorem slot_eq_some_iff : r.slot = some s ↔ r.index = (s.index : ℕ) ∧ r.type = s.table.type := by
  obtain ⟨table, index⟩ := s
  have hindex := index.isLt
  unfold Registration.slot
  constructor
  · intro h
    split at h
    case isFalse => exact absurd h (by simp)
    case isTrue hbound =>
      split at h
      case isTrue htype =>
        obtain ⟨rfl, rfl⟩ := Slot.mk.inj (Option.some.inj h)
        exact ⟨(Int.toNat_of_nonneg hbound.1).symm, htype⟩
      case isFalse =>
        split at h
        case isTrue htype =>
          obtain ⟨rfl, rfl⟩ := Slot.mk.inj (Option.some.inj h)
          exact ⟨(Int.toNat_of_nonneg hbound.1).symm, htype⟩
        case isFalse => exact absurd h (by simp)
  · rintro ⟨hr, htype⟩
    dsimp only at hr htype
    rw [dif_pos (by omega)]
    have hnat : r.index.toNat = (index : ℕ) := by omega
    cases table with
    | prev =>
      have htype : r.type = 0 := htype
      rw [if_pos htype]
      simp [hnat]
    | post =>
      have htype : r.type = 1 := htype
      rw [if_neg (by omega), if_pos htype]
      simp [hnat]

theorem slot_eq_none_iff :
    r.slot = none ↔ r.index < 0 ∨ 6 < r.index ∨ (r.type ≠ 0 ∧ r.type ≠ 1) := by
  unfold Registration.slot
  split
  case isTrue hbound =>
    split_ifs with hzero hone
    · simp [hzero]
      omega
    · simp [hone]
      omega
    · simp [hzero, hone]
  case isFalse hbound =>
    simp
    omega

theorem behind_prev (i : Fin 7) : Hook.behind 0 (i : ℕ) = some (Slot.place ⟨.prev, i⟩) := by
  have hi := i.isLt
  rw [Hook.behind, dif_pos (by omega)]
  simp [Slot.place]

theorem behind_post (i : Fin 7) : Hook.behind 8 (i : ℕ) = some (Slot.place ⟨.post, i⟩) := by
  have hi := i.isLt
  rw [Hook.behind, dif_pos (by omega)]
  exact congrArg some (Fin.ext (Int.toNat_natCast (8 + i)))

/-- **A call for a slot** changes it. -/
theorem registerHook_of_slot (h : r.slot = some s) : registerHook sym g r =
    some (0, { g.install sym with
      helloHook := (g.install sym).helloHook.set s.place r.funcHook }) := by
  obtain ⟨hindex, htype⟩ := slot_eq_some_iff.mp h
  obtain ⟨table, i⟩ := s
  have hi := i.isLt
  dsimp only at hindex
  rw [registerHook, if_neg (by omega)]
  cases table with
  | prev =>
    have htype : r.type = 0 := htype
    rw [if_pos htype, Hook.assign, hindex, behind_prev]
    rfl
  | post =>
    have htype : r.type = 1 := htype
    rw [if_neg (by omega), if_pos htype, Hook.assign, hindex, behind_post]
    rfl

/-- **A call that is turned away** changes no slot. -/
theorem registerHook_of_turnedAway (h : r.TurnedAway) :
    registerHook sym g r = some (-1, g.install sym) := by
  rw [registerHook]
  rcases h with h | ⟨hzero, hone⟩
  · exact if_pos h
  · simp [hzero, hone]

/-- **Everything a call can do** when it comes back. -/
theorem registerHook_cases {a : ℤ} (hout : registerHook sym g r = some (a, g')) :
    (r.TurnedAway ∧ a = -1 ∧ g' = g.install sym) ∨
      (¬ r.TurnedAway ∧ a = 0 ∧ ∃ hook, g' = { g.install sym with helloHook := hook }) := by
  by_cases hturned : r.TurnedAway
  · rw [registerHook_of_turnedAway hturned] at hout
    obtain ⟨rfl, rfl⟩ := Prod.mk.inj (Option.some.inj hout)
    exact Or.inl ⟨hturned, rfl, rfl⟩
  · obtain ⟨hindex, htype⟩ := not_or.mp hturned
    rw [registerHook, if_neg hindex] at hout
    split_ifs at hout with hzero hone
    · obtain ⟨hook, -, heq⟩ := Option.map_eq_some_iff.mp hout
      obtain ⟨rfl, rfl⟩ := Prod.mk.inj heq
      exact Or.inr ⟨hturned, rfl, hook, rfl⟩
    · obtain ⟨hook, -, heq⟩ := Option.map_eq_some_iff.mp hout
      obtain ⟨rfl, rfl⟩ := Prod.mk.inj heq
      exact Or.inr ⟨hturned, rfl, hook, rfl⟩
    · exact absurd ⟨hzero, hone⟩ htype

theorem inited_registerHook {a : ℤ} (hout : registerHook sym g r = some (a, g')) :
    g'.inited = true := by
  rcases registerHook_cases hout with ⟨-, -, rfl⟩ | ⟨-, -, hook, rfl⟩
  · exact inited_install
  · exact inited_install

/-- A call that is not checked is never answered with `-1`. -/
theorem registerHook_of_not_checked (h : ¬ r.Checked) {a : ℤ}
    (hout : registerHook sym g r = some (a, g')) : a = 0 := by
  obtain ⟨hindex, htype⟩ := not_or.mp h
  rcases registerHook_cases hout with ⟨hturned, -, -⟩ | ⟨-, ha, -⟩
  · rcases hturned with hseven | hnone
    · exact absurd hseven (by omega)
    · exact absurd hnone htype
  · exact ha

theorem turnedAway_of_slot_eq_none (h : r.Checked) (hnone : r.slot = none) : r.TurnedAway := by
  rcases slot_eq_none_iff.mp hnone with hlow | hhigh | htype
  · rcases h with ⟨hle, -⟩ | htype
    · exact absurd hle (by omega)
    · exact Or.inr htype
  · rcases h with ⟨-, hle⟩ | htype
    · exact Or.inl (by omega)
    · exact Or.inr htype
  · exact Or.inr htype

/-! ### The tables of a whole run -/

theorem place_injective : Function.Injective Slot.place := by
  rintro ⟨table, i⟩ ⟨table', j⟩ h
  have hi := i.isLt
  have hj := j.isLt
  have hval := congrArg Fin.val h
  cases table <;> cases table' <;> simp only [Slot.place] at hval
  · rw [Fin.ext hval]
  · omega
  · omega
  · rw [Fin.ext (by omega : (i : ℕ) = j)]

variable (sym) in
/-- The places of the tables hold the registry, the reserved one the original function, and
the union, which is read as `post_func[7]`, nothing. -/
structure Represents (g : Globals) (reg : Registry) : Prop where
  slot : ∀ s, (g.helloHook.place s.place).entry = reg s
  reserved : g.helloHook.place 7 = if g.inited then sym.originFuncHook else .zero
  blank : g.helloHook.place 15 = .zero

variable {reg : Registry}

theorem represents_init : Represents sym .init fun _ => none :=
  ⟨fun _ => rfl, rfl, rfl⟩

theorem Represents.install (h : Represents sym g reg) : Represents sym (g.install sym) reg where
  slot s := by
    rw [place_install, if_neg fun hs => place_ne s (Or.inl rfl) hs.1]
    exact h.slot s
  reserved := by
    rw [place_install, h.reserved, inited_install]
    cases g.inited <;> simp
  blank := by
    rw [place_install, if_neg (by simp)]
    exact h.blank

/-- **A checked call** keeps the tables a registry. -/
theorem Represents.register (h : Represents sym g reg) (hr : r.Checked) :
    ∃ a g', registerHook sym g r = some (a, g') ∧ Represents sym g' (reg.register r) := by
  cases hs : r.slot with
  | none =>
    refine ⟨_, _, registerHook_of_turnedAway (turnedAway_of_slot_eq_none hr hs), ?_⟩
    rw [Registry.register, hs]
    exact h.install
  | some s =>
    refine ⟨_, _, registerHook_of_slot hs, fun t => ?_, ?_, ?_⟩
    · rw [Registry.register, hs]
      by_cases hts : t = s
      · rw [hts, Hook.place_set, if_pos rfl]
        exact (Function.update_self s r.funcHook.entry reg).symm
      · rw [Hook.place_set, if_neg (place_injective.ne hts), h.install.slot]
        exact (Function.update_of_ne hts r.funcHook.entry reg).symm
    · rw [Hook.place_set, if_neg (place_ne s (Or.inl rfl)).symm]
      exact h.install.reserved
    · rw [Hook.place_set, if_neg (place_ne s (Or.inr rfl)).symm]
      exact h.install.blank

/-- **A run of checked calls** makes the registry of these calls. -/
theorem represents_run (rs : List Registration) (hrs : ∀ r ∈ rs, r.Checked) :
    ∃ g, (registrations sym).Run .init rs g ∧ Represents sym g (.ofCalls rs) := by
  induction rs using List.reverseRecOn with
  | nil => exact ⟨_, .nil _, represents_init⟩
  | append_singleton rs r ih =>
    obtain ⟨g, hrun, hg⟩ := ih fun q hq => hrs q (List.mem_append_left _ hq)
    obtain ⟨a, g', hout, hg'⟩ := hg.register (hrs r (by simp))
    refine ⟨g', .snoc hrun (Option.map_eq_some_iff.mpr ⟨_, hout, rfl⟩), ?_⟩
    rw [Registry.ofCalls, List.foldl_concat]
    exact hg'

/-! ### Which calls are answered as they should -/

theorem slot_eq_none_of_not_checked (h : ¬ r.Checked) : r.slot = none := by
  obtain ⟨hindex, -⟩ := not_or.mp h
  exact slot_eq_none_iff.mpr (by omega)

theorem correct_iff : Correct sym g r (registerHook sym g r) ↔ r.Checked := by
  constructor
  · intro h
    by_contra hchecked
    obtain ⟨g', hout, -⟩ := h.refused (slot_eq_none_of_not_checked hchecked)
    have hzero := registerHook_of_not_checked hchecked hout
    omega
  · intro h
    refine ⟨fun s hs => ⟨_, registerHook_of_slot hs, fun k => ?_⟩, fun hnone => ⟨_,
      registerHook_of_turnedAway (turnedAway_of_slot_eq_none h hnone), place_install⟩⟩
    rw [Hook.place_set, place_install]

/-- Only the first call finds the tables without the original function. -/
theorem inited_of_run {rs : List Registration} (h : (registrations sym).Run .init rs g) :
    (rs = [] → g = .init) ∧ (rs ≠ [] → g.inited = true) := by
  cases h with
  | nil => exact ⟨fun _ => rfl, fun hne => absurd rfl hne⟩
  | snoc hrun hstep =>
    obtain ⟨⟨a, g'⟩, hout, rfl⟩ := Option.map_eq_some_iff.mp hstep
    exact ⟨fun hnil => absurd hnil (by simp), fun _ => inited_registerHook hout⟩

theorem correctStrict_iff {rs : List Registration} (h : (registrations sym).Run .init rs g) :
    CorrectStrict sym g r (registerHook sym g r) ↔ r.Checked ∧ (r.slot = none → rs ≠ []) := by
  constructor
  · intro hstrict
    have hchecked := correct_iff.mp hstrict.toCorrect
    refine ⟨hchecked, ?_⟩
    rintro hnone rfl
    obtain rfl := (inited_of_run h).1 rfl
    have hout : registerHook sym .init r = some (-1, Globals.init.install sym) :=
      registerHook_of_turnedAway (turnedAway_of_slot_eq_none hchecked hnone)
    have hseven := hstrict.unchanged hnone _ _ hout 7
    rw [place_install, if_pos ⟨rfl, rfl⟩] at hseven
    exact sym.helloFunc_ne (congrArg HookFunc.func hseven)
  · rintro ⟨hchecked, hfirst⟩
    refine ⟨correct_iff.mpr hchecked, fun hnone a g' hout k => ?_⟩
    have hinited := (inited_of_run h).2 (hfirst hnone)
    rw [registerHook_of_turnedAway (turnedAway_of_slot_eq_none hchecked hnone)] at hout
    obtain ⟨-, rfl⟩ := Prod.mk.inj (Option.some.inj hout)
    rw [place_install, if_neg (by simp [hinited])]

/-- **`hello_register_hook`** after any calls answers as it should exactly where it checks what
it is given.  Where a refused call must not fill the reserved place either, it must not be the
first one besides. -/
theorem registerHook_iff {rs : List Registration} (h : (registrations sym).Run .init rs g)
    (r : Registration) :
    (Correct sym g r (registerHook sym g r) ↔
        (0 ≤ r.index ∧ r.index ≤ 7) ∨ (r.type ≠ 0 ∧ r.type ≠ 1)) ∧
      (CorrectStrict sym g r (registerHook sym g r) ↔
        ((0 ≤ r.index ∧ r.index ≤ 7) ∨ (r.type ≠ 0 ∧ r.type ≠ 1)) ∧ (r.slot = none → rs ≠ [])) :=
  ⟨correct_iff, correctStrict_iff h⟩

/-- The functions at some addresses. -/
def mainSymbols : Symbols := ⟨0x1136, 0x1185, by decide⟩

/-- The two calls of `main`. -/
def mainCalls : List Registration := [⟨0x142f, 0, 0, 0⟩, ⟨0x1476, 1, 1, 0⟩]

theorem registerHook_iff_main : ∃ g, (registrations mainSymbols).Run .init mainCalls g ∧
    Correct mainSymbols g ⟨0x1476, 1, 0, 7⟩ (registerHook mainSymbols g ⟨0x1476, 1, 0, 7⟩) := by
  obtain ⟨g, hrun, -⟩ : ∃ g, (registrations mainSymbols).Run .init mainCalls g ∧ _ :=
    represents_run mainCalls (by decide)
  exact ⟨g, hrun, (registerHook_iff hrun _).1.mpr (by decide)⟩

/-- The index `8` of the one table is the first place of the other. -/
theorem register_beyond_prev : ∃ g',
    registerHook mainSymbols .init ⟨0x1476, 1, 0, 8⟩ = some (0, g') ∧
      g'.helloHook.postFunc 0 = ⟨0x1476, 1⟩ ∧
      ¬ Correct mainSymbols .init ⟨0x1476, 1, 0, 8⟩
        (registerHook mainSymbols .init ⟨0x1476, 1, 0, 8⟩) := by
  refine ⟨_, rfl, rfl, fun h => ?_⟩
  obtain ⟨g', hout, -⟩ := h.refused (by decide)
  exact absurd (registerHook_of_not_checked (by decide) hout) (by decide)

end CppProgramming.FuncTrans
