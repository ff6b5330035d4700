import CppProgramming.Lib.CString
import Mathlib.Algebra.Order.Ring.Int
import Mathlib.Data.List.Induction

/-!
# The copyable string of `copy_constructor.cpp`

A `String` owns a buffer with its text.  A program builds objects from texts and from each
other, assigns them and destroys them; `Values` is what such a program means when a `String`
is a value, and `Sound` says that the objects and the heap have just these values.

The constructor from a text makes room for the NUL, the copy constructor does not: its
`strcpy` writes one place behind the new buffer (`copyConstruct_eq`).  So a program is sound
when it makes no copy, and `string_sound_iff` says that no other program is, up to texts whose
length an `int` cannot hold.
-/

namespace CppProgramming.Memory.CopyConstructor

open CppProgramming.Lib

structure String where
  buf : ℕ
  size : ℤ
deriving DecidableEq

def INT_MAX : ℤ := 2147483647

/-- A length as an `int`. -/
def toInt (n : ℕ) : ℤ := Int.bmod n 4294967296

/-- `size + 1` -/
def succ (size : ℤ) : Except HeapFault ℤ :=
  if size < INT_MAX then .ok (size + 1) else .error .intOverflow

/-- `new char[n]` -/
def newChars (h : Heap) (n : ℤ) : Except HeapFault (ℕ × Heap) :=
  if n < 0 then .error .badArrayLength else .ok (h.alloc n.toNat)

/-- `buf[size] = '\0'` -/
def terminate (h : Heap) (s : String) : Except HeapFault Heap :=
  if s.size < 0 then .error .outOfBounds else h.write s.buf s.size.toNat '\x00'

/-- `String(const char* str)` behind the line that sets `size`. -/
def constructSized (h : Heap) (str : Text) (size : ℤ) : Except HeapFault (String × Heap) := do
  let n ← succ size
  let (buf, h) ← newChars h n
  let h ← h.strcpy buf str.chars
  let h ← terminate h ⟨buf, size⟩
  .ok (⟨buf, size⟩, h)

/-- `String(const char* str)` -/
def construct (h : Heap) (str : Text) : Except HeapFault (String × Heap) :=
  constructSized h str (toInt str.chars.length)

/-- `~String()` -/
def destruct (h : Heap) (s : String) : Except HeapFault Heap :=
  if s.buf ≠ 0 then h.free s.buf else .ok h

/-- `String(const String& str)` -/
def copyConstruct (h : Heap) (str : String) : Except HeapFault (String × Heap) := do
  let size := str.size
  let (buf, h) ← newChars h size
  let text ← h.readText str.buf
  let h ← h.strcpy buf text
  let h ← terminate h ⟨buf, size⟩
  .ok (⟨buf, size⟩, h)

/-- What a program does with the objects at the addresses `x` and `y`. -/
inductive Command
  | construct (x : ℕ) (str : Text)
  | copy (x y : ℕ)
  | assign (x y : ℕ)
  | destroy (x : ℕ)

structure State where
  heap : Heap
  objects : ℕ → Option String

namespace State

def initial : State := ⟨.empty, fun _ => none⟩

def put (s : State) (x : ℕ) (r : String × Heap) : State :=
  ⟨r.2, Function.update s.objects x (some r.1)⟩

/-- The object at an address; without one the program is none. -/
def object (s : State) (x : ℕ) : Except HeapFault String :=
  match s.objects x with
  | none => .error .notAllocated
  | some str => .ok str

def exec (s : State) : Command → Except HeapFault State
  | .construct x str => do
    let r ← construct s.heap str
    .ok (s.put x r)
  | .copy x y => do
    let str ← s.object y
    let r ← copyConstruct s.heap str
    .ok (s.put x r)
  | .assign x y => do
    let this ← s.object x
    let str ← s.object y
    if x ≠ y then
      let h ← destruct s.heap this
      let r ← copyConstruct h str
      .ok (s.put x r)
    else .ok s
  | .destroy x => do
    let this ← s.object x
    let h ← destruct s.heap this
    .ok ⟨h, Function.update s.objects x none⟩

end State

def run (prog : List Command) : Except HeapFault State := prog.foldlM State.exec .initial

/-! ### What a program means -/

/-- The texts of the objects that exist. -/
abbrev Values := ℕ → Option Text

namespace Values

/-- A command, where its objects exist and its new object does not. -/
def exec (v : Values) : Command → Option Values
  | .construct x str => if v x = none then some (Function.update v x (some str)) else none
  | .copy x y => if v x = none then (v y).map fun t => Function.update v x (some t) else none
  | .assign x y =>
    if v x = none then none else (v y).map fun t => Function.update v x (some t)
  | .destroy x => if v x = none then none else some (Function.update v x none)

end Values

def values (prog : List Command) : Option Values := prog.foldlM Values.exec fun _ => none

/-- **The representation.**  Each object has a buffer of its own with room for its text and the
NUL and has both in it; every other buffer was freed, and freed once. -/
structure Sound (s : State) (v : Values) : Prop where
  heap : s.heap.WellFormed
  object : ∀ x t, v x = some t → ∃ str b, s.objects x = some str ∧
    str.size = t.chars.length ∧ s.heap.buffer str.buf = some b ∧ b.Holds t.chars
  gone : ∀ x, v x = none → s.objects x = none
  own : ∀ x y a b, s.objects x = some a → s.objects y = some b → a.buf = b.buf → x = y
  owned : ∀ p b, s.heap.buffer p = some b → ∃ x a, s.objects x = some a ∧ a.buf = p

/-- The program runs without a fault, through states with the right values. -/
def Meets (prog : List Command) : Prop :=
  ∀ pre, pre <+: prog → ∃ s v, run pre = .ok s ∧ values pre = some v ∧ Sound s v

/-- The command makes no copy, and an `int` holds the size of its buffer. -/
def Command.Safe : Command → Prop
  | .construct _ str => str.chars.length < INT_MAX
  | .copy _ _ => False
  | .assign x y => x = y
  | .destroy _ => True

/-! ### The constructors -/

/-- The buffer of a new object. -/
def built (text : List Char) : Buffer :=
  let b := Buffer.fill ⟨text.length + 1, fun _ => none⟩ 0 (text ++ ['\x00'])
  { b with mem := Function.update b.mem text.length (some '\x00') }

theorem holds_built (text : List Char) : (built text).Holds text := by
  obtain ⟨hcap, hmem, hnul⟩ :=
    Buffer.holds_fill ⟨text.length + 1, fun _ => none⟩ (le_refl (text.length + 1))
  refine ⟨hcap, fun i hi => ?_, Function.update_self ..⟩
  rw [← hmem i hi]
  exact Function.update_of_ne (Nat.ne_of_lt hi) ..

theorem toInt_eq {n : ℕ} (h : n < INT_MAX) : toInt n = n := by
  unfold INT_MAX at h
  exact Int.bmod_eq_of_le (by omega) (by omega)

theorem newChars_eq (h : Heap) {n : ℤ} (hn : ¬ n < 0) :
    newChars h n = .ok (h.next, (h.alloc n.toNat).2) := if_neg hn

theorem construct_eq (h : Heap) {str : Text} (hlen : str.chars.length < INT_MAX) :
    construct h str = .ok (⟨h.next, str.chars.length⟩,
      (h.alloc (str.chars.length + 1)).2.set h.next (built str.chars)) := by
  have hsucc : succ (str.chars.length : ℤ) = .ok ((str.chars.length + 1 : ℕ) : ℤ) := if_pos hlen
  have hcpy := Heap.strcpy_of_lt (h.alloc_self (str.chars.length + 1)) str.chars
    (Nat.lt_succ_self _)
  have hnul := Heap.write_of_lt (Heap.set_self (h.alloc (str.chars.length + 1)).2 h.next
    (Buffer.fill ⟨str.chars.length + 1, fun _ => none⟩ 0 (str.chars ++ ['\x00'])))
    (i := str.chars.length) '\x00' (by rw [Buffer.fill_cap]; exact Nat.lt_succ_self _)
  have hend : terminate _ ⟨h.next, str.chars.length⟩ = _ :=
    (if_neg (show ¬ (str.chars.length : ℤ) < 0 by omega)).trans hnul
  rw [Heap.set_set] at hend
  rw [construct, toInt_eq hlen, constructSized, hsucc, ok_bind, newChars_eq h (by omega), ok_bind]
  dsimp only
  rw [Int.toNat_natCast, hcpy, ok_bind, hend, ok_bind]
  rfl

/-- A text that is too long for an `int` is not built, whatever `size` is then. -/
theorem constructSized_long (h : Heap) {str : Text} (size : ℤ)
    (hlen : ¬ str.chars.length < INT_MAX) : ∃ e, constructSized h str size = .error e := by
  by_cases hsucc : size < INT_MAX
  · have hsucc' : succ size = .ok (size + 1) := if_pos hsucc
    rw [constructSized, hsucc', ok_bind]
    by_cases hneg : size + 1 < 0
    · have hnew : newChars h (size + 1) = .error .badArrayLength := if_pos hneg
      exact ⟨_, by rw [hnew, error_bind]⟩
    · have hcpy := Heap.strcpy_of_le (h.alloc_self (size + 1).toNat) str.chars
        (show (size + 1).toNat ≤ str.chars.length by omega)
      rw [newChars_eq h hneg, ok_bind]
      dsimp only
      exact ⟨_, by rw [hcpy, error_bind]⟩
  · have hover : succ size = .error .intOverflow := if_neg hsucc
    exact ⟨_, by rw [constructSized, hover, error_bind]⟩

/-- **The copy constructor writes behind its buffer**, whatever the text. -/
theorem copyConstruct_eq {h : Heap} {str : String} {b : Buffer} {t : Text}
    (hsize : str.size = t.chars.length) (hnext : str.buf ≠ h.next)
    (hb : h.buffer str.buf = some b) (hh : b.Holds t.chars) :
    copyConstruct h str = .error .outOfBounds := by
  have hb' : (h.alloc t.chars.length).2.buffer str.buf = some b := by
    rw [Heap.alloc_of_ne h _ hnext, hb]
  have hread := Heap.readText_of_holds hb' hh
  have hcpy := Heap.strcpy_of_le (h.alloc_self t.chars.length) t.chars le_rfl
  rw [copyConstruct, hsize, newChars_eq h (by omega), ok_bind]
  dsimp only
  rw [Int.toNat_natCast, hread, ok_bind, hcpy, error_bind]

/-! ### Programs -/

theorem sound_initial : Sound .initial fun _ => none where
  heap := Heap.wellFormed_empty
  object _ _ ht := nomatch ht
  gone _ _ := rfl
  own _ _ _ _ ha := nomatch ha
  owned _ _ hb := nomatch hb

/-- No object has the address that comes next. -/
theorem Sound.buf_ne {s : State} {v : Values} (h : Sound s v) {x : ℕ} {a : String}
    (ha : s.objects x = some a) : a.buf ≠ 0 ∧ a.buf ≠ s.heap.next := by
  cases hv : v x with
  | none => exact absurd (h.gone x hv) (by simp [ha])
  | some t =>
    obtain ⟨str, b, hstr, _, hb, _⟩ := h.object x t hv
    obtain rfl := Option.some.inj (ha.symm.trans hstr)
    obtain ⟨hpos, hlt, _⟩ := h.heap.live _ _ hb
    exact ⟨Nat.ne_of_gt hpos, Nat.ne_of_lt hlt⟩

theorem update_eq_some {β : Type} {f : ℕ → Option β} {x y : ℕ} {c : Option β} {b : β}
    (h : Function.update f x c y = some b) : (y = x ∧ c = some b) ∨ (y ≠ x ∧ f y = some b) := by
  by_cases hy : y = x
  · rw [hy, Function.update_self] at h
    exact Or.inl ⟨hy, h⟩
  · rw [Function.update_of_ne hy] at h
    exact Or.inr ⟨hy, h⟩

theorem Sound.construct {s : State} {v : Values} (h : Sound s v) {x : ℕ} {str : Text}
    (hx : v x = none) (hlen : str.chars.length < INT_MAX) :
    ∃ s', s.exec (.construct x str) = .ok s' ∧ Sound s' (Function.update v x (some str)) := by
  have hold := h.gone x hx
  refine ⟨_, by rw [State.exec, construct_eq _ hlen, ok_bind], ?_⟩
  have hself : ((s.heap.alloc (str.chars.length + 1)).2.set s.heap.next
      (built str.chars)).buffer s.heap.next = some (built str.chars) := Heap.set_self ..
  have hother : ∀ p, p ≠ s.heap.next → ((s.heap.alloc (str.chars.length + 1)).2.set s.heap.next
      (built str.chars)).buffer p = s.heap.buffer p := by
    intro p hp
    rw [Heap.set_of_ne _ _ hp, Heap.alloc_of_ne _ _ hp]
  exact {
    heap := (h.heap.alloc _).set (Heap.alloc_self ..) _
    object := by
      intro y t hy
      rcases update_eq_some hy with ⟨rfl, hstr⟩ | ⟨hyx, hy⟩
      · obtain rfl := Option.some.inj hstr
        exact ⟨_, _, Function.update_self .., rfl, hself, holds_built _⟩
      · obtain ⟨a, b, ha, hsize, hb, hh⟩ := h.object y t hy
        refine ⟨a, b, ?_, hsize, ?_, hh⟩
        · exact (Function.update_of_ne hyx ..).trans ha
        · exact (hother _ (h.buf_ne ha).2).trans hb
    gone := by
      intro y hy
      have hyx : y ≠ x := by
        rintro rfl
        simp at hy
      rw [Function.update_of_ne hyx] at hy
      exact (Function.update_of_ne hyx ..).trans (h.gone y hy)
    own := by
      intro y z a b ha hb hab
      rcases update_eq_some ha with ⟨hy, hnew⟩ | ⟨_, ha'⟩
      · rcases update_eq_some hb with ⟨hz, _⟩ | ⟨_, hb'⟩
        · rw [hy, hz]
        · obtain rfl := Option.some.inj hnew
          exact absurd hab.symm (h.buf_ne hb').2
      · rcases update_eq_some hb with ⟨_, hnew⟩ | ⟨_, hb'⟩
        · obtain rfl := Option.some.inj hnew
          exact absurd hab (h.buf_ne ha').2
        · exact h.own y z a b ha' hb' hab
    owned := by
      intro p b hb
      by_cases hp : p = s.heap.next
      · exact ⟨x, _, Function.update_self .., hp.symm⟩
      · obtain ⟨y, a, ha, hbuf⟩ := h.owned p b ((hother p hp).symm.trans hb)
        have hyx : y ≠ x := by
          rintro rfl
          simp [hold] at ha
        exact ⟨y, a, (Function.update_of_ne hyx ..).trans ha, hbuf⟩ }

theorem Sound.destruct {s : State} {v : Values} (h : Sound s v) {x : ℕ} {a : String}
    (ha : s.objects x = some a) : ∃ b, s.heap.buffer a.buf = some b ∧
      destruct s.heap a = .ok { s.heap with
        buffer := Function.update s.heap.buffer a.buf none, frees := a.buf :: s.heap.frees } := by
  cases hv : v x with
  | none => exact absurd (h.gone x hv) (by simp [ha])
  | some t =>
    obtain ⟨str, b, hstr, _, hb, _⟩ := h.object x t hv
    obtain rfl := Option.some.inj (ha.symm.trans hstr)
    exact ⟨b, hb, (if_pos (h.buf_ne ha).1).trans (Heap.free_of_some hb)⟩

theorem Sound.destroy {s : State} {v : Values} (h : Sound s v) {x : ℕ} (hx : v x ≠ none) :
    ∃ s', s.exec (.destroy x) = .ok s' ∧ Sound s' (Function.update v x none) := by
  obtain ⟨t, ht⟩ := Option.ne_none_iff_exists'.mp hx
  obtain ⟨a, _, ha, _⟩ := h.object x t ht
  have hobj : s.object x = .ok a := by rw [State.object, ha]
  obtain ⟨b, hb, hfree⟩ := h.destruct ha
  refine ⟨_, by rw [State.exec, hobj, ok_bind, hfree, ok_bind], ?_⟩
  exact {
    heap := h.heap.free hb
    object := by
      intro y t hy
      rcases update_eq_some hy with ⟨_, hnone⟩ | ⟨hyx, hy⟩
      · exact absurd hnone (by simp)
      · obtain ⟨c, d, hc, hsize, hd, hh⟩ := h.object y t hy
        have hne : c.buf ≠ a.buf := fun heq => hyx (h.own y x c a hc ha heq)
        exact ⟨c, d, (Function.update_of_ne hyx ..).trans hc, hsize,
          (Function.update_of_ne hne ..).trans hd, hh⟩
    gone := by
      intro y hy
      by_cases hyx : y = x
      · rw [hyx]
        exact Function.update_self ..
      · rw [Function.update_of_ne hyx] at hy
        exact (Function.update_of_ne hyx ..).trans (h.gone y hy)
    own := by
      intro y z c d hc hd hcd
      rcases update_eq_some hc with ⟨_, hnone⟩ | ⟨_, hc⟩
      · exact absurd hnone (by simp)
      rcases update_eq_some hd with ⟨_, hnone⟩ | ⟨_, hd⟩
      · exact absurd hnone (by simp)
      exact h.own y z c d hc hd hcd
    owned := by
      intro p c hc
      rcases update_eq_some hc with ⟨_, hnone⟩ | ⟨hp, hc⟩
      · exact absurd hnone (by simp)
      · obtain ⟨y, d, hd, hbuf⟩ := h.owned p c hc
        have hyx : y ≠ x := by
          rintro rfl
          obtain rfl := Option.some.inj (ha.symm.trans hd)
          exact hp hbuf.symm
        exact ⟨y, d, (Function.update_of_ne hyx ..).trans hd, hbuf⟩ }

/-- A safe command keeps the objects in step with their values. -/
theorem Sound.exec {s : State} {v w : Values} (h : Sound s v) {c : Command} (hc : c.Safe)
    (hw : v.exec c = some w) : ∃ s', s.exec c = .ok s' ∧ Sound s' w := by
  cases c with
  | construct x str =>
    obtain ⟨hx, hw⟩ := Option.ite_none_right_eq_some.mp hw
    obtain rfl := Option.some.inj hw
    exact h.construct hx hc
  | copy x y => exact absurd hc id
  | assign x y =>
    obtain rfl : x = y := hc
    obtain ⟨hx, hw⟩ := Option.ite_none_left_eq_some.mp hw
    obtain ⟨t, ht, rfl⟩ := Option.map_eq_some_iff.mp hw
    obtain ⟨a, b, ha, _⟩ := h.object x t ht
    have hobj : s.object x = .ok a := by rw [State.object, ha]
    have hsame : Function.update v x (some t) = v := by rw [← ht, Function.update_eq_self]
    refine ⟨s, ?_, by rwa [hsame]⟩
    rw [State.exec, hobj, ok_bind, ok_bind]
    exact if_neg (not_not.mpr rfl)
  | destroy x =>
    obtain ⟨hx, hw⟩ := Option.ite_none_left_eq_some.mp hw
    obtain rfl := Option.some.inj hw
    exact h.destroy hx

/-- An unsafe command faults. -/
theorem Sound.exec_fails {s : State} {v w : Values} (h : Sound s v) {c : Command} (hc : ¬ c.Safe)
    (hw : v.exec c = some w) : ∃ e, s.exec c = .error e := by
  cases c with
  | construct x str =>
    obtain ⟨e, he⟩ := constructSized_long s.heap (toInt str.chars.length) hc
    exact ⟨e, by rw [State.exec, CopyConstructor.construct, he, error_bind]⟩
  | copy x y =>
    obtain ⟨_, hw⟩ := Option.ite_none_right_eq_some.mp hw
    obtain ⟨t, ht, _⟩ := Option.map_eq_some_iff.mp hw
    obtain ⟨str, b, hstr, hsize, hb, hh⟩ := h.object y t ht
    have hcopy := copyConstruct_eq hsize (h.buf_ne hstr).2 hb hh
    exact ⟨_, by rw [State.exec, State.object, hstr, ok_bind, hcopy, error_bind]⟩
  | assign x y =>
    obtain ⟨hx, hw⟩ := Option.ite_none_left_eq_some.mp hw
    obtain ⟨u, hu⟩ := Option.ne_none_iff_exists'.mp hx
    obtain ⟨t, ht, _⟩ := Option.map_eq_some_iff.mp hw
    obtain ⟨a, _, ha, _⟩ := h.object x u hu
    obtain ⟨str, b, hstr, hsize, hb, hh⟩ := h.object y t ht
    obtain ⟨_, _, hfree⟩ := h.destruct ha
    have hne : str.buf ≠ a.buf := fun heq => hc (h.own y x str a hstr ha heq).symm
    have hcopy : copyConstruct { s.heap with
        buffer := Function.update s.heap.buffer a.buf none, frees := a.buf :: s.heap.frees } str =
        .error .outOfBounds :=
      copyConstruct_eq hsize (h.buf_ne hstr).2 ((Function.update_of_ne hne ..).trans hb) hh
    have hthis : s.object x = .ok a := by rw [State.object, ha]
    have hobj : s.object y = .ok str := by rw [State.object, hstr]
    refine ⟨.outOfBounds, ?_⟩
    rw [State.exec, hthis, ok_bind, hobj, ok_bind]
    rw [if_pos (show x ≠ y from hc), hfree, ok_bind, hcopy, error_bind]
  | destroy x => exact absurd trivial hc

theorem run_concat (pre : List Command) (c : Command) :
    run (pre ++ [c]) = run pre >>= fun s => s.exec c := by
  rw [run, List.foldlM_append]
  refine congrArg _ (funext fun s => ?_)
  exact bind_pure (s.exec c)

theorem values_concat (pre : List Command) (c : Command) :
    values (pre ++ [c]) = (values pre).bind fun v => v.exec c := by
  rw [values, List.foldlM_append]
  refine congrArg _ (funext fun v => ?_)
  exact bind_pure (v.exec c)

/-- A program of safe commands runs through sound states. -/
theorem run_sound {prog : List Command} : ∀ {v : Values}, values prog = some v →
    (∀ c ∈ prog, c.Safe) → ∃ s, run prog = .ok s ∧ Sound s v := by
  induction prog using List.reverseRecOn with
  | nil =>
    intro v hv _
    obtain rfl := Option.some.inj hv
    exact ⟨_, rfl, sound_initial⟩
  | append_singleton pre c ih =>
    intro w hw hsafe
    rw [values_concat] at hw
    obtain ⟨v, hv, hw⟩ := Option.bind_eq_some_iff.mp hw
    obtain ⟨s, hs, hsound⟩ := ih hv fun d hd => hsafe d (List.mem_append_left _ hd)
    obtain ⟨s', hs', hsound'⟩ := hsound.exec (hsafe c (by simp)) hw
    exact ⟨s', by rw [run_concat, hs, ok_bind, hs'], hsound'⟩

theorem values_of_append {pre post : List Command} {w : Values}
    (h : values (pre ++ post) = some w) : ∃ v, values pre = some v := by
  rw [values, List.foldlM_append] at h
  obtain ⟨v, hv, _⟩ := Option.bind_eq_some_iff.mp h
  exact ⟨v, hv⟩

/-- **When a program of strings is sound.**  The objects own buffers that hold their values, and
every buffer is freed once, exactly when the program makes no copy and its texts fit an `int`. -/
theorem string_sound_iff {prog : List Command} {v : Values} (h : values prog = some v) :
    Meets prog ↔ ∀ c ∈ prog, c.Safe := by
  constructor
  · intro hmeets c hc
    by_contra hunsafe
    obtain ⟨pre, post, rfl⟩ := List.append_of_mem hc
    obtain ⟨s, w, hrun, hvalues, hsound⟩ := hmeets pre (List.prefix_append _ _)
    have hpre : pre ++ [c] <+: pre ++ c :: post := ⟨post, by simp⟩
    obtain ⟨s', w', hrun', hvalues', _⟩ := hmeets (pre ++ [c]) hpre
    rw [values_concat, hvalues] at hvalues'
    obtain ⟨e, he⟩ := hsound.exec_fails hunsafe hvalues'
    rw [run_concat, hrun, ok_bind, he] at hrun'
    exact absurd hrun' (by simp)
  · rintro hsafe pre ⟨post, rfl⟩
    obtain ⟨w, hw⟩ := values_of_append h
    obtain ⟨s, hs, hsound⟩ := run_sound hw fun c hc => hsafe c (List.mem_append_left _ hc)
    exact ⟨s, w, hs, hw, hsound⟩

def hello : Text := ⟨"hello".toList, by decide⟩

theorem string_sound_iff_selfAssign :
    Meets [.construct 0 hello, .construct 1 hello, .assign 0 0, .destroy 0] := by
  refine (string_sound_iff rfl).mpr ?_
  simp [Command.Safe, hello, INT_MAX]

/-- The first two lines of `main`. -/
theorem copied_faults : (∃ v, values [.construct 0 hello, .copy 1 0] = some v) ∧
    ¬ Meets [.construct 0 hello, .copy 1 0] := by
  refine ⟨⟨_, rfl⟩, fun hmeets => ?_⟩
  obtain ⟨s, _, hrun, _⟩ := hmeets _ (List.prefix_refl _)
  have hfault : (run [.construct 0 hello, .copy 1 0]).toOption.isNone = true := by
    decide +kernel
  rw [hrun] at hfault
  exact absurd hfault (by simp [Except.toOption])

end CppProgramming.Memory.CopyConstructor
