import CppProgramming.Lib.Except
import Mathlib.Data.List.Basic
import Mathlib.Logic.Function.Basic
import Mathlib.Tactic.Common

/-!
# C strings in buffers

A heap hands out buffers of a given capacity and takes them back; `frees` lists the buffers that
were taken back.  A write or a read outside of a buffer, a read of what was never written and a
second `free` are faults.

A C string is a `Text`: characters without a NUL.  `strcpy` writes one with its NUL behind it.
It fits exactly when the buffer has one place more than the text (`strcpy_of_lt`,
`strcpy_of_le`), and what it has written is read back (`Holds.readText`).
-/

namespace CppProgramming.Lib

/-- The characters of a C string. -/
structure Text where
  chars : List Char
  nul : '\x00' ∉ chars
deriving DecidableEq

inductive HeapFault
  | outOfBounds
  | unset
  | notAllocated
  | badArrayLength
  | intOverflow
deriving DecidableEq

/-- What was not written yet is `none`. -/
structure Buffer where
  cap : ℕ
  mem : ℕ → Option Char

/-- The address `0` is the null pointer. -/
structure Heap where
  buffer : ℕ → Option Buffer
  next : ℕ
  frees : List ℕ

namespace Heap

def empty : Heap := ⟨fun _ => none, 1, []⟩

def alloc (h : Heap) (cap : ℕ) : ℕ × Heap :=
  (h.next, { h with
    buffer := Function.update h.buffer h.next (some ⟨cap, fun _ => none⟩)
    next := h.next + 1 })

def free (h : Heap) (p : ℕ) : Except HeapFault Heap :=
  match h.buffer p with
  | none => .error .notAllocated
  | some _ => .ok { h with buffer := Function.update h.buffer p none, frees := p :: h.frees }

def set (h : Heap) (p : ℕ) (b : Buffer) : Heap :=
  { h with buffer := Function.update h.buffer p (some b) }

/-- `p[i] = c` -/
def write (h : Heap) (p i : ℕ) (c : Char) : Except HeapFault Heap :=
  match h.buffer p with
  | none => .error .notAllocated
  | some b =>
    if i < b.cap then .ok (h.set p { b with mem := Function.update b.mem i (some c) })
    else .error .outOfBounds

/-- `p[i]` -/
def read (h : Heap) (p i : ℕ) : Except HeapFault Char :=
  match h.buffer p with
  | none => .error .notAllocated
  | some b =>
    if i < b.cap then
      match b.mem i with
      | none => .error .unset
      | some c => .ok c
    else .error .outOfBounds

/-- Writing from the `i`-th place on. -/
def writeFrom (p : ℕ) : ℕ → List Char → Heap → Except HeapFault Heap
  | _, [], h => .ok h
  | i, c :: cs, h => do
    let h ← h.write p i c
    writeFrom p (i + 1) cs h

/-- `strcpy(p, text)` -/
def strcpy (h : Heap) (p : ℕ) (text : List Char) : Except HeapFault Heap :=
  writeFrom p 0 (text ++ ['\x00']) h

/-- Reading from the `i`-th place up to a NUL, over `n` places. -/
def readFrom (h : Heap) (p : ℕ) : ℕ → ℕ → Except HeapFault (List Char)
  | _, 0 => .error .outOfBounds
  | i, n + 1 => do
    let c ← h.read p i
    if c = '\x00' then .ok []
    else
      let cs ← readFrom h p (i + 1) n
      .ok (c :: cs)

/-- The C string at `p`.  At the end of the buffer the reading fails. -/
def readText (h : Heap) (p : ℕ) : Except HeapFault (List Char) :=
  match h.buffer p with
  | none => .error .notAllocated
  | some b => readFrom h p 0 (b.cap + 1)

/-! ### Buffers after an operation -/

@[simp] theorem alloc_self (h : Heap) (cap : ℕ) :
    (h.alloc cap).2.buffer h.next = some ⟨cap, fun _ => none⟩ :=
  Function.update_self ..

theorem alloc_of_ne (h : Heap) (cap : ℕ) {q : ℕ} (hne : q ≠ h.next) :
    (h.alloc cap).2.buffer q = h.buffer q :=
  Function.update_of_ne hne ..

@[simp] theorem set_self (h : Heap) (p : ℕ) (b : Buffer) : (h.set p b).buffer p = some b :=
  Function.update_self ..

@[simp] theorem set_set (h : Heap) (p : ℕ) (b c : Buffer) : (h.set p b).set p c = h.set p c := by
  simp [set]

theorem set_of_ne (h : Heap) {p q : ℕ} (b : Buffer) (hne : q ≠ p) :
    (h.set p b).buffer q = h.buffer q :=
  Function.update_of_ne hne ..

end Heap

namespace Buffer

/-- The buffer with `cs` written from the `i`-th place on. -/
def fill (b : Buffer) : ℕ → List Char → Buffer
  | _, [] => b
  | i, c :: cs => fill { b with mem := Function.update b.mem i (some c) } (i + 1) cs

@[simp] theorem fill_cap (b : Buffer) (i : ℕ) (cs : List Char) : (b.fill i cs).cap = b.cap := by
  induction cs generalizing b i with
  | nil => rfl
  | cons c cs ih => exact ih _ _

theorem fill_mem_of_lt (b : Buffer) {i j : ℕ} (cs : List Char) (hj : j < i) :
    (b.fill i cs).mem j = b.mem j := by
  induction cs generalizing b i with
  | nil => rfl
  | cons c cs ih =>
    rw [fill, ih _ (by omega)]
    exact Function.update_of_ne (by omega) ..

theorem fill_mem (b : Buffer) (i : ℕ) {j : ℕ} (cs : List Char) (hj : j < cs.length) :
    (b.fill i cs).mem (i + j) = some cs[j] := by
  induction cs generalizing b i j with
  | nil => exact absurd hj (Nat.not_lt_zero j)
  | cons c cs ih =>
    cases j with
    | zero =>
      show (b.fill i (c :: cs)).mem i = some c
      rw [fill, fill_mem_of_lt _ _ (Nat.lt_add_one i)]
      exact Function.update_self ..
    | succ j =>
      rw [fill, show i + (j + 1) = i + 1 + j by omega, ih _ _ (Nat.lt_of_succ_lt_succ hj)]
      rfl

/-- The buffer has the text, the NUL behind it, and room for both. -/
structure Holds (b : Buffer) (text : List Char) : Prop where
  cap : text.length + 1 ≤ b.cap
  mem : ∀ i, ∀ hi : i < text.length, b.mem i = some text[i]
  nul : b.mem text.length = some '\x00'

theorem holds_fill (b : Buffer) {text : List Char} (h : text.length + 1 ≤ b.cap) :
    (b.fill 0 (text ++ ['\x00'])).Holds text where
  cap := by rwa [fill_cap]
  mem i hi := by
    have hmem := b.fill_mem 0 (j := i) (text ++ ['\x00']) (by simp; omega)
    rw [Nat.zero_add] at hmem
    rw [hmem, List.getElem_append_left hi]
  nul := by
    have hmem := b.fill_mem 0 (j := text.length) (text ++ ['\x00']) (by simp)
    rw [Nat.zero_add] at hmem
    rw [hmem, List.getElem_concat_length rfl]

end Buffer

namespace Heap

variable {h : Heap} {p : ℕ} {b : Buffer}

theorem write_of_lt (hb : h.buffer p = some b) {i : ℕ} (c : Char) (hi : i < b.cap) :
    h.write p i c = .ok (h.set p { b with mem := Function.update b.mem i (some c) }) := by
  rw [write, hb]
  exact if_pos hi

theorem write_of_le (hb : h.buffer p = some b) {i : ℕ} (c : Char) (hi : b.cap ≤ i) :
    h.write p i c = .error .outOfBounds := by
  rw [write, hb]
  exact if_neg (Nat.not_lt.mpr hi)

/-- **What fits is written.** -/
theorem writeFrom_of_le (hb : h.buffer p = some b) {i : ℕ} {cs : List Char}
    (hcap : i + cs.length ≤ b.cap) : writeFrom p i cs h = .ok (h.set p (b.fill i cs)) := by
  induction cs generalizing h b i with
  | nil =>
    have hset : h.set p b = h := by rw [set, ← hb, Function.update_eq_self]
    rw [writeFrom, Buffer.fill, hset]
  | cons c cs ih =>
    rw [List.length_cons] at hcap
    rw [writeFrom, write_of_lt hb c (by omega)]
    show writeFrom p (i + 1) cs (h.set p _) = _
    rw [ih (set_self ..) (by show i + 1 + cs.length ≤ b.cap; omega), set_set, Buffer.fill]

/-- **What does not fit runs out of the buffer.** -/
theorem writeFrom_of_lt (hb : h.buffer p = some b) {i : ℕ} {cs : List Char} (hi : i ≤ b.cap)
    (hcap : b.cap < i + cs.length) : writeFrom p i cs h = .error .outOfBounds := by
  induction cs generalizing h b i with
  | nil => exact absurd hcap (by simp; omega)
  | cons c cs ih =>
    rw [List.length_cons] at hcap
    rw [writeFrom]
    by_cases hlt : i < b.cap
    · rw [write_of_lt hb c hlt]
      show writeFrom p (i + 1) cs (h.set p _) = _
      exact ih (set_self ..) hlt (by show b.cap < i + 1 + cs.length; omega)
    · rw [write_of_le hb c (by omega)]
      rfl

theorem strcpy_of_lt (hb : h.buffer p = some b) (text : List Char) (hcap : text.length < b.cap) :
    h.strcpy p text = .ok (h.set p (b.fill 0 (text ++ ['\x00']))) :=
  writeFrom_of_le hb (by simp; omega)

theorem strcpy_of_le (hb : h.buffer p = some b) (text : List Char) (hcap : b.cap ≤ text.length) :
    h.strcpy p text = .error .outOfBounds :=
  writeFrom_of_lt hb (Nat.zero_le _) (by simp; omega)

theorem readFrom_of_holds (hb : h.buffer p = some b) {text : Text} (hh : b.Holds text.chars) :
    ∀ {n i : ℕ}, i + n = b.cap + 1 → i ≤ text.chars.length →
      readFrom h p i n = .ok (text.chars.drop i) := by
  intro n
  have hcap := hh.cap
  induction n with
  | zero => intro i hn hi; omega
  | succ n ih =>
    intro i hn hi
    have hlt : i < b.cap := by omega
    rw [readFrom, read, hb]
    dsimp only
    rw [if_pos hlt]
    rcases Nat.lt_or_eq_of_le hi with hi | rfl
    · have hne : text.chars[i] ≠ '\x00' := fun heq => text.nul (heq ▸ List.getElem_mem hi)
      rw [hh.mem i hi]
      show (if text.chars[i] = '\x00' then _ else _) = _
      rw [if_neg hne, ih (by omega) hi, List.drop_eq_getElem_cons hi]
      rfl
    · rw [hh.nul, List.drop_length]
      rfl

/-- **A text is read back.** -/
theorem readText_of_holds (hb : h.buffer p = some b) {text : Text} (hh : b.Holds text.chars) :
    h.readText p = .ok text.chars := by
  rw [readText, hb]
  exact readFrom_of_holds hb hh (by omega) (Nat.zero_le _)

/-! ### Every buffer is freed at most once -/

/-- A buffer that was handed out is there or was taken back exactly once. -/
structure WellFormed (h : Heap) : Prop where
  next : 0 < h.next
  live : ∀ p b, h.buffer p = some b → 0 < p ∧ p < h.next ∧ p ∉ h.frees
  freed : ∀ p, 0 < p → p < h.next → h.buffer p = none → h.frees.count p = 1
  frees : ∀ p ∈ h.frees, p < h.next

theorem wellFormed_empty : empty.WellFormed where
  next := Nat.one_pos
  live _ _ hb := nomatch hb
  freed p hpos hlt := absurd hlt (Nat.not_lt.mpr hpos)
  frees := by simp [empty]

theorem WellFormed.alloc (hw : h.WellFormed) (cap : ℕ) : (h.alloc cap).2.WellFormed where
  next := Nat.succ_pos _
  live q c hc := by
    by_cases hq : q = h.next
    · rw [hq]
      exact ⟨hw.next, Nat.lt_succ_self _, fun hmem => Nat.lt_irrefl _ (hw.frees _ hmem)⟩
    · rw [alloc_of_ne h cap hq] at hc
      obtain ⟨hpos, hlt, hnot⟩ := hw.live q c hc
      exact ⟨hpos, Nat.lt_succ_of_lt hlt, hnot⟩
  freed q hpos hlt hnone := by
    have hq : q ≠ h.next := by
      rintro rfl
      simp at hnone
    rw [alloc_of_ne h cap hq] at hnone
    exact hw.freed q hpos (Nat.lt_of_le_of_ne (Nat.le_of_lt_succ hlt) hq) hnone
  frees q hq := Nat.lt_succ_of_lt (hw.frees q hq)

theorem WellFormed.set (hw : h.WellFormed) (hb : h.buffer p = some b) (c : Buffer) :
    (h.set p c).WellFormed where
  next := hw.next
  live q d hd := by
    by_cases hq : q = p
    · rw [hq]
      exact hw.live p b hb
    · rw [set_of_ne h c hq] at hd
      exact hw.live q d hd
  freed q hpos hlt hnone := by
    have hq : q ≠ p := by
      rintro rfl
      simp at hnone
    rw [set_of_ne h c hq] at hnone
    exact hw.freed q hpos hlt hnone
  frees := hw.frees

theorem free_of_some (hb : h.buffer p = some b) :
    h.free p = .ok { h with buffer := Function.update h.buffer p none, frees := p :: h.frees } := by
  rw [free, hb]

theorem WellFormed.free (hw : h.WellFormed) (hb : h.buffer p = some b) :
    WellFormed { h with buffer := Function.update h.buffer p none, frees := p :: h.frees } where
  next := hw.next
  live q d hd := by
    have hq : q ≠ p := by
      rintro rfl
      simp at hd
    dsimp only at hd
    rw [Function.update_of_ne hq] at hd
    obtain ⟨hpos, hlt, hnot⟩ := hw.live q d hd
    exact ⟨hpos, hlt, fun hmem => (List.mem_cons.mp hmem).elim hq hnot⟩
  freed q hpos hlt hnone := by
    by_cases hq : q = p
    · obtain ⟨_, _, hnot⟩ := hw.live p b hb
      rw [hq, List.count_cons_self, List.count_eq_zero.mpr hnot]
    · dsimp only at hnone
      rw [Function.update_of_ne hq] at hnone
      rw [List.count_cons_of_ne (Ne.symm hq)]
      exact hw.freed q hpos hlt hnone
  frees q hq := by
    rcases List.mem_cons.mp hq with rfl | hq
    · exact (hw.live q b hb).2.1
    · exact hw.frees q hq

end Heap

end CppProgramming.Lib
