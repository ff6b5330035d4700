import Mathlib.Algebra.Ring.Nat
import Mathlib.Data.Int.Notation
import Mathlib.Tactic.Common

/-!
# The mappings of `char_device_mmap.c`

The module has two areas of pages, one for a control structure and one for a queue, and maps
either of them into a process.  Which one is meant is told from the file offset: the control
area starts at `CTRL_OFFSET`, the queue at `QUEUE_OFFSET`, one page behind.

`remap_vmalloc_range` is the kernel's and a parameter here.  It counts its offset from the
start of the area, and the handler gives it the offset of the file: a mapping of the queue
starts a page too late (`mmap_queue`).  Every other request is answered as the header says
(`mmap_iff`).
-/

namespace CppProgramming.Device.CharDeviceMmap

/-- The page of x86, the one that `QUEUE_OFFSET` is a multiple of. -/
def PAGE_SIZE : ℕ := 4096

/-- `EXAMPLE_CHAR_DEVICE_QUEUE_SIZE`, `EXAMPLE_CHAR_DEVICE_MMAP_QUEUE_SIZE` -/
def QUEUE_SIZE : ℕ := 64 * 1024 * 1024

/-- `EXAMPLE_CHAR_DEVICE_MMAP_CTRL_SIZE`: the control structure is an `int`. -/
def CTRL_SIZE : ℕ := 4

/-- `EXAMPLE_CHAR_DEVICE_MMAP_CTRL_OFFSET` -/
def CTRL_OFFSET : ℕ := 0x0000

/-- `EXAMPLE_CHAR_DEVICE_MMAP_QUEUE_OFFSET` -/
def QUEUE_OFFSET : ℕ := 0x1000

/-- The pages that hold so many bytes. -/
def pagesFor (size : ℕ) : ℕ := (size + (PAGE_SIZE - 1)) / PAGE_SIZE

inductive Area
  | ctrl
  | queue
deriving DecidableEq

/-- What `vmalloc_user` has given for an area. -/
structure VmArea where
  area : Area
  pages : ℕ

/-- The part of a `struct vm_area_struct` that is read. -/
structure Vma where
  pages : ℕ
  vmPgoff : ℕ

/-- The page of an area that each page of a vma is. -/
abbrev Mapping := ℕ → Area × ℕ

/-- The byte of an area that the byte `j` of the mapping is. -/
def Mapping.byte (m : Mapping) (j : ℕ) : Area × ℕ :=
  ((m (j / PAGE_SIZE)).1, (m (j / PAGE_SIZE)).2 * PAGE_SIZE + j % PAGE_SIZE)

/-- `struct example_mmap_char_dev_meta_t`, with the field of the control structure. -/
structure Meta where
  ctrl : VmArea
  queueSize : ℤ
  queue : Option VmArea

/-- `vmalloc_user`, and whether there is memory. -/
def vmallocUser (ok : Bool) (area : Area) (size : ℕ) : Option VmArea :=
  if ok then some ⟨area, pagesFor size⟩ else none

/-- `example_mmap_char_dev_meta_init`: it goes on without memory, and writes through the null
pointer when that was the control structure's. -/
def metaInit (ctrlOk queueOk : Bool) : Option Meta :=
  match vmallocUser ctrlOk .ctrl CTRL_SIZE with
  | none => none
  | some ctrl => some ⟨ctrl, QUEUE_SIZE, vmallocUser queueOk .queue QUEUE_SIZE⟩

/-- `remap_vmalloc_range` -/
abbrev Remap := Vma → Option VmArea → ℕ → Except ℤ Mapping

/-- What it does: it maps the pages of the area from the given one on, and fails when they run
past the area or when there is none. -/
structure RemapVmallocRange (remap : Remap) : Prop where
  maps : ∀ vma a pgoff, pgoff + vma.pages ≤ a.pages →
    remap vma (some a) pgoff = .ok fun i => (a.area, pgoff + i)
  fails : ∀ vma a pgoff, a.pages < pgoff + vma.pages → ∃ e, remap vma (some a) pgoff = .error e
  null : ∀ vma pgoff, ∃ e, remap vma none pgoff = .error e

/-- `example_dev_mmap` -/
def exampleDevMmap (remap : Remap) (dev : Meta) (vma : Vma) : Except ℤ Mapping :=
  if vma.vmPgoff ≥ QUEUE_OFFSET / PAGE_SIZE then remap vma dev.queue vma.vmPgoff
  else remap vma (some dev.ctrl) vma.vmPgoff

def EINVAL : ℤ := 22

/-- The system call: whole pages at a whole page. -/
def mmap (remap : Remap) (dev : Meta) (length offset : ℕ) : Except ℤ Mapping :=
  if length = 0 ∨ offset % PAGE_SIZE ≠ 0 then .error (-EINVAL)
  else exampleDevMmap remap dev ⟨pagesFor length, offset / PAGE_SIZE⟩

/-- The `int` at a byte of the areas. -/
def Meta.readInt (dev : Meta) : Area × ℕ → Option ℤ
  | (.ctrl, 0) => some dev.queueSize
  | _ => none

/-- `mmap_char_device_test` of the user program, with the `queue_size` that it reads. -/
def mmapCharDeviceTest (remap : Remap) (dev : Meta) : Option ℤ :=
  match mmap remap dev CTRL_SIZE CTRL_OFFSET with
  | .error _ => none
  | .ok ctrl => dev.readInt (ctrl.byte 0)

/-! ### What the header says -/

/-- A request for a part of the queue. -/
structure InQueue (length offset : ℕ) : Prop where
  start : QUEUE_OFFSET ≤ offset
  aligned : PAGE_SIZE ∣ offset - QUEUE_OFFSET
  pos : 0 < length
  stop : offset - QUEUE_OFFSET + length ≤ QUEUE_SIZE

/-- **What the header says** of the answer `r` to a request: the queue is found at
`QUEUE_OFFSET`, the control area at `CTRL_OFFSET`, and nothing is mapped beyond either. -/
structure Meets (r : Except ℤ Mapping) (length offset : ℕ) : Prop where
  queue : InQueue length offset →
    ∃ m, r = .ok m ∧ ∀ j < length, m.byte j = (.queue, offset - QUEUE_OFFSET + j)
  ctrl : offset = CTRL_OFFSET → 0 < length → length ≤ pagesFor CTRL_SIZE * PAGE_SIZE →
    ∃ m, r = .ok m ∧ ∀ j < length, m.byte j = (.ctrl, j)
  beyondQueue : QUEUE_OFFSET ≤ offset → QUEUE_SIZE < offset - QUEUE_OFFSET + length →
    ∃ e, r = .error e
  beyondCtrl : offset < QUEUE_OFFSET → pagesFor CTRL_SIZE * PAGE_SIZE < offset + length →
    ∃ e, r = .error e

/-! ### What the handler does -/

variable {remap : Remap} {dev : Meta} {ctrlOk queueOk : Bool}

theorem ctrl_of_init (h : metaInit ctrlOk queueOk = some dev) : dev.ctrl = ⟨.ctrl, 1⟩ := by
  cases ctrlOk with
  | false => exact nomatch h
  | true =>
    obtain rfl := Option.some.inj h
    rfl

theorem queue_of_init (h : metaInit ctrlOk queueOk = some dev) :
    dev.queue = none ∨ dev.queue = some ⟨.queue, 16384⟩ := by
  cases ctrlOk with
  | false => exact nomatch h
  | true =>
    obtain rfl := Option.some.inj h
    cases queueOk with
    | false => exact Or.inl rfl
    | true => exact Or.inr rfl

/-- The bytes of a mapping of whole pages. -/
theorem byte_mapping (a : Area) (pgoff j : ℕ) :
    Mapping.byte (fun i => (a, pgoff + i)) j = (a, pgoff * PAGE_SIZE + j) := by
  have hj : (pgoff + j / PAGE_SIZE) * PAGE_SIZE + j % PAGE_SIZE = pgoff * PAGE_SIZE + j := by
    rw [Nat.add_mul, Nat.add_assoc, Nat.div_add_mod']
  rw [Mapping.byte, hj]

theorem pages_le_iff (pgoff length n : ℕ) :
    pgoff + pagesFor length ≤ n ↔ pgoff * PAGE_SIZE + length ≤ n * PAGE_SIZE := by
  unfold pagesFor PAGE_SIZE
  omega

/-- What `remap_vmalloc_range` answers, in bytes. -/
theorem RemapVmallocRange.answer (hremap : RemapVmallocRange remap) (a : VmArea)
    (length pgoff : ℕ) :
    (pgoff * PAGE_SIZE + length ≤ a.pages * PAGE_SIZE →
      ∃ m, remap ⟨pagesFor length, pgoff⟩ (some a) pgoff = .ok m ∧
        ∀ j, m.byte j = (a.area, pgoff * PAGE_SIZE + j)) ∧
    (a.pages * PAGE_SIZE < pgoff * PAGE_SIZE + length →
      ∃ e, remap ⟨pagesFor length, pgoff⟩ (some a) pgoff = .error e) := by
  constructor
  · intro hle
    exact ⟨_, hremap.maps _ a pgoff ((pages_le_iff pgoff length a.pages).mpr hle),
      byte_mapping a.area pgoff⟩
  · intro hlt
    refine hremap.fails _ a pgoff ?_
    exact Nat.lt_of_not_le fun hle =>
      Nat.not_lt.mpr ((pages_le_iff pgoff length a.pages).mp hle) hlt

theorem mmap_eq {length offset : ℕ} (hpos : 0 < length) (haligned : offset % PAGE_SIZE = 0) :
    mmap remap dev length offset =
      exampleDevMmap remap dev ⟨pagesFor length, offset / PAGE_SIZE⟩ := by
  refine if_neg ?_
  rintro (hzero | hne)
  · exact Nat.ne_of_gt hpos hzero
  · exact hne haligned

/-- **A mapping of the queue starts where the file offset says**, and not a page before: with
the whole queue in memory it is the bytes from `offset` on, when the queue goes so far. -/
theorem mmap_queue (hremap : RemapVmallocRange remap) (hqueue : dev.queue = some ⟨.queue, 16384⟩)
    {length offset : ℕ} (hstart : QUEUE_OFFSET ≤ offset) (haligned : offset % PAGE_SIZE = 0)
    (hpos : 0 < length) :
    (offset + length ≤ QUEUE_SIZE → ∃ m, mmap remap dev length offset = .ok m ∧
      ∀ j, m.byte j = (.queue, offset + j)) ∧
    (QUEUE_SIZE < offset + length → ∃ e, mmap remap dev length offset = .error e) := by
  have hpgoff : offset / PAGE_SIZE ≥ QUEUE_OFFSET / PAGE_SIZE := Nat.div_le_div_right hstart
  have hoffset : offset / PAGE_SIZE * PAGE_SIZE = offset := Nat.div_mul_cancel
    (Nat.dvd_of_mod_eq_zero haligned)
  have hanswer := hremap.answer ⟨.queue, 16384⟩ length (offset / PAGE_SIZE)
  rw [hoffset] at hanswer
  rw [mmap_eq hpos haligned, exampleDevMmap, if_pos hpgoff, hqueue]
  exact hanswer

/-- A mapping in front of `QUEUE_OFFSET` is one of the control area. -/
theorem mmap_ctrl (hremap : RemapVmallocRange remap) (hctrl : dev.ctrl = ⟨.ctrl, 1⟩)
    {length offset : ℕ} (hstart : offset < QUEUE_OFFSET) (haligned : offset % PAGE_SIZE = 0)
    (hpos : 0 < length) :
    (offset + length ≤ PAGE_SIZE → ∃ m, mmap remap dev length offset = .ok m ∧
      ∀ j, m.byte j = (.ctrl, offset + j)) ∧
    (PAGE_SIZE < offset + length → ∃ e, mmap remap dev length offset = .error e) := by
  have hpgoff : ¬ offset / PAGE_SIZE ≥ QUEUE_OFFSET / PAGE_SIZE := by
    unfold QUEUE_OFFSET at hstart
    unfold QUEUE_OFFSET PAGE_SIZE
    omega
  have hoffset : offset / PAGE_SIZE * PAGE_SIZE = offset := Nat.div_mul_cancel
    (Nat.dvd_of_mod_eq_zero haligned)
  have hanswer := hremap.answer ⟨.ctrl, 1⟩ length (offset / PAGE_SIZE)
  rw [hoffset, Nat.one_mul] at hanswer
  rw [mmap_eq hpos haligned, exampleDevMmap, if_neg hpgoff, hctrl]
  exact hanswer

theorem mmap_refused {length offset : ℕ} (h : ¬ (0 < length ∧ offset % PAGE_SIZE = 0)) :
    ∃ e, mmap remap dev length offset = .error e := by
  refine ⟨-EINVAL, if_pos ?_⟩
  by_contra hboth
  rw [not_or, not_not] at hboth
  exact h ⟨Nat.pos_of_ne_zero hboth.1, hboth.2⟩

/-- Without its memory the queue cannot be mapped. -/
theorem mmap_queue_none (hremap : RemapVmallocRange remap) (hqueue : dev.queue = none)
    {length offset : ℕ} (hstart : QUEUE_OFFSET ≤ offset) (hpos : 0 < length)
    (haligned : offset % PAGE_SIZE = 0) : ∃ e, mmap remap dev length offset = .error e := by
  have hpgoff : offset / PAGE_SIZE ≥ QUEUE_OFFSET / PAGE_SIZE := Nat.div_le_div_right hstart
  rw [mmap_eq hpos haligned, exampleDevMmap, if_pos hpgoff, hqueue]
  exact hremap.null _ _

theorem InQueue.mod_eq_zero {length offset : ℕ} (h : InQueue length offset) :
    offset % PAGE_SIZE = 0 := by
  have hsum : PAGE_SIZE ∣ offset - QUEUE_OFFSET + QUEUE_OFFSET :=
    Nat.dvd_add h.aligned (Nat.dvd_refl QUEUE_OFFSET)
  rw [Nat.sub_add_cancel h.start] at hsum
  exact Nat.mod_eq_zero_of_dvd hsum

/-- **Which mappings are right.**  The answer to a request is what the header says exactly when
the request is not for a part of the queue. -/
theorem mmap_iff (hremap : RemapVmallocRange remap) (hinit : metaInit ctrlOk queueOk = some dev)
    (length offset : ℕ) :
    Meets (mmap remap dev length offset) length offset ↔ ¬ InQueue length offset := by
  have hsize : pagesFor CTRL_SIZE * PAGE_SIZE = PAGE_SIZE := rfl
  constructor
  · intro hmeets hin
    obtain ⟨m, hm, hbyte⟩ := hmeets.queue hin
    have hstart : 4096 ≤ offset := hin.start
    rcases queue_of_init hinit with hqueue | hqueue
    · obtain ⟨e, he⟩ := mmap_queue_none hremap hqueue hin.start hin.pos hin.mod_eq_zero
      exact absurd (hm.symm.trans he) (by simp)
    · obtain ⟨hmaps, hfails⟩ := mmap_queue hremap hqueue hin.start hin.mod_eq_zero hin.pos
      rcases Nat.lt_or_ge QUEUE_SIZE (offset + length) with hlt | hle
      · obtain ⟨e, he⟩ := hfails hlt
        exact absurd (hm.symm.trans he) (by simp)
      · -- the first byte is asked for and given a page apart
        obtain ⟨m', hm', hbyte'⟩ := hmaps hle
        obtain rfl := Except.ok.inj (hm.symm.trans hm')
        have heq := congrArg Prod.snd ((hbyte 0 hin.pos).symm.trans (hbyte' 0))
        have heq : offset - 4096 + 0 = offset + 0 := heq
        omega
  · intro hnot
    refine ⟨fun hin => absurd hin hnot, ?_, ?_, ?_⟩
    · rintro rfl hpos hle
      have hstart : CTRL_OFFSET < QUEUE_OFFSET := by decide
      obtain ⟨m, hm, hbyte⟩ := (mmap_ctrl hremap (ctrl_of_init hinit) hstart rfl hpos).1
        (by rw [CTRL_OFFSET, Nat.zero_add]; exact hle)
      exact ⟨m, hm, fun j _ => by rw [hbyte, CTRL_OFFSET, Nat.zero_add]⟩
    · intro hstart hlt
      by_cases hvalid : 0 < length ∧ offset % PAGE_SIZE = 0
      · obtain ⟨hpos, haligned⟩ := hvalid
        rcases queue_of_init hinit with hqueue | hqueue
        · exact mmap_queue_none hremap hqueue hstart hpos haligned
        · exact (mmap_queue hremap hqueue hstart haligned hpos).2 (by omega)
      · exact mmap_refused hvalid
    · intro hstart hlt
      by_cases hvalid : 0 < length ∧ offset % PAGE_SIZE = 0
      · obtain ⟨hpos, haligned⟩ := hvalid
        exact (mmap_ctrl hremap (ctrl_of_init hinit) hstart haligned hpos).2 hlt
      · exact mmap_refused hvalid

/-- **The user program** reads the size of the queue. -/
theorem mmapCharDeviceTest_eq (hremap : RemapVmallocRange remap)
    (hinit : metaInit ctrlOk queueOk = some dev) :
    mmapCharDeviceTest remap dev = some (QUEUE_SIZE : ℤ) := by
  have hstart : CTRL_OFFSET < QUEUE_OFFSET := by decide
  have hpos : 0 < CTRL_SIZE := by decide
  obtain ⟨ctrl, hctrl, hbyte⟩ :=
    (mmap_ctrl hremap (ctrl_of_init hinit) hstart rfl hpos).1 (by decide)
  have hsize : dev.queueSize = QUEUE_SIZE := by
    cases ctrlOk with
    | false => exact nomatch hinit
    | true =>
      obtain rfl := Option.some.inj hinit
      rfl
  rw [mmapCharDeviceTest, hctrl]
  show dev.readInt (ctrl.byte 0) = _
  rw [hbyte 0, ← hsize]
  rfl

/-- A `remap_vmalloc_range` that does what is said of it. -/
def remapPages : Remap := fun vma area pgoff =>
  match area with
  | none => .error (-EINVAL)
  | some a =>
    if pgoff + vma.pages ≤ a.pages then .ok fun i => (a.area, pgoff + i) else .error (-EINVAL)

theorem remapPages_spec : RemapVmallocRange remapPages where
  maps _ _ _ h := if_pos h
  fails _ _ _ h := ⟨_, if_neg (Nat.not_le.mpr h)⟩
  null _ _ := ⟨_, rfl⟩

/-- The areas after `example_mmap_char_dev_meta_init`. -/
def initialized : Meta := ⟨⟨.ctrl, 1⟩, QUEUE_SIZE, some ⟨.queue, 16384⟩⟩

theorem mmap_iff_ctrl : Meets (mmap remapPages initialized CTRL_SIZE CTRL_OFFSET)
    CTRL_SIZE CTRL_OFFSET := by
  have hinit : metaInit true true = some initialized := by rfl
  refine (mmap_iff remapPages_spec hinit CTRL_SIZE CTRL_OFFSET).mpr fun hin => ?_
  exact absurd hin.start (by decide)

/-- A mapping of the whole queue fails, and one of its first page has the second one. -/
theorem queue_not_mapped : RemapVmallocRange remapPages ∧ metaInit true true = some initialized ∧
    ¬ Meets (mmap remapPages initialized QUEUE_SIZE QUEUE_OFFSET) QUEUE_SIZE QUEUE_OFFSET ∧
    ¬ Meets (mmap remapPages initialized PAGE_SIZE QUEUE_OFFSET) PAGE_SIZE QUEUE_OFFSET := by
  refine ⟨remapPages_spec, rfl, fun hmeets => ?_, fun hmeets => ?_⟩
  · obtain ⟨m, hm, _⟩ := hmeets.queue ⟨by decide, by decide, by decide, by decide⟩
    have hfails : mmap remapPages initialized QUEUE_SIZE QUEUE_OFFSET = .error (-EINVAL) := rfl
    exact absurd (hm.symm.trans hfails) (by simp)
  · obtain ⟨m, hm, hbyte⟩ := hmeets.queue ⟨by decide, by decide, by decide, by decide⟩
    have hmaps : mmap remapPages initialized PAGE_SIZE QUEUE_OFFSET =
        .ok fun i => (.queue, 1 + i) := rfl
    obtain rfl := Except.ok.inj (hm.symm.trans hmaps)
    exact absurd (hbyte 0 (by decide)) (by decide)

end CppProgramming.Device.CharDeviceMmap
