import CppProgramming.Lib.Ring
import Mathlib.Data.Nat.ModEq

/-!
# `RingBuffer`

The byte ring of the socket servers, `tcp_echo1/common/ring_buffer.h` and the
copies of the same class in `tcp_echo/*.cpp`.  The copies differ in
`max_pkt_size` only, which is a parameter `max` here.

`f` and `p` are free-running 64-bit counters; only `p - f` and the two counters
modulo `max` are ever used.  As `max` divides `2 ^ 64`, the position `p % max`
stays `used` places behind `f % max` also when a counter wraps (`p_mod`), and
everything else is about the window of `used` positions that starts at `f`.

* `positions_getExistIovec`, `positions_getBlankIovec`: the segments handed to
  the kernel are that window, and the `max - 1 - used` positions behind it.
* `contents_recv`: bytes scattered over the blank segments and added with
  `add_exist` are appended to the contents.
* `gather_exist`, `contents_addBlank`: bytes taken off the exist segments and
  released with `add_blank` are the front of the contents.
-/

namespace CppProgramming.Socket

open CppProgramming.Lib

/-- `struct iovec` into the array of a ring: an offset and a length. -/
structure IoVec where
  base : ℕ
  len : ℕ
deriving DecidableEq, Repr

/-- The positions a segment list covers, in the order the kernel uses them. -/
def positions (iov : List IoVec) : List ℕ := iov.flatMap fun v => List.range' v.base v.len

/-- The total length of a segment list. -/
def totalLen (iov : List IoVec) : ℕ := (iov.map IoVec.len).sum

theorem length_positions (iov : List IoVec) : (positions iov).length = totalLen iov := by
  induction iov with
  | nil => rfl
  | cons v iov ih =>
    rw [positions, List.flatMap_cons, List.length_append, List.length_range']
    exact congrArg (v.len + ·) ih

/-- The conversion of a `uint64_t` to an `int`. -/
def toInt32 (x : BitVec 64) : ℤ := (x.setWidth 32).toInt

theorem toInt32_of_lt {x : BitVec 64} (h : x.toNat < 2 ^ 31) : toInt32 x = x.toNat := by
  have hw : (x.setWidth 32).toNat = x.toNat := by
    rw [BitVec.toNat_setWidth, Nat.mod_eq_of_lt (by omega)]
  rw [toInt32, BitVec.toInt_eq_toNat_of_lt (by omega), hw]

structure RingBuffer where
  f : BitVec 64
  p : BitVec 64
  buf : ℕ → UInt8

namespace RingBuffer

/-! ### The code -/

/-- The constructor; the array is not initialised. -/
def new (mem : ℕ → UInt8) : RingBuffer := ⟨0, 0, mem⟩

def getBlankSize (max : ℕ) (b : RingBuffer) : ℤ :=
  toInt32 (BitVec.ofNat 64 (max - 1) - (b.p - b.f))

def getExistSize (b : RingBuffer) : ℤ := toInt32 (b.p - b.f)

/-- The `iov` and `iov_len` that `get_blank_iovec` fills in.  Its return value
is always `0`, so a caller's test of it for an error never fires. -/
def getBlankIovec (max : ℕ) (b : RingBuffer) : List IoVec :=
  let mf := b.f.toNat % max
  let mp := b.p.toNat % max
  if mp < mf then [⟨mp, mf - mp - 1⟩]
  else if mf = 0 then [⟨mp, max - mp - 1⟩]
  else if mf = 1 then [⟨mp, max - mp⟩]
  else [⟨mp, max - mp⟩, ⟨0, mf - 1⟩]

def getExistIovec (max : ℕ) (b : RingBuffer) : List IoVec :=
  let mf := b.f.toNat % max
  let mp := b.p.toNat % max
  if mf ≤ mp then [⟨mf, mp - mf⟩]
  else if mp = 0 then [⟨mf, max - mf⟩]
  else [⟨mf, max - mf⟩, ⟨0, mp⟩]

def addBlank (b : RingBuffer) (v : ℤ) : RingBuffer := { b with f := b.f + BitVec.ofInt 64 v }

def addExist (b : RingBuffer) (v : ℤ) : RingBuffer := { b with p := b.p + BitVec.ofInt 64 v }

/-- The kernel copies `data` into the array through the segments `iov`. -/
def scatter (b : RingBuffer) (iov : List IoVec) (data : List UInt8) : RingBuffer :=
  { b with buf := store b.buf (positions iov) data }

/-- The first `n` bytes the kernel reads through the segments `iov`. -/
def gather (b : RingBuffer) (iov : List IoVec) (n : ℕ) : List UInt8 :=
  ((positions iov).take n).map b.buf

/-! ### What the counters mean -/

/-- The number of bytes in the ring. -/
def used (b : RingBuffer) : ℕ := (b.p - b.f).toNat

/-- The bytes in the ring: the positions `f, f + 1, …, p - 1` modulo `max`. -/
def contents (max : ℕ) (b : RingBuffer) : List UInt8 :=
  (ringIdx max b.f.toNat b.used).map b.buf

/-- One position always stays free. -/
def Ok (max : ℕ) (b : RingBuffer) : Prop := b.used ≤ max - 1

/-- What the constant `max_pkt_size` has to satisfy. -/
structure PktSize (max : ℕ) : Prop where
  two_le : 2 ≤ max
  le : max ≤ 2 ^ 31
  dvd : max ∣ 2 ^ 64

@[simp] theorem used_new (mem : ℕ → UInt8) : (new mem).used = 0 := by simp [used, new]

@[simp] theorem contents_new (max : ℕ) (mem : ℕ → UInt8) : (new mem).contents max = [] := by
  rw [contents, used_new, ringIdx_zero, List.map_nil]

@[simp] theorem length_contents (max : ℕ) (b : RingBuffer) :
    (b.contents max).length = b.used := by simp [contents]

@[simp] theorem used_scatter (b : RingBuffer) (iov : List IoVec) (data : List UInt8) :
    (b.scatter iov data).used = b.used := rfl

@[simp] theorem scatter_nil (b : RingBuffer) (iov : List IoVec) : b.scatter iov [] = b := by
  rw [scatter, store_nil_right]

@[simp] theorem gather_zero (b : RingBuffer) (iov : List IoVec) : b.gather iov 0 = [] := rfl

theorem p_eq (b : RingBuffer) : b.p = b.f + BitVec.ofNat 64 b.used := by
  rw [used, BitVec.ofNat_toNat, BitVec.setWidth_eq, BitVec.add_comm, BitVec.sub_add_cancel]

variable {max : ℕ}

/-- Reducing a sum modulo `2 ^ 64` first does not change it modulo `max`. -/
theorem PktSize.add_mod (hmax : PktSize max) (x : BitVec 64) (n : ℕ) :
    (x + BitVec.ofNat 64 n).toNat % max = (x.toNat + n) % max := by
  rw [BitVec.toNat_add, BitVec.toNat_ofNat, Nat.add_mod_mod, Nat.mod_mod_of_dvd _ hmax.dvd]

theorem PktSize.p_mod (hmax : PktSize max) (b : RingBuffer) :
    b.p.toNat % max = (b.f.toNat + b.used) % max := by
  conv_lhs => rw [b.p_eq]
  exact hmax.add_mod _ _

theorem getExistSize_eq (hmax : PktSize max) {b : RingBuffer} (h : b.Ok max) :
    b.getExistSize = b.used := by
  have := hmax.le
  have := hmax.two_le
  unfold Ok used at h
  exact toInt32_of_lt (by omega)

theorem getBlankSize_eq (hmax : PktSize max) {b : RingBuffer} (h : b.Ok max) :
    b.getBlankSize max = (max - 1 - b.used : ℕ) := by
  have hle := hmax.le
  have h2 := hmax.two_le
  have hu : b.used < 2 ^ 64 := (b.p - b.f).isLt
  unfold Ok at h
  have hsub : (BitVec.ofNat 64 (max - 1) - (b.p - b.f)).toNat = max - 1 - b.used := by
    rw [BitVec.toNat_sub, BitVec.toNat_ofNat]
    change (2 ^ 64 - b.used + (max - 1) % 2 ^ 64) % 2 ^ 64 = max - 1 - b.used
    omega
  rw [getBlankSize, toInt32_of_lt (by omega), hsub]

/-! ### The segments -/

/-- Where `p % max` lies: `used` places behind `f % max`, once around at most. -/
theorem p_mod_cases (hmax : PktSize max) {b : RingBuffer} (h : b.Ok max) :
    b.f.toNat % max < max ∧
      ((b.f.toNat % max + b.used < max ∧
          b.p.toNat % max = b.f.toNat % max + b.used) ∨
        (max ≤ b.f.toNat % max + b.used ∧
          b.p.toNat % max = b.f.toNat % max + b.used - max)) := by
  have h2 := hmax.two_le
  unfold Ok at h
  have hmf : b.f.toNat % max < max := Nat.mod_lt _ (by omega)
  have hp : b.p.toNat % max = (b.f.toNat % max + b.used) % max := by
    rw [hmax.p_mod, Nat.mod_add_mod]
  refine ⟨hmf, ?_⟩
  rcases Nat.lt_or_ge (b.f.toNat % max + b.used) max with hlt | hge
  · exact Or.inl ⟨hlt, by rw [hp, Nat.mod_eq_of_lt hlt]⟩
  · exact Or.inr ⟨hge, by rw [hp, Nat.mod_eq_sub_mod hge, Nat.mod_eq_of_lt (by omega)]⟩

/-- **The exist segments are the window of bytes in the ring.** -/
theorem positions_getExistIovec (hmax : PktSize max) {b : RingBuffer} (h : b.Ok max) :
    positions (b.getExistIovec max) = ringIdx max b.f.toNat b.used := by
  have h2 := hmax.two_le
  obtain ⟨hmf, hp⟩ := p_mod_cases hmax h
  unfold Ok at h
  rw [← ringIdx_congr (Nat.mod_mod b.f.toNat max)]
  unfold getExistIovec
  generalize b.f.toNat % max = mf at hmf hp ⊢
  generalize b.p.toNat % max = mp at hp ⊢
  rcases hp with ⟨hlt, rfl⟩ | ⟨hge, rfl⟩
  · rw [ringIdx_eq_range' hlt.le, if_pos (by omega)]
    simp [positions]
  · rw [ringIdx_wrap hmf.le (by omega) (by omega), if_neg (by omega)]
    split
    · rename_i hz
      simp [positions, show b.used - (max - mf) = 0 by omega]
    · simp [positions, show b.used - (max - mf) = mf + b.used - max by omega]

/-- **The blank segments are the positions behind that window**, up to the one
that stays free. -/
theorem positions_getBlankIovec (hmax : PktSize max) {b : RingBuffer} (h : b.Ok max) :
    positions (b.getBlankIovec max) =
      ringIdx max (b.f.toNat + b.used) (max - 1 - b.used) := by
  have h2 := hmax.two_le
  obtain ⟨hmf, hp⟩ := p_mod_cases hmax h
  unfold Ok at h
  rw [← ringIdx_congr (s := b.p.toNat % max) (by rw [Nat.mod_mod, hmax.p_mod])]
  unfold getBlankIovec
  generalize b.f.toNat % max = mf at hmf hp ⊢
  generalize b.p.toNat % max = mp at hp ⊢
  rcases hp with ⟨hlt, rfl⟩ | ⟨hge, rfl⟩
  · rw [if_neg (by omega)]
    split
    · rename_i hz
      subst hz
      rw [ringIdx_eq_range' (by omega)]
      simp [positions, show max - b.used - 1 = max - 1 - b.used by omega]
    · split
      · rename_i hz
        subst hz
        rw [ringIdx_eq_range' (by omega)]
        simp [positions, show max - (1 + b.used) = max - 1 - b.used by omega]
      · rw [ringIdx_wrap hlt.le (by omega) (by omega)]
        simp [positions, show max - 1 - b.used - (max - (mf + b.used)) = mf - 1 by omega]
  · rw [if_pos (by omega), ringIdx_eq_range' (by omega)]
    simp [positions, show mf - (mf + b.used - max) - 1 = max - 1 - b.used by omega]

theorem totalLen_getExistIovec (hmax : PktSize max) {b : RingBuffer} (h : b.Ok max) :
    totalLen (b.getExistIovec max) = b.used := by
  rw [← length_positions, positions_getExistIovec hmax h, length_ringIdx]

theorem totalLen_getBlankIovec (hmax : PktSize max) {b : RingBuffer} (h : b.Ok max) :
    totalLen (b.getBlankIovec max) = max - 1 - b.used := by
  rw [← length_positions, positions_getBlankIovec hmax h, length_ringIdx]

theorem getExistIovec_ne_nil (max : ℕ) (b : RingBuffer) : b.getExistIovec max ≠ [] := by
  simp only [getExistIovec]
  split_ifs <;> simp

theorem getBlankIovec_ne_nil (max : ℕ) (b : RingBuffer) : b.getBlankIovec max ≠ [] := by
  simp only [getBlankIovec]
  split_ifs <;> simp

/-- **No segment is empty** while there is data. -/
theorem len_pos_of_mem_getExistIovec (hmax : PktSize max) {b : RingBuffer} (h : b.Ok max)
    (hdata : 0 < b.used) {v : IoVec} (hv : v ∈ b.getExistIovec max) : 0 < v.len := by
  obtain ⟨hmf, hp⟩ := p_mod_cases hmax h
  have hle : b.used ≤ max - 1 := h
  simp only [getExistIovec] at hv
  generalize b.f.toNat % max = mf at hmf hp hv
  generalize b.p.toNat % max = mp at hp hv
  split_ifs at hv
  · rw [List.mem_singleton.mp hv]
    show 0 < mp - mf
    omega
  · rw [List.mem_singleton.mp hv]
    exact Nat.sub_pos_of_lt hmf
  · rcases List.mem_pair.mp hv with rfl | rfl
    · exact Nat.sub_pos_of_lt hmf
    · show 0 < mp
      omega

/-- **No blank segment is empty** while there is room. -/
theorem len_pos_of_mem_getBlankIovec (hmax : PktSize max) {b : RingBuffer} (h : b.Ok max)
    (hroom : b.used < max - 1) {v : IoVec} (hv : v ∈ b.getBlankIovec max) : 0 < v.len := by
  obtain ⟨hmf, hp⟩ := p_mod_cases hmax h
  simp only [getBlankIovec] at hv
  generalize b.f.toNat % max = mf at hmf hp hv
  generalize b.p.toNat % max = mp at hp hv
  split_ifs at hv
  · rw [List.mem_singleton.mp hv]
    show 0 < mf - mp - 1
    omega
  · rw [List.mem_singleton.mp hv]
    show 0 < max - mp - 1
    omega
  · rw [List.mem_singleton.mp hv]
    show 0 < max - mp
    omega
  · rcases List.mem_pair.mp hv with rfl | rfl
    · show 0 < max - mp
      omega
    · show 0 < mf - 1
      omega

/-! ### Moving the counters -/

theorem used_addExist {b : RingBuffer} {n : ℕ} (h : b.used + n < 2 ^ 64) :
    (b.addExist n).used = b.used + n := by
  have he : (b.addExist n).p - (b.addExist n).f = (b.p - b.f) + BitVec.ofNat 64 n := by
    simp only [addExist, BitVec.ofInt_natCast]
    rw [BitVec.sub_eq_add_neg, BitVec.sub_eq_add_neg, BitVec.add_assoc, BitVec.add_assoc,
      BitVec.add_comm (BitVec.ofNat 64 n)]
  rw [used, he, BitVec.toNat_add, BitVec.toNat_ofNat, Nat.add_mod_mod]
  exact Nat.mod_eq_of_lt h

theorem used_addBlank {b : RingBuffer} {n : ℕ} (h : n ≤ b.used) :
    (b.addBlank n).used = b.used - n := by
  have hu : b.used < 2 ^ 64 := (b.p - b.f).isLt
  have he : (b.addBlank n).p - (b.addBlank n).f = (b.p - b.f) - BitVec.ofNat 64 n := by
    simp only [addBlank, BitVec.ofInt_natCast]
    rw [BitVec.sub_sub]
  rw [used, he, BitVec.toNat_sub, BitVec.toNat_ofNat]
  change (2 ^ 64 - n % 2 ^ 64 + b.used) % 2 ^ 64 = b.used - n
  omega

/-- Bytes written to the positions behind the window, through any segments that
cover them, and added with `add_exist` are appended. -/
theorem contents_store (hmax : PktSize max) {b : RingBuffer} {iov : List IoVec} {m : ℕ}
    (hpos : positions iov = ringIdx max (b.f.toNat + b.used) m) (hm : b.used + m ≤ max - 1)
    (data : List UInt8) (hn : data.length ≤ m) :
    ((b.scatter iov data).addExist data.length).contents max = b.contents max ++ data := by
  have h2 := hmax.two_le
  have hle := hmax.le
  rw [contents, used_addExist (by rw [used_scatter]; omega), used_scatter]
  change (ringIdx max b.f.toNat _).map (store b.buf (positions iov) data) = _
  rw [hpos]
  exact map_store_append b.buf data hn (by omega)

/-- **Receiving appends.**  Bytes that the kernel put into the blank segments
are behind the bytes already there, none of which is overwritten. -/
theorem contents_recv (hmax : PktSize max) {b : RingBuffer} (h : b.Ok max) (data : List UInt8)
    (hn : data.length ≤ max - 1 - b.used) :
    ((b.scatter (b.getBlankIovec max) data).addExist data.length).contents max =
      b.contents max ++ data := by
  have hle : b.used ≤ max - 1 := h
  exact contents_store hmax (positions_getBlankIovec hmax h) (by omega) data hn

/-- What the kernel takes off the exist segments is the front of the contents. -/
theorem gather_exist (hmax : PktSize max) {b : RingBuffer} (h : b.Ok max) (n : ℕ) :
    b.gather (b.getExistIovec max) n = (b.contents max).take n := by
  rw [gather, positions_getExistIovec hmax h, List.map_take, contents]

/-- **Releasing drops the front.** -/
theorem contents_addBlank (hmax : PktSize max) {b : RingBuffer} {n : ℕ} (hn : n ≤ b.used) :
    (b.addBlank n).contents max = (b.contents max).drop n := by
  have hf : (b.addBlank n).f.toNat % max = (b.f.toNat + n) % max := by
    rw [addBlank, BitVec.ofInt_natCast]
    exact hmax.add_mod _ _
  rw [contents, contents, used_addBlank hn, ringIdx_congr hf, ← List.map_drop,
    ringIdx_drop _ _ hn]
  rfl

/-- A loop that takes eight bytes at a time comes to an end, whatever the counters are. -/
theorem getExistSize_addBlank_eight {b : RingBuffer} (h : 8 ≤ b.getExistSize) :
    (b.addBlank 8).getExistSize.toNat < b.getExistSize.toNat := by
  have hsub : (b.addBlank 8).p - (b.addBlank 8).f = (b.p - b.f) - 8 := by
    simp only [addBlank]
    rw [BitVec.sub_sub]
    rfl
  unfold getExistSize toInt32 at h ⊢
  rw [hsub]
  generalize b.p - b.f = x at h ⊢
  have hx : (x - 8).toNat = (2 ^ 64 - 8 + x.toNat) % 2 ^ 64 := BitVec.toNat_sub x 8
  simp only [BitVec.toInt_eq_toNat_cond, BitVec.toNat_setWidth, hx] at h ⊢
  omega

theorem ok_addExist (hmax : PktSize max) {b : RingBuffer} {n : ℕ}
    (h : b.used + n ≤ max - 1) : (b.addExist n).Ok max := by
  have := hmax.le
  rw [Ok, used_addExist (by omega)]
  exact h

theorem ok_addBlank {b : RingBuffer} {n : ℕ} (h : b.Ok max) (hn : n ≤ b.used) :
    (b.addBlank n).Ok max := by
  rw [Ok, used_addBlank hn]
  exact (Nat.sub_le _ _).trans h

end RingBuffer

end CppProgramming.Socket
