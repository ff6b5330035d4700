import CppProgramming.Socket.RingBuffer

/-!
# The segments of `RingBuffer`

What `get_exist_iovec` and `get_blank_iovec` of `tcp_echo1/common/ring_buffer.h` hand to
the kernel, for all counters: `f` and `p` may have any values, wrapped or not, that are at
most `max_pkt_size - 1` apart.

The two lists together are the window of `max - 1` positions from `f` on, so that they have
none in common and leave out the one in front of `f` (`exist_append_blank`).
-/

namespace CppProgramming.Socket.RingBuffer

open CppProgramming.Lib

variable {max : ℕ}

/-- `iov` is one or two segments inside the array, and lists the positions of the `n`
counters from `start` on. -/
structure Lists (max : ℕ) (iov : List IoVec) (start : BitVec 64) (n : ℕ) : Prop where
  count : iov.length = 1 ∨ iov.length = 2
  inside : ∀ v ∈ iov, v.base + v.len ≤ max
  positions : positions iov = (List.range n).map fun i => (start + BitVec.ofNat 64 i).toNat % max

/-- The positions of counters are those of the ring. -/
theorem PktSize.counters (hmax : PktSize max) (start : BitVec 64) (n : ℕ) :
    ((List.range n).map fun i => (start + BitVec.ofNat 64 i).toNat % max) =
      ringIdx max start.toNat n :=
  List.map_congr_left fun i _ => hmax.add_mod start i

theorem inside_getExistIovec (hmax : PktSize max) (b : RingBuffer) {v : IoVec}
    (hv : v ∈ b.getExistIovec max) : v.base + v.len ≤ max := by
  have h2 := hmax.two_le
  have hmf : b.f.toNat % max < max := Nat.mod_lt _ (by omega)
  have hmp : b.p.toNat % max < max := Nat.mod_lt _ (by omega)
  simp only [getExistIovec] at hv
  generalize b.f.toNat % max = mf at hmf hv
  generalize b.p.toNat % max = mp at hmp hv
  split_ifs at hv
  · rw [List.mem_singleton.mp hv]
    show mf + (mp - mf) ≤ max
    omega
  · rw [List.mem_singleton.mp hv]
    show mf + (max - mf) ≤ max
    omega
  · rcases List.mem_pair.mp hv with rfl | rfl
    · show mf + (max - mf) ≤ max
      omega
    · show 0 + mp ≤ max
      omega

theorem inside_getBlankIovec (hmax : PktSize max) (b : RingBuffer) {v : IoVec}
    (hv : v ∈ b.getBlankIovec max) : v.base + v.len ≤ max := by
  have h2 := hmax.two_le
  have hmf : b.f.toNat % max < max := Nat.mod_lt _ (by omega)
  have hmp : b.p.toNat % max < max := Nat.mod_lt _ (by omega)
  simp only [getBlankIovec] at hv
  generalize b.f.toNat % max = mf at hmf hv
  generalize b.p.toNat % max = mp at hmp hv
  split_ifs at hv
  · rw [List.mem_singleton.mp hv]
    show mp + (mf - mp - 1) ≤ max
    omega
  · rw [List.mem_singleton.mp hv]
    show mp + (max - mp - 1) ≤ max
    omega
  · rw [List.mem_singleton.mp hv]
    show mp + (max - mp) ≤ max
    omega
  · rcases List.mem_pair.mp hv with rfl | rfl
    · show mp + (max - mp) ≤ max
      omega
    · show 0 + (mf - 1) ≤ max
      omega

theorem lists_getExistIovec (hmax : PktSize max) {b : RingBuffer} (h : b.Ok max) :
    Lists max (b.getExistIovec max) b.f b.used where
  count := by
    simp only [getExistIovec]
    split_ifs <;> simp
  inside _ hv := inside_getExistIovec hmax b hv
  positions := by rw [positions_getExistIovec hmax h, hmax.counters]

theorem lists_getBlankIovec (hmax : PktSize max) {b : RingBuffer} (h : b.Ok max) :
    Lists max (b.getBlankIovec max) b.p (max - 1 - b.used) where
  count := by
    simp only [getBlankIovec]
    split_ifs <;> simp
  inside _ hv := inside_getBlankIovec hmax b hv
  positions := by
    rw [positions_getBlankIovec hmax h, hmax.counters]
    exact ringIdx_congr (hmax.p_mod b).symm _

/-- **The two lists are one window.** -/
theorem exist_append_blank (hmax : PktSize max) {b : RingBuffer} (h : b.Ok max) :
    positions (b.getExistIovec max) ++ positions (b.getBlankIovec max) =
      ringIdx max b.f.toNat (max - 1) := by
  have hle : b.used ≤ max - 1 := h
  rw [positions_getExistIovec hmax h, positions_getBlankIovec hmax h, ← ringIdx_add]
  exact congrArg _ (by omega)

theorem nodup_positions (hmax : PktSize max) {b : RingBuffer} (h : b.Ok max) :
    (positions (b.getExistIovec max) ++ positions (b.getBlankIovec max)).Nodup := by
  rw [exist_append_blank hmax h]
  exact nodup_ringIdx (by omega)

/-- **One position is left.** -/
theorem existsUnique_unused (hmax : PktSize max) {b : RingBuffer} (h : b.Ok max) :
    ∃! x, x < max ∧ x ∉ positions (b.getExistIovec max) ∧ x ∉ positions (b.getBlankIovec max) := by
  have h2 := hmax.two_le
  simp only [← not_or, ← List.mem_append, exist_append_blank hmax h]
  obtain ⟨n, rfl⟩ : ∃ n, max = n + 1 := ⟨max - 1, by omega⟩
  exact existsUnique_not_mem_ringIdx _ n

theorem getExistSize_eq_zero (hmax : PktSize max) {b : RingBuffer} (h : b.Ok max) {v : IoVec}
    (hv : v ∈ b.getExistIovec max) (hlen : v.len = 0) : b.getExistSize = 0 := by
  rw [getExistSize_eq hmax h]
  by_contra hne
  have hdata : 0 < b.used := by omega
  have hpos := len_pos_of_mem_getExistIovec hmax h hdata hv
  omega

theorem getBlankSize_eq_zero (hmax : PktSize max) {b : RingBuffer} (h : b.Ok max) {v : IoVec}
    (hv : v ∈ b.getBlankIovec max) (hlen : v.len = 0) : b.getBlankSize max = 0 := by
  rw [getBlankSize_eq hmax h]
  by_contra hne
  have hroom : b.used < max - 1 := by omega
  have hpos := len_pos_of_mem_getBlankIovec hmax h hroom hv
  omega

/-- **The segments of a ring of `max_pkt_size = 4096`**, for all counters at most `4095`
apart: they list what is in the ring and the room behind it, are as long as the two sizes say,
and share no position and leave out one; and no segment is empty unless its list is. -/
theorem ring_buffer_segments (b : RingBuffer) (h : b.p - b.f ≤ 4095) :
    Lists 4096 (b.getExistIovec 4096) b.f (b.p - b.f).toNat ∧
    Lists 4096 (b.getBlankIovec 4096) b.p (4095 - (b.p - b.f).toNat) ∧
    (totalLen (b.getExistIovec 4096) : ℤ) = b.getExistSize ∧
    (totalLen (b.getBlankIovec 4096) : ℤ) = b.getBlankSize 4096 ∧
    (positions (b.getExistIovec 4096)).Disjoint (positions (b.getBlankIovec 4096)) ∧
    (∃! x, x < 4096 ∧ x ∉ positions (b.getExistIovec 4096) ∧
      x ∉ positions (b.getBlankIovec 4096)) ∧
    (∀ v ∈ b.getExistIovec 4096, v.len = 0 → b.getExistSize = 0) ∧
    ∀ v ∈ b.getBlankIovec 4096, v.len = 0 → b.getBlankSize 4096 = 0 := by
  have hmax : PktSize 4096 := ⟨by decide, by decide, ⟨2 ^ 52, by decide⟩⟩
  have hok : b.Ok 4096 := h
  refine ⟨lists_getExistIovec hmax hok, lists_getBlankIovec hmax hok, ?_, ?_,
    List.disjoint_of_nodup_append (nodup_positions hmax hok), existsUnique_unused hmax hok,
    fun v => getExistSize_eq_zero hmax hok, fun v => getBlankSize_eq_zero hmax hok⟩
  · rw [totalLen_getExistIovec hmax hok, getExistSize_eq hmax hok]
  · rw [totalLen_getBlankIovec hmax hok, getBlankSize_eq hmax hok]

/-- The counter `p` has wrapped: what is in the ring is in two segments. -/
theorem ring_buffer_segments_wrapped :
    (⟨-10, 90, fun _ => 0⟩ : RingBuffer).getExistIovec 4096 = [⟨4086, 10⟩, ⟨0, 90⟩] ∧
    Lists 4096 ((⟨-10, 90, fun _ => 0⟩ : RingBuffer).getExistIovec 4096) (-10) 100 :=
  ⟨by decide, (ring_buffer_segments ⟨-10, 90, fun _ => 0⟩ (by decide)).1⟩

end CppProgramming.Socket.RingBuffer
