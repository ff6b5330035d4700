import CppProgramming.Lib.CString
import Mathlib.Algebra.Order.Ring.Int
import Mathlib.Data.List.TakeWhile

/-!
# The network segments of `net_str_parse.c`

`net_seg_pton` reads `a.b.c.d/n` into a network and a mask.  It leaves the work to `in4_pton`
and `sscanf`, which are the kernel's and parameters here, and tests both of them for a negative
answer.  Neither ever gives one: both say with `0` that they have found nothing.  So a string
that is no segment is not turned away, and the shifts are done with whatever number there is.

The mask is made of two shifts, by `n` and by `32 - n`.  Both are defined for `1 ≤ n ≤ 31`, and
then the mask is right (`getMsbD_mask`); `netSegPton_iff` says that the segments of these sizes
are the strings that are read as they should.
-/

namespace CppProgramming.Network.NetStrParse

open CppProgramming.Lib

/-! ### Segments -/

/-- The number that digits stand for. -/
def decimalValue (s : List Char) : ℕ := s.foldl (fun n c => 10 * n + (c.toNat - '0'.toNat)) 0

/-- The string is a decimal number. -/
structure Decimal (s : List Char) (n : ℕ) : Prop where
  ne_nil : s ≠ []
  digits : s.all Char.isDigit = true
  value : decimalValue s = n

/-- A `__be32`: four bytes in the order of the network. -/
structure Be32 where
  b₀ : BitVec 8
  b₁ : BitVec 8
  b₂ : BitVec 8
  b₃ : BitVec 8
deriving DecidableEq

def ntohl (x : Be32) : BitVec 32 := x.b₀ ++ x.b₁ ++ x.b₂ ++ x.b₃

/-- `a.b.c.d` -/
def DottedQuad (s : List Char) (addr : Be32) : Prop :=
  ∃ a b c d, s = a ++ '.' :: (b ++ '.' :: (c ++ '.' :: d)) ∧ Decimal a addr.b₀.toNat ∧
    Decimal b addr.b₁.toNat ∧ Decimal c addr.b₂.toNat ∧ Decimal d addr.b₃.toNat

/-- `a.b.c.d/n` -/
def Segment (s : List Char) (addr : Be32) (n : ℕ) : Prop :=
  ∃ quad num, s = quad ++ '/' :: num ∧ DottedQuad quad addr ∧ Decimal num n ∧ n ≤ 32

/-! ### The parsers of the kernel -/

/-- What `in4_pton` returns, and what it stores to `dst` and `end`. -/
structure In4Answer where
  ret : ℤ
  dst : Option Be32
  stop : Option ℕ

/-- `in4_pton` with the delimiter `/`: it answers `1` for a dotted quad that ends there, and
never less than `0`. -/
structure In4Pton (in4Pton : List Char → In4Answer) : Prop where
  quad : ∀ s rest addr, DottedQuad s addr →
    in4Pton (s ++ '/' :: rest) = ⟨1, some addr, some s.length⟩
  nonneg : ∀ s, 0 ≤ (in4Pton s).ret

/-- What `sscanf` returns for a `%d`, and what it stores. -/
structure ScanAnswer where
  ret : ℤ
  val : Option ℤ

/-- `sscanf` of the kernel: it answers how many numbers it has found, and knows no `EOF`. -/
structure Sscanf (sscanf : List Char → ScanAnswer) : Prop where
  number : ∀ s n, Decimal s n → n < 2147483648 → sscanf s = ⟨1, some n⟩
  nonneg : ∀ s, 0 ≤ (sscanf s).ret

/-! ### The function -/

inductive Fault
  | outsideString
  | shiftCount
deriving DecidableEq

/-- What is returned, and what the two outputs hold then. -/
structure Result where
  ret : ℤ
  resPrefixedNet : BitVec 32
  resPrefixMask : BitVec 32
deriving DecidableEq

/-- `x << n` -/
def shl (x : BitVec 32) (n : ℤ) : Except Fault (BitVec 32) :=
  if 0 ≤ n ∧ n < 32 then .ok (x <<< n.toNat) else .error .shiftCount

/-- The string at `end + 1`. -/
def behind (input : Text) : Option ℕ → Except Fault (List Char)
  | none => .error .outsideString
  | some stop =>
    if stop < input.chars.length then .ok (input.chars.drop (stop + 1)) else .error .outsideString

/-- `net_seg_pton`; `unset` is what `res_net_net_seq` holds when nothing was stored. -/
def netSegPton (in4Pton : List Char → In4Answer) (sscanf : List Char → ScanAnswer)
    (unset : Be32) (input : Text) (net mask : BitVec 32) : Except Fault Result := do
  let r := in4Pton input.chars
  if r.ret < 0 then .ok ⟨r.ret, net, mask⟩
  else
    let resNetHostSeq := ntohl (r.dst.getD unset)
    let s ← behind input r.stop
    let r := sscanf s
    if r.ret < 0 then .ok ⟨r.ret, net, mask⟩
    else
      let prefNum := r.val.getD 0
      let ones ← shl 1#32 prefNum
      let mask ← shl (ones - 1#32) (32 - prefNum)
      .ok ⟨0, resNetHostSeq &&& mask, mask⟩

/-- **What is asked of the answer** to a string: a segment gives its mask and its network, and
any other string a negative value and nothing else. -/
structure Meets (input : Text) (net mask : BitVec 32) (r : Except Fault Result) : Prop where
  segment : ∀ addr n, Segment input.chars addr n → ∃ o, r = .ok o ∧ o.ret = 0 ∧
    (∀ i < 32, o.resPrefixMask.getMsbD i = decide (i < n)) ∧
    o.resPrefixedNet = ntohl addr &&& o.resPrefixMask
  other : (¬ ∃ addr n, Segment input.chars addr n) → ∃ o, r = .ok o ∧ o.ret < 0 ∧
    o.resPrefixedNet = net ∧ o.resPrefixMask = mask

/-! ### The mask -/

theorem getLsbD_ones {w n : ℕ} (hn : n < w) (i : ℕ) :
    ((1#w <<< n) - 1#w).getLsbD i = decide (i < n) := by
  have hw : 1 < 2 ^ w := Nat.one_lt_two_pow (by omega)
  have hone : (1#w).toNat = 1 := by rw [BitVec.toNat_ofNat, Nat.mod_eq_of_lt hw]
  have hpow : (1#w <<< n).toNat = 2 ^ n := by
    rw [BitVec.toNat_shiftLeft, hone, Nat.one_shiftLeft,
      Nat.mod_eq_of_lt (Nat.pow_lt_pow_right (by decide) hn)]
  have hle : 1#w ≤ 1#w <<< n := by
    rw [BitVec.le_def, hpow, hone]
    exact Nat.one_le_two_pow
  rw [BitVec.getLsbD, BitVec.toNat_sub_of_le hle, hpow, hone, Nat.testBit_two_pow_sub_one]

/-- **The two shifts leave the `n` leading bits.** -/
theorem getMsbD_mask {w n : ℕ} (hn : n < w) {i : ℕ} (hi : i < w) :
    (((1#w <<< n) - 1#w) <<< (w - n)).getMsbD i = decide (i < n) := by
  rw [BitVec.getMsbD_eq_getLsbD, BitVec.getLsbD_shiftLeft, getLsbD_ones hn]
  by_cases h : i < n
  · simp [h, hi]
    omega
  · simp [h, hi]
    omega

theorem shl_of_lt (x : BitVec 32) {n : ℕ} (hn : n < 32) : shl x n = .ok (x <<< n) :=
  if_pos ⟨Int.natCast_nonneg n, by omega⟩

theorem shl_32 (x : BitVec 32) : shl x 32 = .error .shiftCount := if_neg (by decide)

/-! ### The answers -/

variable {in4Pton : List Char → In4Answer} {sscanf : List Char → ScanAnswer}

/-- For a segment both parsers find what there is, and the shifts are left. -/
theorem netSegPton_segment (hin4 : In4Pton in4Pton) (hscan : Sscanf sscanf) (unset : Be32)
    {input : Text} (net mask : BitVec 32) {addr : Be32} {n : ℕ}
    (h : Segment input.chars addr n) :
    netSegPton in4Pton sscanf unset input net mask = (do
      let ones ← shl 1#32 n
      let mask ← shl (ones - 1#32) (32 - n)
      .ok ⟨0, ntohl addr &&& mask, mask⟩) := by
  obtain ⟨quad, num, hinput, hquad, hnum, hn⟩ := h
  have hanswer : in4Pton input.chars = ⟨1, some addr, some quad.length⟩ := by
    rw [hinput, hin4.quad quad num addr hquad]
  have hlt : quad.length < input.chars.length := by
    rw [hinput, List.length_append, List.length_cons]
    omega
  have hbehind : behind input (some quad.length) = .ok num := by
    have hdrop : (quad ++ '/' :: num).drop (quad.length + 1) = num := by
      rw [List.drop_append, List.drop_of_length_le (by omega)]
      simp
    rw [behind, if_pos hlt, hinput, hdrop]
  have hnumber : sscanf num = ⟨1, some n⟩ := hscan.number num n hnum (by omega)
  rw [netSegPton, hanswer]
  dsimp only
  have hone : ¬ (1 : ℤ) < 0 := by decide
  rw [if_neg hone, hbehind, ok_bind, hnumber]
  exact if_neg hone

/-- The number of bits is right where both shift counts are. -/
theorem netSegPton_of_pos (hin4 : In4Pton in4Pton) (hscan : Sscanf sscanf) (unset : Be32)
    {input : Text} (net mask : BitVec 32) {addr : Be32} {n : ℕ}
    (h : Segment input.chars addr n) (hpos : 1 ≤ n) (hlt : n < 32) :
    netSegPton in4Pton sscanf unset input net mask =
      .ok ⟨0, ntohl addr &&& (((1#32 <<< n) - 1#32) <<< (32 - n)),
        ((1#32 <<< n) - 1#32) <<< (32 - n)⟩ := by
  have hcount : (32 : ℤ) - n = ((32 - n : ℕ) : ℤ) := by omega
  rw [netSegPton_segment hin4 hscan unset net mask h, shl_of_lt 1#32 hlt, ok_bind, hcount,
    shl_of_lt _ (by omega), ok_bind]

/-- **At the edges one of the counts is the width.** -/
theorem netSegPton_of_edge (hin4 : In4Pton in4Pton) (hscan : Sscanf sscanf) (unset : Be32)
    {input : Text} (net mask : BitVec 32) {addr : Be32} {n : ℕ}
    (h : Segment input.chars addr n) (hedge : n = 0 ∨ n = 32) :
    netSegPton in4Pton sscanf unset input net mask = .error .shiftCount := by
  rw [netSegPton_segment hin4 hscan unset net mask h]
  rcases hedge with rfl | rfl
  · rw [shl_of_lt 1#32 (by decide), ok_bind]
    show (shl _ 32 >>= _) = _
    rw [shl_32, error_bind]
  · show (shl 1#32 32 >>= _) = _
    rw [shl_32, error_bind]

/-- Neither parser answers less than `0`, so that no string is turned away. -/
theorem nonneg_of_ok (hin4 : In4Pton in4Pton) (hscan : Sscanf sscanf) {unset : Be32}
    {input : Text} {net mask : BitVec 32} {o : Result}
    (h : netSegPton in4Pton sscanf unset input net mask = .ok o) : 0 ≤ o.ret := by
  rw [netSegPton, if_neg (Int.not_lt.mpr (hin4.nonneg input.chars))] at h
  obtain ⟨s, _, h⟩ := finished_of_bind h
  rw [if_neg (Int.not_lt.mpr (hscan.nonneg s))] at h
  obtain ⟨ones, _, h⟩ := finished_of_bind h
  obtain ⟨m, _, h⟩ := finished_of_bind h
  obtain rfl := Except.ok.inj h
  exact Int.le_refl 0

/-- The parsers tell what a segment is. -/
theorem Segment.unique (hin4 : In4Pton in4Pton) (hscan : Sscanf sscanf) {s : List Char}
    {addr addr' : Be32} {n n' : ℕ} (h : Segment s addr n) (h' : Segment s addr' n') :
    addr = addr' ∧ n = n' := by
  obtain ⟨quad, num, rfl, hquad, hnum, hn⟩ := h
  obtain ⟨quad', num', heq, hquad', hnum', hn'⟩ := h'
  have hanswer := hin4.quad quad num addr hquad
  rw [heq, hin4.quad quad' num' addr' hquad'] at hanswer
  obtain ⟨_, haddr, hstop⟩ := In4Answer.mk.inj hanswer
  have hlen : quad.length = quad'.length := (Option.some.inj hstop).symm
  obtain ⟨_, hrest⟩ := List.append_inj heq hlen
  obtain ⟨_, rfl⟩ := List.cons.inj hrest
  have hnumber := hscan.number num n hnum (by omega)
  rw [hscan.number num n' hnum' (by omega)] at hnumber
  obtain ⟨_, hval⟩ := ScanAnswer.mk.inj hnumber
  exact ⟨(Option.some.inj haddr).symm, (Int.natCast_inj.mp (Option.some.inj hval)).symm⟩

/-- **Which strings are read as they should**: the segments with at least one bit and at most
`31`. -/
theorem netSegPton_iff (hin4 : In4Pton in4Pton) (hscan : Sscanf sscanf) (unset : Be32)
    (input : Text) (net mask : BitVec 32) :
    Meets input net mask (netSegPton in4Pton sscanf unset input net mask) ↔
      ∃ addr n, Segment input.chars addr n ∧ 1 ≤ n ∧ n ≤ 31 := by
  constructor
  · intro hmeets
    by_cases hseg : ∃ addr n, Segment input.chars addr n
    · obtain ⟨addr, n, hseg⟩ := hseg
      have hn : n ≤ 32 := hseg.choose_spec.choose_spec.2.2.2
      by_cases hedge : n = 0 ∨ n = 32
      · obtain ⟨o, ho, _⟩ := hmeets.segment addr n hseg
        rw [netSegPton_of_edge hin4 hscan unset net mask hseg hedge] at ho
        exact absurd ho (by simp)
      · exact ⟨addr, n, hseg, by omega, by omega⟩
    · obtain ⟨o, ho, hneg, _⟩ := hmeets.other hseg
      exact absurd (nonneg_of_ok hin4 hscan ho) (Int.not_le.mpr hneg)
  · rintro ⟨addr, n, hseg, hpos, hle⟩
    refine ⟨fun addr' n' hseg' => ?_, fun hnone => absurd ⟨addr, n, hseg⟩ hnone⟩
    obtain ⟨rfl, rfl⟩ := hseg.unique hin4 hscan hseg'
    refine ⟨_, netSegPton_of_pos hin4 hscan unset net mask hseg hpos (by omega), rfl, ?_, rfl⟩
    intro i hi
    exact getMsbD_mask (by omega) hi

/-! ### The call of the module -/

/-- A byte from its digits. -/
def octet (s : List Char) : Option (BitVec 8) :=
  if s ≠ [] ∧ s.all Char.isDigit = true ∧ decimalValue s < 256 then
    some (BitVec.ofNat 8 (decimalValue s))
  else none

/-- An `in4_pton` for strings up to a `/`. -/
def in4PtonOf (s : List Char) : In4Answer :=
  let quad := s.takeWhile (· ≠ '/')
  match (quad.splitOn '.').map octet with
  | [some b₀, some b₁, some b₂, some b₃] => ⟨1, some ⟨b₀, b₁, b₂, b₃⟩, some quad.length⟩
  | _ => ⟨0, none, some 0⟩

/-- A `sscanf` for digits in front. -/
def sscanfOf (s : List Char) : ScanAnswer :=
  let num := s.takeWhile Char.isDigit
  if num = [] then ⟨0, none⟩ else ⟨1, some (decimalValue num)⟩

theorem octet_of_decimal {s : List Char} {b : BitVec 8} (h : Decimal s b.toNat) :
    octet s = some b := by
  have hvalue : decimalValue s < 256 := by
    rw [h.value]
    exact b.isLt
  rw [octet, if_pos ⟨h.ne_nil, h.digits, hvalue⟩, h.value, BitVec.ofNat_toNat, BitVec.setWidth_eq]

theorem Decimal.not_mem {s : List Char} {n : ℕ} (h : Decimal s n) {c : Char}
    (hc : c.isDigit = false) : c ∉ s := fun hmem => by
  rw [List.all_eq_true.mp h.digits c hmem] at hc
  exact Bool.noConfusion hc

theorem in4PtonOf_spec : In4Pton in4PtonOf where
  quad s rest addr h := by
    obtain ⟨a, b, c, d, rfl, ha, hb, hc, hd⟩ := h
    have hsplit : (a ++ '.' :: (b ++ '.' :: (c ++ '.' :: d))).splitOn '.' = [a, b, c, d] := by
      have hjoin : ['.'].intercalate [a, b, c, d] = a ++ '.' :: (b ++ '.' :: (c ++ '.' :: d)) := by
        simp [List.intercalate, List.intersperse]
      rw [← hjoin]
      refine List.splitOn_intercalate '.' ?_ (by simp)
      simp only [List.forall_mem_cons]
      exact ⟨ha.not_mem rfl, hb.not_mem rfl, hc.not_mem rfl, hd.not_mem rfl, by simp⟩
    have hslash : ∀ x ∈ a ++ '.' :: (b ++ '.' :: (c ++ '.' :: d)), decide (x ≠ '/') = true := by
      intro x hx
      refine decide_eq_true ?_
      rintro rfl
      simp only [List.mem_append, List.mem_cons] at hx
      rcases hx with hx | hx | hx | hx | hx | hx | hx
      · exact ha.not_mem rfl hx
      · exact absurd hx (by decide)
      · exact hb.not_mem rfl hx
      · exact absurd hx (by decide)
      · exact hc.not_mem rfl hx
      · exact absurd hx (by decide)
      · exact hd.not_mem rfl hx
    have htake : ((a ++ '.' :: (b ++ '.' :: (c ++ '.' :: d))) ++ '/' :: rest).takeWhile
        (· ≠ '/') = a ++ '.' :: (b ++ '.' :: (c ++ '.' :: d)) := by
      rw [List.takeWhile_append_of_pos hslash]
      simp
    rw [in4PtonOf]
    rw [htake, hsplit]
    simp only [List.map_cons, List.map_nil, octet_of_decimal ha, octet_of_decimal hb,
      octet_of_decimal hc, octet_of_decimal hd]
  nonneg s := by
    rw [in4PtonOf]
    split
    · exact Int.one_nonneg
    · exact Int.le_refl 0

theorem sscanfOf_spec : Sscanf sscanfOf where
  number s n h _ := by
    have htake : s.takeWhile Char.isDigit = s := 
      List.takeWhile_eq_self_iff.mpr (List.all_eq_true.mp h.digits)
    rw [sscanfOf]
    rw [htake, if_neg h.ne_nil, h.value]
  nonneg s := by
    rw [sscanfOf]
    split
    · exact Int.le_refl 0
    · exact Int.one_nonneg

/-- `input` of the module. -/
def moduleInput : Text :=
  ⟨['1', '0', '.', '1', '6', '.', '1', '1', '8', '.', '5', '6', '/', '2', '4'], by decide⟩

theorem netSegPton_iff_moduleInput : Meets moduleInput 0#32 0#32
    (netSegPton in4PtonOf sscanfOf ⟨0#8, 0#8, 0#8, 0#8⟩ moduleInput 0#32 0#32) := by
  refine (netSegPton_iff in4PtonOf_spec sscanfOf_spec _ moduleInput 0#32 0#32).mpr
    ⟨⟨10#8, 16#8, 118#8, 56#8⟩, 24, ?_, by decide, by decide⟩
  refine ⟨['1', '0', '.', '1', '6', '.', '1', '1', '8', '.', '5', '6'], ['2', '4'], rfl,
    ⟨['1', '0'], ['1', '6'], ['1', '1', '8'], ['5', '6'], rfl, ?_, ?_, ?_, ?_⟩, ?_, by decide⟩
  all_goals exact ⟨by decide, by decide, by decide⟩

example : (netSegPton in4PtonOf sscanfOf ⟨0#8, 0#8, 0#8, 0#8⟩ moduleInput 0#32 0#32).toOption =
    some ⟨0, 0x0a107600#32, 0xffffff00#32⟩ := by decide +kernel

/-- The segment of all addresses. -/
def allAddresses : Text := ⟨['0', '.', '0', '.', '0', '.', '0', '/', '0'], by decide⟩

/-- Not a number behind the `/`. -/
def noSegment : Text := ⟨['1', '.', '2', '.', '3', '.', '4', '/', '2', '4', 'x'], by decide⟩

/-- **A segment that shifts by the width, and a string that is read as one.** -/
theorem net_seg_pton_fails : In4Pton in4PtonOf ∧ Sscanf sscanfOf ∧
    ¬ Meets allAddresses 0#32 0#32
      (netSegPton in4PtonOf sscanfOf ⟨0#8, 0#8, 0#8, 0#8⟩ allAddresses 0#32 0#32) ∧
    ¬ Meets noSegment 0#32 0#32
      (netSegPton in4PtonOf sscanfOf ⟨0#8, 0#8, 0#8, 0#8⟩ noSegment 0#32 0#32) := by
  refine ⟨in4PtonOf_spec, sscanfOf_spec, fun hmeets => ?_, fun hmeets => ?_⟩
  · have hzero : Decimal ['0'] (0#8).toNat := ⟨by decide, by decide, by decide⟩
    have hseg : Segment allAddresses.chars ⟨0#8, 0#8, 0#8, 0#8⟩ 0 :=
      ⟨['0', '.', '0', '.', '0', '.', '0'], ['0'], rfl,
        ⟨['0'], ['0'], ['0'], ['0'], rfl, hzero, hzero, hzero, hzero⟩, hzero, by decide⟩
    obtain ⟨o, ho, _⟩ := hmeets.segment _ _ hseg
    rw [netSegPton_of_edge in4PtonOf_spec sscanfOf_spec _ _ _ hseg (Or.inl rfl)] at ho
    exact absurd ho (by simp)
  · have hnone : ¬ ∃ addr n, Segment noSegment.chars addr n := by
      rintro ⟨addr, n, quad, num, heq, hquad, hnum, _⟩
      have hanswer := in4PtonOf_spec.quad quad num addr hquad
      rw [← heq] at hanswer
      have hstop : some 7 = some quad.length := congrArg In4Answer.stop hanswer
      have heq : ['1', '.', '2', '.', '3', '.', '4'] ++ '/' :: ['2', '4', 'x'] =
          quad ++ '/' :: num := heq
      obtain ⟨_, hrest⟩ := List.append_inj heq (Option.some.inj hstop)
      obtain ⟨_, rfl⟩ := List.cons.inj hrest
      exact absurd hnum.digits (by decide)
    obtain ⟨o, ho, hneg, _⟩ := hmeets.other hnone
    exact absurd (nonneg_of_ok in4PtonOf_spec sscanfOf_spec ho) (Int.not_le.mpr hneg)

end CppProgramming.Network.NetStrParse
