import CppProgramming.Lib.ByteBuffer
import CppProgramming.Lib.WordStream

/-!
# The packets of `client_v4.cpp`

`make_normal_pkt` puts an IPv4 header, a UDP header and a payload into a buffer, and returns
how much of it is to be sent.  Its parameter `payload` is a pointer, so `sizeof(payload)` is
the size of a pointer, `8`: the two lengths, the copy and the result are those of a payload of
`8` bytes, whatever `payload_len` is (`makeNormalPkt_eq`).  The one call of the file has a
payload of this size.

The machine is a little-endian one of 64 bits.  A header is a structure of the numbers in its
fields and lies in memory as its `bytes`.
-/

namespace CppProgramming.Network.MakeNormalPkt

open CppProgramming.Lib CppProgramming.Lib.ByteBuffer

/-! ### The headers -/

/-- `struct iphdr` -/
structure IpHdr where
  ihl : BitVec 4
  version : BitVec 4
  tos : UInt8
  totLen : BitVec 16
  id : BitVec 16
  fragOff : BitVec 16
  ttl : UInt8
  protocol : UInt8
  check : BitVec 16
  saddr : BitVec 32
  daddr : BitVec 32
deriving DecidableEq

/-- `struct udphdr` -/
structure UdpHdr where
  source : BitVec 16
  dest : BitVec 16
  len : BitVec 16
  check : BitVec 16
deriving DecidableEq

def SIZEOF_IPHDR : ℕ := 20

def SIZEOF_UDPHDR : ℕ := 8

def SIZEOF_POINTER : ℕ := 8

/-- A field of `w` bits from the byte `i` on. -/
def field (w : ℕ) (b : List UInt8) (i : ℕ) : BitVec w :=
  BitVec.ofNat w (ofLowBytes ((b.drop i).take (w / 8)))

def IpHdr.bytes (h : IpHdr) : List UInt8 :=
  UInt8.ofBitVec (h.version ++ h.ihl) :: h.tos :: lowBytes 2 h.totLen.toNat ++
    lowBytes 2 h.id.toNat ++ lowBytes 2 h.fragOff.toNat ++ h.ttl :: h.protocol ::
    lowBytes 2 h.check.toNat ++ lowBytes 4 h.saddr.toNat ++ lowBytes 4 h.daddr.toNat

def IpHdr.ofBytes (b : List UInt8) : IpHdr where
  ihl := (field 8 b 0).extractLsb' 0 4
  version := (field 8 b 0).extractLsb' 4 4
  tos := b.getD 1 0
  totLen := field 16 b 2
  id := field 16 b 4
  fragOff := field 16 b 6
  ttl := b.getD 8 0
  protocol := b.getD 9 0
  check := field 16 b 10
  saddr := field 32 b 12
  daddr := field 32 b 16

def UdpHdr.bytes (h : UdpHdr) : List UInt8 :=
  lowBytes 2 h.source.toNat ++ lowBytes 2 h.dest.toNat ++ lowBytes 2 h.len.toNat ++
    lowBytes 2 h.check.toNat

def UdpHdr.ofBytes (b : List UInt8) : UdpHdr where
  source := field 16 b 0
  dest := field 16 b 2
  len := field 16 b 4
  check := field 16 b 6

def htons (x : BitVec 16) : BitVec 16 := x.extractLsb' 0 8 ++ x.extractLsb' 8 8

def ntohs (x : BitVec 16) : BitVec 16 := htons x

/-! ### The code -/

def csumFold (csum : BitVec 32) : BitVec 16 :=
  ~~~((csum + ((csum >>> 16) ||| (csum <<< 16))) >>> 16).setWidth 16

/-- The loop of `ip_fast_csum` over `n` words, from `off` on. -/
def csumWords (iph : List UInt8) : ℕ → ℕ → BitVec 64 → Option (BitVec 64)
  | 0, _, sum => some sum
  | n + 1, off, sum => do
    let word ← loadBytes iph off 4
    csumWords iph n (off + 4) (sum + (field 32 word 0).setWidth 64)

def ipFastCsum (iph : List UInt8) (ihl : BitVec 32) : Option (BitVec 16) := do
  let words ← loadBytes iph 0 16
  let tmp := field 128 words 0
  let ihl := ihl - 4
  let tmp := tmp + ((tmp >>> 64) ||| (tmp <<< 64))
  let sum := (tmp >>> 64).setWidth 64
  -- the first test of `--ihl` comes behind the first word
  let sum ← csumWords iph ((ihl - 1).toNat + 1) 16 sum
  let sum := sum + ((sum >>> 32) ||| (sum <<< 32))
  some (csumFold ((sum >>> 32).setWidth 32))

/-- `(struct iphdr*)pkt`, read. -/
def loadIp (pkt : List UInt8) : Option IpHdr := (loadBytes pkt 0 SIZEOF_IPHDR).map IpHdr.ofBytes

def storeIp (pkt : List UInt8) (iph : IpHdr) : Option (List UInt8) := storeBytes pkt 0 iph.bytes

def ipSendCheck (pkt : List UInt8) : Option (List UInt8) := do
  let iph ← loadIp pkt
  let iph := { iph with check := 0 }
  let pkt ← storeIp pkt iph
  let check ← ipFastCsum pkt (iph.ihl.setWidth 32)
  storeIp pkt { iph with check := check }

def IPPROTO_MYPROTO : UInt8 := 123

/-- `src_ip`, `dst_ip`, `src_port` and `dst_port`, all as they go out. -/
structure Globals where
  srcIp : BitVec 32
  dstIp : BitVec 32
  srcPort : BitVec 16
  dstPort : BitVec 16

/-- What `make_normal_pkt` assigns to the fields of the IP header. -/
def buildIp (g : Globals) (iph : IpHdr) : IpHdr :=
  { iph with
    version := 0x4
    ihl := BitVec.ofNat 4 (SIZEOF_IPHDR / 4)
    tos := 0x0
    totLen := htons (BitVec.ofNat 16 (SIZEOF_IPHDR + SIZEOF_UDPHDR + SIZEOF_POINTER))
    id := htons 1234
    fragOff := 0x0
    ttl := 64
    protocol := IPPROTO_MYPROTO
    saddr := g.srcIp
    daddr := g.dstIp }

def buildUdp (g : Globals) (uh : UdpHdr) : UdpHdr :=
  { uh with
    source := g.srcPort
    dest := g.dstPort
    len := htons (BitVec.ofNat 16 (SIZEOF_UDPHDR + SIZEOF_POINTER))
    check := 0 }

/-- `make_normal_pkt`; `none` is an access outside of `pkt` or of `payload`. -/
def makeNormalPkt (g : Globals) (pkt payload : List UInt8) (_payloadLen : ℤ) :
    Option (ℤ × List UInt8) := do
  let iph ← loadIp pkt
  let pkt ← storeIp pkt (buildIp g iph)
  let pkt ← ipSendCheck pkt
  let uh ← loadBytes pkt SIZEOF_IPHDR SIZEOF_UDPHDR
  let pkt ← storeBytes pkt SIZEOF_IPHDR (buildUdp g (UdpHdr.ofBytes uh)).bytes
  let bytes ← loadBytes payload 0 SIZEOF_POINTER
  let pkt ← storeBytes pkt (SIZEOF_IPHDR + SIZEOF_UDPHDR) bytes
  let iph ← loadIp pkt
  some ((ntohs iph.totLen).toNat, pkt)

/-! ### What is asked of a packet -/

/-- Two bytes in the order of the network. -/
def be16 (n : ℕ) : List UInt8 := [UInt8.ofNat (n / 256), UInt8.ofNat n]

def ipv4Header (g : Globals) (len : ℕ) (check : BitVec 16) : List UInt8 :=
  [0x45, 0] ++ be16 len ++ be16 1234 ++ [0, 0, 64, IPPROTO_MYPROTO] ++ lowBytes 2 check.toNat ++
    lowBytes 4 g.srcIp.toNat ++ lowBytes 4 g.dstIp.toNat

def udpHeader (g : Globals) (len : ℕ) : List UInt8 :=
  lowBytes 2 g.srcPort.toNat ++ lowBytes 2 g.dstPort.toNat ++ be16 len ++ [0, 0]

/-- What a receiver takes for the payload of a datagram. -/
def receive (datagram : List UInt8) : Option (List UInt8) := do
  let iph ← loadIp datagram
  let totLen := (ntohs iph.totLen).toNat
  let start := 4 * iph.ihl.toNat
  let uh ← (loadBytes datagram start SIZEOF_UDPHDR).map UdpHdr.ofBytes
  let len := (ntohs uh.len).toNat
  if iph.version = 4 ∧ totLen = datagram.length ∧ start + len = totLen then
    loadBytes datagram (start + SIZEOF_UDPHDR) (len - SIZEOF_UDPHDR)
  else none

/-- **What is asked of a call**: the headers with the lengths for this payload, the payload, and
nothing else; and it is received. -/
structure Carries (g : Globals) (pkt payload : List UInt8) (ret : ℤ) (pkt' : List UInt8) :
    Prop where
  returned : ret = 28 + payload.length
  bytes : ∃ check, ipFastCsum (ipv4Header g (28 + payload.length) 0) 5 = some check ∧
    pkt' = ipv4Header g (28 + payload.length) check ++ udpHeader g (8 + payload.length) ++
      payload ++ pkt.drop (28 + payload.length)
  received : receive (pkt'.take ret.toNat) = some payload

/-- The call reads and writes inside of its buffers, and the packet carries the payload. -/
def Correct (g : Globals) (pkt payload : List UInt8) (out : Option (ℤ × List UInt8)) : Prop :=
  ∃ ret pkt', out = some (ret, pkt') ∧ Carries g pkt payload ret pkt'

/-! ### Headers in memory -/

theorem ntohs_htons (x : BitVec 16) : ntohs (htons x) = x := by
  have hlow : (htons x).extractLsb' 0 8 = x.extractLsb' 8 8 := BitVec.extractLsb'_append_eq_right
  have hhigh : (htons x).extractLsb' 8 8 = x.extractLsb' 0 8 := BitVec.extractLsb'_append_eq_left
  rw [ntohs, htons, hlow, hhigh]
  exact BitVec.extractLsb'_append_extractLsb'

theorem field_byte (x : BitVec 8) (b : List UInt8) : field 8 (UInt8.ofBitVec x :: b) 0 = x := by
  show BitVec.ofNat 8 (x.toNat + 256 * 0) = x
  rw [Nat.mul_zero, Nat.add_zero, BitVec.ofNat_toNat, BitVec.setWidth_eq]

theorem IpHdr.ofBytes_bytes (h : IpHdr) : IpHdr.ofBytes h.bytes = h := by
  have hfield : ∀ x : BitVec 16, BitVec.ofNat 16 (ofLowBytes (lowBytes 2 x.toNat)) = x :=
    ofNat_ofLowBytes_lowBytes (by decide)
  have haddr : ∀ x : BitVec 32, BitVec.ofNat 32 (ofLowBytes (lowBytes 4 x.toNat)) = x :=
    ofNat_ofLowBytes_lowBytes (by decide)
  have hfirst : field 8 h.bytes 0 = h.version ++ h.ihl := field_byte ..
  have hihl : (h.version ++ h.ihl).extractLsb' 0 4 = h.ihl := BitVec.extractLsb'_append_eq_right
  have hversion : (h.version ++ h.ihl).extractLsb' 4 4 = h.version :=
    BitVec.extractLsb'_append_eq_left
  rw [IpHdr.ofBytes, hfirst, hihl, hversion]
  obtain ⟨ihl, version, tos, totLen, id, fragOff, ttl, protocol, check, saddr, daddr⟩ := h
  rw [IpHdr.mk.injEq]
  exact ⟨rfl, rfl, rfl, hfield totLen, hfield id, hfield fragOff, rfl, rfl, hfield check,
    haddr saddr, haddr daddr⟩

theorem UdpHdr.ofBytes_bytes (h : UdpHdr) : UdpHdr.ofBytes h.bytes = h := by
  have hfield : ∀ x : BitVec 16, BitVec.ofNat 16 (ofLowBytes (lowBytes 2 x.toNat)) = x :=
    ofNat_ofLowBytes_lowBytes (by decide)
  obtain ⟨source, dest, len, check⟩ := h
  rw [UdpHdr.ofBytes, UdpHdr.mk.injEq]
  exact ⟨hfield source, hfield dest, hfield len, hfield check⟩

theorem IpHdr.length_bytes (h : IpHdr) : h.bytes.length = SIZEOF_IPHDR := rfl

theorem UdpHdr.length_bytes (h : UdpHdr) : h.bytes.length = SIZEOF_UDPHDR := rfl

variable {a b c pkt payload : List UInt8} {g : Globals}

theorem loadIp_append (ha : a.length = SIZEOF_IPHDR) :
    loadIp (a ++ b) = some (IpHdr.ofBytes a) := by
  have hload : loadBytes (a ++ b) 0 SIZEOF_IPHDR = some a := loadBytes_append (a := []) rfl ha
  rw [loadIp, hload, Option.map_some]

theorem loadIp_bytes (h : IpHdr) : loadIp (h.bytes ++ b) = some h := by
  rw [loadIp_append h.length_bytes, h.ofBytes_bytes]

theorem storeIp_append (h : IpHdr) (ha : a.length = SIZEOF_IPHDR) :
    storeIp (a ++ b) h = some (h.bytes ++ b) :=
  storeBytes_append (a := []) rfl (ha.trans h.length_bytes.symm)

theorem csumWords_of_le (n : ℕ) {off : ℕ} (sum : BitVec 64) (h : off + 4 * n ≤ a.length) :
    ∃ s, csumWords a n off sum = some s := by
  induction n generalizing off sum with
  | zero => exact ⟨sum, rfl⟩
  | succ n ih =>
    rw [csumWords, loadBytes_of_le (by omega)]
    exact ih _ (by omega)

theorem csumWords_append (n : ℕ) {off : ℕ} (sum : BitVec 64) (h : off + 4 * n ≤ a.length) :
    csumWords (a ++ b) n off sum = csumWords a n off sum := by
  induction n generalizing off sum with
  | zero => rfl
  | succ n ih =>
    have hload : loadBytes (a ++ b) off 4 = loadBytes a off 4 := loadBytes_append_left (by omega)
    rw [csumWords, csumWords, hload]
    cases loadBytes a off 4 with
    | none => rfl
    | some word => exact ih _ (by omega)

/-- A header without options has a checksum. -/
theorem ipFastCsum_five (h : SIZEOF_IPHDR ≤ a.length) :
    ∃ check, ipFastCsum a 5 = some check := by
  have hlen : 20 ≤ a.length := h
  have hloop : ∀ sum, ∃ s, csumWords a ((5 - 4 - 1 : BitVec 32).toNat + 1) 16 sum = some s :=
    fun sum => csumWords_of_le 1 sum hlen
  choose total htotal using hloop
  simp only [ipFastCsum, loadBytes_of_le (show 0 + 16 ≤ a.length by omega), htotal,
    Option.bind_eq_bind, Option.bind_some]
  exact ⟨_, rfl⟩

theorem ipFastCsum_append (h : SIZEOF_IPHDR ≤ a.length) :
    ipFastCsum (a ++ b) 5 = ipFastCsum a 5 := by
  have hlen : 20 ≤ a.length := h
  have hload : loadBytes (a ++ b) 0 16 = loadBytes a 0 16 := loadBytes_append_left (by omega)
  have hloop : ∀ sum, csumWords (a ++ b) ((5 - 4 - 1 : BitVec 32).toNat + 1) 16 sum =
      csumWords a ((5 - 4 - 1 : BitVec 32).toNat + 1) 16 sum :=
    fun sum => csumWords_append 1 sum hlen
  simp only [ipFastCsum, hload, hloop]

theorem ipSendCheck_bytes (h : IpHdr) (hihl : h.ihl = 5) :
    ∃ check, ipFastCsum { h with check := 0 }.bytes 5 = some check ∧
      ipSendCheck (h.bytes ++ b) = some ({ h with check := check }.bytes ++ b) := by
  have hlen : SIZEOF_IPHDR ≤ ({ h with check := 0 } : IpHdr).bytes.length := Nat.le_refl _
  obtain ⟨check, hcheck⟩ := ipFastCsum_five hlen
  have hfive : h.ihl.setWidth 32 = 5 := by
    rw [hihl]
    rfl
  refine ⟨check, hcheck, ?_⟩
  simp only [ipSendCheck, loadIp_bytes, storeIp_append _ h.length_bytes, Option.bind_eq_bind,
    Option.bind_some, hfive, ipFastCsum_append hlen, hcheck]
  exact storeIp_append _ (IpHdr.length_bytes _)

/-! ### The packet -/

/-- The header that is written, with some checksum. -/
def ipHdr (g : Globals) (check : BitVec 16) : IpHdr where
  ihl := 5
  version := 4
  tos := 0
  totLen := htons 36
  id := htons 1234
  fragOff := 0
  ttl := 64
  protocol := IPPROTO_MYPROTO
  check := check
  saddr := g.srcIp
  daddr := g.dstIp

def udpHdr (g : Globals) : UdpHdr := ⟨g.srcPort, g.dstPort, htons 16, 0⟩

theorem ipHdr_bytes (check : BitVec 16) : (ipHdr g check).bytes = ipv4Header g 36 check := by
  have hfirst : UInt8.ofBitVec ((4 : BitVec 4) ++ (5 : BitVec 4)) = 0x45 := by decide
  have hlen : lowBytes 2 (htons 36).toNat = be16 36 := by decide
  have hid : lowBytes 2 (htons 1234).toNat = be16 1234 := by decide
  have hfragOff : lowBytes 2 (0 : BitVec 16).toNat = [0, 0] := by decide
  simp only [IpHdr.bytes, ipHdr, ipv4Header, hfirst, hlen, hid, hfragOff]
  rfl

theorem udpHdr_bytes : (udpHdr g).bytes = udpHeader g 16 := by
  have hlen : lowBytes 2 (htons 16).toNat = be16 16 := by decide
  have hcheck : lowBytes 2 (0 : BitVec 16).toNat = [0, 0] := by decide
  simp only [UdpHdr.bytes, udpHdr, udpHeader, hlen, hcheck]

theorem buildIp_eq (iph : IpHdr) : buildIp g iph = ipHdr g iph.check := rfl

theorem buildUdp_eq (uh : UdpHdr) : buildUdp g uh = udpHdr g := rfl

/-- The headers are written whatever the payload is. -/
theorem makeNormalPkt_headers (payloadLen : ℤ) (ha : a.length = SIZEOF_IPHDR)
    (hb : b.length = SIZEOF_UDPHDR) : ∃ check, ipFastCsum (ipv4Header g 36 0) 5 = some check ∧
    makeNormalPkt g (a ++ (b ++ c)) payload payloadLen =
      (loadBytes payload 0 SIZEOF_POINTER).bind fun bytes =>
        (storeBytes ((ipHdr g check).bytes ++ ((udpHdr g).bytes ++ c)) 28 bytes).bind fun pkt =>
          (loadIp pkt).bind fun iph => some (((ntohs iph.totLen).toNat : ℤ), pkt) := by
  obtain ⟨check, hsum, hcheck⟩ : ∃ check, ipFastCsum (ipHdr g 0).bytes 5 = some check ∧
      ipSendCheck ((ipHdr g (IpHdr.ofBytes a).check).bytes ++ (b ++ c)) =
        some ((ipHdr g check).bytes ++ (b ++ c)) :=
    ipSendCheck_bytes (ipHdr g (IpHdr.ofBytes a).check) rfl
  have hload : loadBytes ((ipHdr g check).bytes ++ (b ++ c)) SIZEOF_IPHDR SIZEOF_UDPHDR = some b :=
    loadBytes_append rfl hb
  have hstore : storeBytes ((ipHdr g check).bytes ++ (b ++ c)) SIZEOF_IPHDR (udpHdr g).bytes =
      some ((ipHdr g check).bytes ++ ((udpHdr g).bytes ++ c)) := storeBytes_append rfl hb
  refine ⟨check, ipHdr_bytes (g := g) 0 ▸ hsum, ?_⟩
  simp only [makeNormalPkt, loadIp_append ha, buildIp_eq, storeIp_append _ ha, hcheck, hload,
    buildUdp_eq, hstore, Option.bind_eq_bind, Option.bind_some]
  rfl

/-- **With a payload of at least `8` bytes** the packet has the first `8` of them. -/
theorem makeNormalPkt_eq (payloadLen : ℤ) (hpkt : 36 ≤ pkt.length)
    (hpayload : 8 ≤ payload.length) : ∃ check, ipFastCsum (ipv4Header g 36 0) 5 = some check ∧
    makeNormalPkt g pkt payload payloadLen =
      some (36, ipv4Header g 36 check ++ udpHeader g 16 ++ payload.take 8 ++ pkt.drop 36) := by
  obtain ⟨a, tail, rfl, ha⟩ := exists_split (show 20 ≤ pkt.length by omega)
  rw [List.length_append, ha] at hpkt
  obtain ⟨b, tail, rfl, hb⟩ := exists_split (show 8 ≤ tail.length by omega)
  rw [List.length_append, hb] at hpkt
  obtain ⟨c, rest, rfl, hc⟩ := exists_split (show 8 ≤ tail.length by omega)
  obtain ⟨check, hsum, hheaders⟩ := makeNormalPkt_headers (g := g) payloadLen ha hb
  have htake : (payload.take 8).length = 8 := List.length_take_of_le hpayload
  have hload : loadBytes payload 0 SIZEOF_POINTER = some (payload.take 8) :=
    loadBytes_of_le (Nat.le_trans (Nat.le_refl 8) hpayload)
  have hstore : storeBytes (((ipHdr g check).bytes ++ (udpHdr g).bytes) ++ (c ++ rest)) 28
      (payload.take 8) =
      some (((ipHdr g check).bytes ++ (udpHdr g).bytes) ++ (payload.take 8 ++ rest)) :=
    storeBytes_append rfl (hc.trans htake.symm)
  have hrest : (a ++ (b ++ (c ++ rest))).drop 36 = rest := by
    rw [← List.append_assoc, ← List.append_assoc]
    exact List.drop_left' (by simp [ha, hb, hc])
  refine ⟨check, hsum, hheaders.trans ?_⟩
  rw [hload, Option.bind_some, ← List.append_assoc, hstore, Option.bind_some, List.append_assoc,
    loadIp_bytes, Option.bind_some, hrest, ← ipHdr_bytes, ← udpHdr_bytes, List.append_assoc,
    List.append_assoc]
  show some (((ntohs (htons 36)).toNat : ℤ), _) = _
  rw [ntohs_htons]
  rfl

theorem makeNormalPkt_eq_none (payloadLen : ℤ) (hpkt : 28 ≤ pkt.length)
    (hpayload : payload.length < 8) : makeNormalPkt g pkt payload payloadLen = none := by
  obtain ⟨a, tail, rfl, ha⟩ := exists_split (show 20 ≤ pkt.length by omega)
  rw [List.length_append, ha] at hpkt
  obtain ⟨b, c, rfl, hb⟩ := exists_split (show 8 ≤ tail.length by omega)
  obtain ⟨check, -, hheaders⟩ := makeNormalPkt_headers (g := g) payloadLen ha hb
  rw [hheaders, loadBytes_of_lt (by unfold SIZEOF_POINTER; omega)]
  rfl

/-! ### The payload at the other end -/

/-- **A datagram whose lengths agree** is received. -/
theorem receive_of_lengths {iph : IpHdr} {uh : UdpHdr} (hversion : iph.version = 4)
    (hihl : iph.ihl = 5) (htotLen : (ntohs iph.totLen).toNat = 28 + payload.length)
    (hlen : (ntohs uh.len).toNat = 8 + payload.length) :
    receive (iph.bytes ++ (uh.bytes ++ payload)) = some payload := by
  have hstart : 4 * iph.ihl.toNat = 20 := by
    rw [hihl]
    rfl
  have huh : loadBytes (iph.bytes ++ (uh.bytes ++ payload)) 20 SIZEOF_UDPHDR = some uh.bytes :=
    loadBytes_append rfl rfl
  have hload : loadBytes (iph.bytes ++ (uh.bytes ++ payload)) (20 + SIZEOF_UDPHDR)
      (8 + payload.length - SIZEOF_UDPHDR) = some payload := by
    have hsplit : loadBytes ((iph.bytes ++ uh.bytes) ++ (payload ++ [])) 28 payload.length =
        some payload := loadBytes_append rfl rfl
    rw [List.append_nil, List.append_assoc] at hsplit
    rw [show 8 + payload.length - SIZEOF_UDPHDR = payload.length from Nat.add_sub_cancel_left ..]
    exact hsplit
  have hlength : (iph.bytes ++ (uh.bytes ++ payload)).length = 28 + payload.length := by
    rw [List.length_append, List.length_append, iph.length_bytes, uh.length_bytes, ← Nat.add_assoc]
    rfl
  simp only [receive, loadIp_bytes, hstart, huh, Option.map_some, Option.bind_eq_bind,
    Option.bind_some, uh.ofBytes_bytes, hlen, htotLen, hlength]
  rw [if_pos ⟨hversion, trivial, by omega⟩]
  exact hload

theorem carries_eight {check : BitVec 16} (hsum : ipFastCsum (ipv4Header g 36 0) 5 = some check)
    (hpayload : payload.length = 8) :
    Carries g pkt payload 36
      (ipv4Header g 36 check ++ udpHeader g 16 ++ payload ++ pkt.drop 36) where
  returned := by rw [hpayload]; rfl
  bytes := ⟨check, by rw [hpayload]; exact hsum, by rw [hpayload]⟩
  received := by
    have htake : ((ipv4Header g 36 check ++ udpHeader g 16 ++ payload ++ pkt.drop 36).take 36) =
        (ipHdr g check).bytes ++ ((udpHdr g).bytes ++ payload) := by
      rw [ipHdr_bytes, udpHdr_bytes, ← List.append_assoc]
      exact List.take_left' (by simp [ipv4Header, udpHeader, be16, length_lowBytes, hpayload])
    show receive ((ipv4Header g 36 check ++ udpHeader g 16 ++ payload ++ pkt.drop 36).take 36) = _
    rw [htake]
    refine receive_of_lengths rfl rfl ?_ ?_
    · rw [hpayload]
      exact congrArg BitVec.toNat (ntohs_htons 36)
    · rw [hpayload]
      exact congrArg BitVec.toNat (ntohs_htons 16)

theorem correct_iff (payloadLen : ℤ) (hpkt : 28 + payload.length ≤ pkt.length) :
    Correct g pkt payload (makeNormalPkt g pkt payload payloadLen) ↔ payload.length = 8 := by
  constructor
  · rintro ⟨ret, pkt', hout, h⟩
    rcases Nat.lt_or_ge payload.length 8 with hlt | hle
    · rw [makeNormalPkt_eq_none payloadLen (by omega) hlt] at hout
      exact absurd hout (by simp)
    · have hroom : 36 ≤ pkt.length := by omega
      obtain ⟨check, -, heq⟩ := makeNormalPkt_eq (g := g) payloadLen hroom hle
      rw [heq] at hout
      obtain ⟨rfl, -⟩ := Prod.mk.inj (Option.some.inj hout)
      have hret := h.returned
      omega
  · intro height
    have hroom : 36 ≤ pkt.length := by omega
    obtain ⟨check, hsum, heq⟩ :=
      makeNormalPkt_eq (g := g) payloadLen hroom (Nat.le_of_eq height.symm)
    rw [List.take_of_length_le (Nat.le_of_eq height)] at heq
    exact ⟨_, _, heq, carries_eight hsum height⟩

/-- **`make_normal_pkt`** builds the packet of a payload exactly when the payload has the size of
a pointer. -/
theorem makeNormalPkt_iff (g : Globals) {pkt payload : List UInt8}
    (hpkt : 28 + payload.length ≤ pkt.length) :
    Correct g pkt payload (makeNormalPkt g pkt payload payload.length) ↔ payload.length = 8 :=
  correct_iff _ hpkt

/-- The addresses and the ports of the Makefile's run. -/
def mainGlobals : Globals := ⟨0x0100007F, 0x0100007F, htons 1122, htons 8192⟩

/-- The call of `main`. -/
theorem makeNormalPkt_iff_main :
    Correct mainGlobals (List.replicate 4096 0) [1, 2, 3, 4, 5, 6, 7, 8]
      (makeNormalPkt mainGlobals (List.replicate 4096 0) [1, 2, 3, 4, 5, 6, 7, 8] 8) :=
  (makeNormalPkt_iff mainGlobals (by rw [List.length_replicate]; decide)).mpr rfl

/-- The ninth byte is not sent. -/
theorem nine_bytes_fail :
    ¬ Correct mainGlobals (List.replicate 4096 0) [1, 2, 3, 4, 5, 6, 7, 8, 9]
      (makeNormalPkt mainGlobals (List.replicate 4096 0) [1, 2, 3, 4, 5, 6, 7, 8, 9] 9) := by
  rw [correct_iff _ (by rw [List.length_replicate]; decide)]
  decide

end CppProgramming.Network.MakeNormalPkt
