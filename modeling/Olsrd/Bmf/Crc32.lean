/-
The CRC by which the BMF plugin knows a packet again (`PacketHistory.c`): the table of remainders that bytes are looked
up in, and the fields of the IP header that must not count.
-/
import Olsrd.Lib.Bytes
import Olsrd.Lib.ReflectedCrc

namespace Olsrd.Bmf

open Bytes (Mem bigEnd)
open ReflectedCrc (shifts shift takeBit lowBits foldl_byte shifts_byte ushiftRight_setWidth)

def crcUptoNbytes : Nat := 256

def crc32Polynomial : BitVec 32 := 0xedb88320#32

/-! ## The table -/

/-- The inner loop of `GenerateCrc32Table`. -/
def crcRounds : Nat → BitVec 32 → BitVec 32
  | 0, crc => crc
  | rounds + 1, crc =>
    crcRounds rounds (if crc &&& 1#32 ≠ 0#32 then (crc >>> 1) ^^^ crc32Polynomial else crc >>> 1)

/-- `GenerateCrc32Table` -/
def generateCrc32Table : List (BitVec 32) := (List.range 256).map fun i => crcRounds 8 (BitVec.ofNat 32 i)

/-- The loop of `CalcCrc32`. -/
def calcCrc32Loop (crcTable : List (BitVec 32)) : List UInt8 → BitVec 32 → BitVec 32
  | [], crc => crc
  | byte :: buffer, crc =>
    let j := ((crc &&& 0xff#32) ^^^ byte.toBitVec.setWidth 32).toNat
    calcCrc32Loop crcTable buffer ((crc >>> 8) ^^^ crcTable.getD j 0)

/-- `CalcCrc32` -/
def calcCrc32 (crcTable : List (BitVec 32)) (buffer : Mem) (len : Int) : BitVec 32 :=
  calcCrc32Loop crcTable (buffer.slice 0 len.toNat) 0xffffffff#32 ^^^ 0xffffffff#32

/-- The CRC-32 of IEEE 802.3, bit by bit. -/
def crc32 (message : List UInt8) : BitVec 32 :=
  ReflectedCrc.crc crc32Polynomial 0xffffffff#32 0xffffffff#32 (message.map UInt8.toBitVec)

theorem and_one_ne_zero (crc : BitVec 32) : crc &&& 1#32 ≠ 0#32 ↔ crc.getLsbD 0 = true := by
  rw [BitVec.and_one_eq_setWidth_ofBool_getLsbD]
  cases crc.getLsbD 0 <;> decide

theorem crcRounds_eq (rounds : Nat) (crc : BitVec 32) : crcRounds rounds crc = shifts crc32Polynomial rounds crc := by
  induction rounds generalizing crc with
  | zero => rfl
  | succ rounds ih =>
    rw [crcRounds, shifts, ih, shift, takeBit, Bool.xor_false]
    congr 1
    exact if_congr (and_one_ne_zero crc) rfl rfl

theorem getD_generateCrc32Table {j : BitVec 32} (hj : j.toNat < 256) :
    generateCrc32Table.getD j.toNat 0 = shifts crc32Polynomial 8 j := by
  rw [generateCrc32Table, List.getD_eq_getElem?_getD, List.getElem?_map, List.getElem?_range hj, Option.map_some,
    Option.getD_some, crcRounds_eq, BitVec.ofNat_toNat, BitVec.setWidth_eq]

theorem toNat_xor_lt (crc : BitVec 32) (byte : UInt8) :
    ((crc &&& 0xff#32) ^^^ byte.toBitVec.setWidth 32).toNat < 256 := by
  have hmask : 0xff#32 >>> 8 = 0#32 := ushiftRight_setWidth 255#8
  have hzero : ((crc &&& 0xff#32) ^^^ byte.toBitVec.setWidth 32) >>> 8 = 0#32 := by
    rw [BitVec.ushiftRight_xor_distrib, BitVec.ushiftRight_and_distrib, hmask, ushiftRight_setWidth, BitVec.and_zero,
      BitVec.xor_zero]
  have hdiv := congrArg BitVec.toNat hzero
  rw [BitVec.toNat_ushiftRight, Nat.shiftRight_eq_div_pow] at hdiv
  exact Nat.lt_of_div_eq_zero (by decide) hdiv

theorem calcCrc32Loop_eq (buffer : List UInt8) (crc : BitVec 32) : calcCrc32Loop generateCrc32Table buffer crc =
    ((buffer.map UInt8.toBitVec).flatMap (lowBits 8)).foldl (takeBit crc32Polynomial) crc := by
  induction buffer generalizing crc with
  | nil => rfl
  | cons byte buffer ih =>
    rw [calcCrc32Loop, getD_generateCrc32Table (toNat_xor_lt crc byte), ih, List.map_cons, List.flatMap_cons,
      List.foldl_append, foldl_byte (by decide), shifts_byte _ crc byte.toBitVec rfl]
    rfl

theorem calcCrc32_eq (buffer : Mem) (len : Int) :
    calcCrc32 generateCrc32Table buffer len = crc32 (buffer.slice 0 len.toNat) := by
  rw [calcCrc32, calcCrc32Loop_eq]
  rfl

/-! ## Packets -/

/-- `struct TSaveTtl` -/
structure TSaveTtl where
  ttl : UInt8
  check : Nat

/-- `SaveTtlAndChecksum` -/
def saveTtlAndChecksum (ipPacket : Mem) : TSaveTtl := ⟨ipPacket 8, ipPacket.u16 10⟩

/-- `RestoreTtlAndChecksum` -/
def restoreTtlAndChecksum (ipPacket : Mem) (sttl : TSaveTtl) : Mem :=
  (ipPacket.write 8 [sttl.ttl]).write 10 (bigEnd 2 sttl.check)

/-- `PacketCrc32`, with the packet as it leaves it; it asserts that `len` is positive. -/
def packetCrc32 (crcTable : List (BitVec 32)) (ipPacket : Mem) (len : Int) : Option (BitVec 32 × Mem) :=
  if len > 0 then
    let len := if len > crcUptoNbytes then ↑crcUptoNbytes else len
    let sttl := saveTtlAndChecksum ipPacket
    let ipPacket := ipPacket.write 8 [0xff]
    let ipPacket := ipPacket.write 10 [0x5a, 0x5a]
    let result := calcCrc32 crcTable ipPacket len
    some (result, restoreTtlAndChecksum ipPacket sttl)
  else none

/-- The offsets of the TTL and of the header checksum -/
def Volatile (i : Nat) : Prop := i = 8 ∨ i = 10 ∨ i = 11

/-- Copies of a packet as they come from different hops, as far as the CRC looks at them. -/
structure Copies (ipPacket ipPacket' : Mem) (len len' : Int) : Prop where
  clipped : min len crcUptoNbytes = min len' crcUptoNbytes
  bytes : ∀ i : Nat, i < min len crcUptoNbytes → ¬Volatile i → ipPacket i = ipPacket' i

variable {ipPacket ipPacket' : Mem}

theorem bigEnd_u16 (m : Mem) (off : Nat) : bigEnd 2 (m.u16 off) = [m off, m (off + 1)] := by
  have h := Bytes.bigEnd_ofLittleEnd [m (off + 1), m off]
  rw [Bytes.ofLittleEnd, Bytes.ofLittleEnd, Bytes.ofLittleEnd] at h
  rw [Mem.u16, show (m off).toNat * 256 + (m (off + 1)).toNat = (m (off + 1)).toNat + 256 *
    ((m off).toNat + 256 * 0) by ring]
  exact h

/-- What writes to the two fields leave of a packet -/
theorem writeFields_apply (ipPacket : Mem) (b c d : UInt8) (i : Nat) : ((ipPacket.write 8 [b]).write 10 [c, d]) i =
    if i = 8 then b else if i = 10 then c else if i = 11 then d else ipPacket i := by
  rcases Nat.lt_trichotomy i 8 with h | rfl | h
  · rw [Mem.write_apply_out (.inl (by omega)), Mem.write_apply_out (.inl h), if_neg (by omega), if_neg (by omega),
      if_neg (by omega)]
  · rw [Mem.write_apply_out (.inl (by omega)), Mem.write_one, if_pos rfl]
  rw [if_neg (by omega)]
  by_cases h10 : i = 10
  · subst h10
    rfl
  by_cases h11 : i = 11
  · subst h11
    rfl
  rw [if_neg h10, if_neg h11, Mem.write_apply_out, Mem.write_apply_out (.inr (by simp; omega))]
  simp only [List.length_cons, List.length_nil]
  omega

/-- The header gets back what was saved of it. -/
theorem restore_save (ipPacket : Mem) (b c d : UInt8) :
    restoreTtlAndChecksum ((ipPacket.write 8 [b]).write 10 [c, d]) (saveTtlAndChecksum ipPacket) = ipPacket := by
  funext i
  unfold restoreTtlAndChecksum saveTtlAndChecksum
  rw [bigEnd_u16, writeFields_apply]
  split_ifs with h8 h10 h11
  · rw [h8]
  · rw [h10]
  · rw [h11]
  · rw [writeFields_apply, if_neg h8, if_neg h10, if_neg h11]

theorem packetCrc32_eq (crcTable : List (BitVec 32)) (ipPacket : Mem) {len : Int} (hlen : 0 < len) :
    packetCrc32 crcTable ipPacket len =
      some (calcCrc32 crcTable ((ipPacket.write 8 [0xff]).write 10 [0x5a, 0x5a]) (min len crcUptoNbytes),
        ipPacket) := by
  have hclip : (if len > crcUptoNbytes then (crcUptoNbytes : Int) else len) = min len crcUptoNbytes := by
    split <;> omega
  unfold packetCrc32
  rw [if_pos hlen]
  simp only [hclip, restore_save]

/-- A packet is known by the CRC of its first bytes with the two fields blanked, copies of it have one CRC, and it is
computed in place without a trace. -/
theorem packetCrc32_copies :
    (∀ (buffer : Mem) (len : Int), calcCrc32 generateCrc32Table buffer len = crc32 (buffer.slice 0 len.toNat)) ∧
      (∀ (crcTable : List (BitVec 32)) (ipPacket : Mem) (len : Int), 0 < len →
        packetCrc32 crcTable ipPacket len = some (calcCrc32 crcTable ((ipPacket.write 8 [0xff]).write 10 [0x5a, 0x5a])
          (min len crcUptoNbytes), ipPacket)) ∧
      ∀ (crcTable : List (BitVec 32)) (ipPacket ipPacket' : Mem) (len len' : Int), 0 < len → 0 < len' →
        Copies ipPacket ipPacket' len len' → ∃ crc,
          packetCrc32 crcTable ipPacket len = some (crc, ipPacket) ∧
            packetCrc32 crcTable ipPacket' len' = some (crc, ipPacket') := by
  refine ⟨calcCrc32_eq, fun crcTable ipPacket len hlen => packetCrc32_eq crcTable ipPacket hlen,
    fun crcTable ipPacket ipPacket' len len' hlen hlen' hcopies => ?_⟩
  have hbytes : ((ipPacket.write 8 [0xff]).write 10 [0x5a, 0x5a]).slice 0 (min len crcUptoNbytes).toNat =
      ((ipPacket'.write 8 [0xff]).write 10 [0x5a, 0x5a]).slice 0 (min len crcUptoNbytes).toNat := by
    refine Mem.slice_eq_iff.2 fun i hi => ?_
    rw [Nat.zero_add, writeFields_apply, writeFields_apply]
    split_ifs with h8 h10 h11
    · rfl
    · rfl
    · rfl
    · exact hcopies.bytes i (by omega) (by unfold Volatile; omega)
  refine ⟨_, packetCrc32_eq crcTable ipPacket hlen, ?_⟩
  rw [packetCrc32_eq crcTable ipPacket' hlen', ← hcopies.clipped, calcCrc32, calcCrc32, hbytes]

/-- Two copies of a packet, one of which has come one hop further. -/
theorem packetCrc32_copies_ttl : ∃ crc,
    packetCrc32 generateCrc32Table (Mem.write (fun _ => 0) 0 [69, 0, 0, 28, 0, 0, 0, 0, 7, 17, 1, 2]) 28 =
      some (crc, Mem.write (fun _ => 0) 0 [69, 0, 0, 28, 0, 0, 0, 0, 7, 17, 1, 2]) ∧
    packetCrc32 generateCrc32Table (Mem.write (fun _ => 0) 0 [69, 0, 0, 28, 0, 0, 0, 0, 6, 17, 2, 2]) 28 =
      some (crc, Mem.write (fun _ => 0) 0 [69, 0, 0, 28, 0, 0, 0, 0, 6, 17, 2, 2]) := by
  refine packetCrc32_copies.2.2 generateCrc32Table _ _ 28 28 (by decide) (by decide) ⟨rfl, fun i hi hvolatile => ?_⟩
  unfold Volatile at hvolatile
  have hlt : i < 28 := by
    have h : (i : Int) < min 28 256 := hi
    omega
  interval_cases i <;> first | rfl | omega

end Olsrd.Bmf
