/-
The handshake messages of the secure plugin (`secure_messages.h`): their fields, the bytes their signatures
cover, and the fields read from memory. Numbers that the plugin does not convert are in the order of the machine,
and a `time_t` is as large as a pointer.
-/
import Olsrd.Core.Config
import Mathlib.Data.BitVec

namespace Olsrd.Secure

open Bytes

/-! ## What the nodes share -/

/-- `SIGNATURE_SIZE` and `SIGSIZE` -/
def signatureSize : Nat := 16

def keyLength : Nat := 16

/-- The machine, the key and the digest all nodes of a network use. -/
structure Scheme where
  platform : Platform
  /-- `CHECKSUM` -/
  checksum : List UInt8 → List UInt8
  aesKey : List UInt8
  length_aesKey : aesKey.length = keyLength

/-- A digest without collisions, and a key of zeros. -/
def pairScheme : Scheme := ⟨⟨true, 8⟩, id, List.replicate keyLength 0, List.length_replicate⟩

def typeChallenge : UInt8 := 11

def typeCResponse : UInt8 := 12

def typeRResponse : UInt8 := 13

end Olsrd.Secure

namespace Olsrd.Platform

open Bytes

/-- The bytes of a number that no `htonl` converts. -/
def hostEnd (platform : Platform) (n v : Nat) : List UInt8 :=
  if platform.littleEndian then littleEnd n v else bigEnd n v

def ofHostEnd (platform : Platform) (bs : List UInt8) : Nat :=
  if platform.littleEndian then ofLittleEnd bs else ofLittleEnd bs.reverse

/-- Where a member comes to lie that the compiler aligns like a `time_t`. -/
def alignUp (platform : Platform) (off : Nat) : Nat :=
  (off + platform.sizeofPtr - 1) / platform.sizeofPtr * platform.sizeofPtr

def timeBytes (platform : Platform) (t : Int) : List UInt8 :=
  platform.hostEnd platform.sizeofPtr (t % (256 ^ platform.sizeofPtr : Nat)).toNat

def readTime (platform : Platform) (bs : List UInt8) : Int :=
  Int.bmod (platform.ofHostEnd bs) (256 ^ platform.sizeofPtr)

@[simp] theorem length_hostEnd (platform : Platform) (n v : Nat) : (platform.hostEnd n v).length = n := by
  unfold hostEnd; split <;> simp

theorem hostEnd_inj {platform : Platform} {n v w : Nat} (hv : v < 256 ^ n) (hw : w < 256 ^ n)
    (h : platform.hostEnd n v = platform.hostEnd n w) : v = w := by
  unfold hostEnd at h
  split at h
  · exact littleEnd_inj hv hw h
  · exact littleEnd_inj hv hw (List.reverse_inj.1 h)

@[simp] theorem length_timeBytes (platform : Platform) (t : Int) :
    (platform.timeBytes t).length = platform.sizeofPtr := by
  simp [timeBytes]

theorem hostEnd_ofHostEnd (platform : Platform) (bs : List UInt8) :
    platform.hostEnd bs.length (platform.ofHostEnd bs) = bs := by
  unfold hostEnd ofHostEnd
  split
  · exact littleEnd_ofLittleEnd bs
  · have h := littleEnd_ofLittleEnd bs.reverse
    rw [List.length_reverse] at h
    rw [bigEnd, h, List.reverse_reverse]

theorem ofHostEnd_lt (platform : Platform) (bs : List UInt8) : platform.ofHostEnd bs < 256 ^ bs.length := by
  unfold ofHostEnd
  split
  · exact ofLittleEnd_lt bs
  · simpa using ofLittleEnd_lt bs.reverse

theorem timeBytes_readTime {platform : Platform} {bs : List UInt8} (h : bs.length = platform.sizeofPtr) :
    platform.timeBytes (platform.readTime bs) = bs := by
  have hlt := platform.ofHostEnd_lt bs
  rw [h] at hlt
  have hmod : (platform.readTime bs % (256 ^ platform.sizeofPtr : Nat)).toNat = platform.ofHostEnd bs := by
    rw [readTime, Int.bmod_emod, Int.emod_eq_of_lt (by omega) (by exact_mod_cast hlt), Int.toNat_natCast]
  rw [timeBytes, hmod, ← h, hostEnd_ofHostEnd]

end Olsrd.Platform

namespace Olsrd.Secure

open Bytes

/-! ## Messages -/

/-- What every message starts with; `olsr_msgsize` and `seqno` as the numbers they stand for. -/
structure Header where
  olsrMsgtype : UInt8
  olsrVtime : UInt8
  olsrMsgsize : BitVec 16
  originator : IpAddr
  ttl : UInt8
  hopcnt : UInt8
  seqno : BitVec 16
  deriving DecidableEq

def Header.bytes (h : Header) : List UInt8 :=
  [h.olsrMsgtype, h.olsrVtime] ++ bigEnd 2 h.olsrMsgsize.toNat ++ h.originator ++ [h.ttl, h.hopcnt] ++
    bigEnd 2 h.seqno.toNat

/-- `struct challengemsg`; `challenge` is what `ntohl` makes of the field. -/
structure ChallengeMsg extends Header where
  destination : IpAddr
  challenge : BitVec 32
  signature : List UInt8
  deriving DecidableEq

/-- `struct c_respmsg`, with the bytes the compiler leaves before `timestamp` -/
structure CRespMsg extends Header where
  destination : IpAddr
  challenge : BitVec 32
  padding : List UInt8
  timestamp : Int
  resSig : List UInt8
  signature : List UInt8
  deriving DecidableEq

/-- `struct r_respmsg` -/
structure RRespMsg extends Header where
  destination : IpAddr
  timestamp : Int
  resSig : List UInt8
  signature : List UInt8
  deriving DecidableEq

def sizeofChallengeMsg : Nat := 36

/-- The offset of `timestamp` in `struct c_respmsg` -/
def cRespTimestamp (platform : Platform) : Nat := platform.alignUp 20

def sizeofCRespMsg (platform : Platform) : Nat := cRespTimestamp platform + platform.sizeofPtr + 2 * signatureSize

def sizeofRRespMsg (platform : Platform) : Nat := 16 + platform.sizeofPtr + 2 * signatureSize

/-- The message without its signature. -/
def ChallengeMsg.covered (m : ChallengeMsg) : List UInt8 :=
  m.toHeader.bytes ++ m.destination ++ bigEnd 4 m.challenge.toNat

def CRespMsg.covered (platform : Platform) (m : CRespMsg) : List UInt8 :=
  m.toHeader.bytes ++ m.destination ++ bigEnd 4 m.challenge.toNat ++ m.padding ++ platform.timeBytes
    m.timestamp ++ m.resSig

def RRespMsg.covered (platform : Platform) (m : RRespMsg) : List UInt8 :=
  m.toHeader.bytes ++ m.destination ++ platform.timeBytes m.timestamp ++ m.resSig

/-! ## Signatures -/

/-- The digest that ends a message: over the message and the key. -/
def Scheme.sign (scheme : Scheme) (covered : List UInt8) : List UInt8 :=
  scheme.checksum (covered ++ scheme.aesKey)

/-- The digest that answers a challenge: over the challenge, as the machine stores it, and the address. -/
def Scheme.answer (scheme : Scheme) (challenge : BitVec 32) (ip : IpAddr) : List UInt8 :=
  scheme.checksum (scheme.platform.hostEnd 4 challenge.toNat ++ ip)

theorem Scheme.answer_inj {scheme : Scheme} (hsum : Function.Injective scheme.checksum) {c c' : BitVec 32}
    {ip ip' : IpAddr} (h : scheme.answer c ip = scheme.answer c' ip') : c = c' ∧ ip = ip' := by
  obtain ⟨hchallenge, hip⟩ := List.append_inj (hsum h) (by simp)
  have hlt : ∀ x : BitVec 32, x.toNat < 256 ^ 4 := fun x => x.isLt
  exact ⟨BitVec.eq_of_toNat_eq (Platform.hostEnd_inj (hlt c) (hlt c') hchallenge), hip⟩

/-! ## Messages in memory -/

def readHeader (mem : Mem) (off : Nat) : Header where
  olsrMsgtype := mem off
  olsrVtime := mem (off + 1)
  olsrMsgsize := BitVec.ofNat 16 (ofLittleEnd (mem.slice (off + 2) 2).reverse)
  originator := mem.slice (off + 4) 4
  ttl := mem (off + 8)
  hopcnt := mem (off + 9)
  seqno := BitVec.ofNat 16 (ofLittleEnd (mem.slice (off + 10) 2).reverse)

def readChallengeMsg (mem : Mem) (off : Nat) : ChallengeMsg where
  toHeader := readHeader mem off
  destination := mem.slice (off + 12) 4
  challenge := BitVec.ofNat 32 (ofLittleEnd (mem.slice (off + 16) 4).reverse)
  signature := mem.slice (off + 20) signatureSize

def readCRespMsg (platform : Platform) (mem : Mem) (off : Nat) : CRespMsg where
  toHeader := readHeader mem off
  destination := mem.slice (off + 12) 4
  challenge := BitVec.ofNat 32 (ofLittleEnd (mem.slice (off + 16) 4).reverse)
  padding := mem.slice (off + 20) (cRespTimestamp platform - 20)
  timestamp := platform.readTime (mem.slice (off + cRespTimestamp platform) platform.sizeofPtr)
  resSig := mem.slice (off + (cRespTimestamp platform + platform.sizeofPtr)) signatureSize
  signature := mem.slice (off + (cRespTimestamp platform + platform.sizeofPtr + signatureSize)) signatureSize

def readRRespMsg (platform : Platform) (mem : Mem) (off : Nat) : RRespMsg where
  toHeader := readHeader mem off
  destination := mem.slice (off + 12) 4
  timestamp := platform.readTime (mem.slice (off + 16) platform.sizeofPtr)
  resSig := mem.slice (off + (16 + platform.sizeofPtr)) signatureSize
  signature := mem.slice (off + (16 + platform.sizeofPtr + signatureSize)) signatureSize

theorem bigEnd_read {n w : Nat} (hw : 2 ^ w = 256 ^ n) {bs : List UInt8} (hlen : bs.length = n) :
    bigEnd n (BitVec.ofNat w (ofLittleEnd bs.reverse)).toNat = bs := by
  have hlt := ofLittleEnd_lt bs.reverse
  rw [List.length_reverse, hlen, ← hw] at hlt
  have hbytes := littleEnd_ofLittleEnd bs.reverse
  rw [List.length_reverse, hlen] at hbytes
  rw [BitVec.toNat_ofNat, Nat.mod_eq_of_lt hlt, bigEnd, hbytes, List.reverse_reverse]

theorem bytes_readHeader (mem : Mem) (off : Nat) : (readHeader mem off).bytes = mem.slice off 12 := by
  have hsize := bigEnd_read (n := 2) (w := 16) (by norm_num) (mem.length_slice (off + 2) 2)
  have hseqno := bigEnd_read (n := 2) (w := 16) (by norm_num) (mem.length_slice (off + 10) 2)
  rw [Header.bytes, readHeader, hsize, hseqno, Mem.slice_add mem off 10 2, Mem.slice_add mem off 8 2,
    Mem.slice_add mem off 4 4, Mem.slice_add mem off 2 2]
  simp [Mem.slice, List.range_succ]

/-- A challenge read from memory is signed over the bytes that lie there. -/
theorem covered_readChallengeMsg (mem : Mem) (off : Nat) : (readChallengeMsg mem off).covered = mem.slice off 20 := by
  have hchallenge := bigEnd_read (n := 4) (w := 32) (by norm_num) (mem.length_slice (off + 16) 4)
  rw [ChallengeMsg.covered, readChallengeMsg, hchallenge, bytes_readHeader, Mem.slice_add mem off 16 4,
    Mem.slice_add mem off 12 4]

theorem covered_readCRespMsg {platform : Platform} (hpad : 20 ≤ cRespTimestamp platform) (mem : Mem) (off : Nat) :
    (readCRespMsg platform mem off).covered platform = mem.slice off (sizeofCRespMsg platform - signatureSize) := by
  have hchallenge := bigEnd_read (n := 4) (w := 32) (by norm_num) (mem.length_slice (off + 16) 4)
  have htime := Platform.timeBytes_readTime (mem.length_slice (off + cRespTimestamp platform) platform.sizeofPtr)
  have hsize : sizeofCRespMsg platform - signatureSize =
      cRespTimestamp platform + platform.sizeofPtr + signatureSize := by
    unfold sizeofCRespMsg; omega
  have hstart : cRespTimestamp platform = 20 + (cRespTimestamp platform - 20) := by omega
  rw [CRespMsg.covered, readCRespMsg, hchallenge, bytes_readHeader, htime, hsize, Mem.slice_add mem off _ signatureSize,
    Mem.slice_add mem off _ platform.sizeofPtr]
  conv_rhs => rw [hstart, Mem.slice_add mem off 20, Mem.slice_add mem off 16 4, Mem.slice_add mem off 12 4, ← hstart]

theorem covered_readRRespMsg (platform : Platform) (mem : Mem) (off : Nat) :
    (readRRespMsg platform mem off).covered platform = mem.slice off (sizeofRRespMsg platform - signatureSize) := by
  have htime := Platform.timeBytes_readTime (mem.length_slice (off + 16) platform.sizeofPtr)
  have hsize : sizeofRRespMsg platform - signatureSize = 16 + platform.sizeofPtr + signatureSize := by
    unfold sizeofRRespMsg; omega
  rw [RRespMsg.covered, readRRespMsg, bytes_readHeader, htime, hsize, Mem.slice_add mem off _ signatureSize,
    Mem.slice_add mem off _ platform.sizeofPtr, Mem.slice_add mem off 12 4]

end Olsrd.Secure
