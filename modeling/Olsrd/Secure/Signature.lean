/-
The signature message that the secure plugin appends to a packet (`struct s_olsrmsg`): `add_signature` writes it,
`validate_packet` checks it. Both collect what they digest in a `checksum_cache` of fixed size; a function that
leaves this array, or the output buffer, has no result.
-/
import Olsrd.Secure.Handshake

namespace Olsrd.Secure

open Bytes

/-! ## Layout -/

/-- `MESSAGE_TYPE` -/
def messageType : UInt8 := 10

def oneChecksum : UInt8 := 1

/-- `SCHEME`, which is `MD5_INCLUDING_KEY` -/
def schemeId : UInt8 := 2

def checksumCacheSize : Nat := 512 + keyLength

section Layout

variable (platform : Platform)

/-- The offset of `sig` in `struct s_olsrmsg` -/
def sigOffset : Nat := platform.alignUp 12

def sigTimestamp : Nat := sigOffset platform + platform.alignUp 4

def sigSignature : Nat := sigTimestamp platform + platform.sizeofPtr

def sizeofSOlsrmsg : Nat := sigSignature platform + signatureSize

/-- `htonl`, and `ntohl` as well -/
def htonl (n : Nat) : Nat := if platform.littleEndian then ofLittleEnd (bigEnd 4 n) else n % 4294967296

end Layout

/-! ## Signing and checking -/

section Functions

variable (scheme : Scheme) (host : Host) (clock : Clock) (draw : Draw)

/-- The digest over the first `n` bytes of a packet and the key, if the cache holds both. -/
def digestOf (pck : Mem) (n : Nat) : Option (List UInt8) :=
  if n + keyLength ≤ checksumCacheSize then some (scheme.sign (pck.slice 0 n)) else none

/-- The signature message up to its digest. -/
def writeSignature (pck : Mem) (size : Nat) : Mem :=
  let platform := scheme.platform
  let pck := pck.write 0 (bigEnd 2 (size + sizeofSOlsrmsg platform))
  let pck := pck.write size ([messageType, 0] ++ bigEnd 2 (sizeofSOlsrmsg platform) ++ host.mainAddr ++ [1, 0] ++
    bigEnd 2 draw.msgSeqno.toNat)
  let pck := pck.write (size + sigOffset platform) [oneChecksum, schemeId, 0, 0]
  pck.write (size + sigTimestamp platform)
    (platform.hostEnd platform.sizeofPtr (htonl platform (clock.now % 4294967296).toNat))

/-- `add_signature` on an output buffer of `bufsize` bytes: the buffer and the new size. -/
def addSignature (bufsize : Nat) (pck : Mem) (size : Nat) : Option (Mem × Nat) :=
  if bufsize < size + sizeofSOlsrmsg scheme.platform then none
  else
    let pck := writeSignature scheme host clock draw pck size
    (digestOf scheme pck (size + sigSignature scheme.platform)).map fun digest =>
      (pck.write (size + sigSignature scheme.platform) digest, size + sizeofSOlsrmsg scheme.platform)

/-- The sanity check of `validate_packet`, and its check of the type: a wrong algorithm only ends the inner
`switch`, so the digest is looked at all the same. -/
def Sane (platform : Platform) (pck : Mem) (size : Nat) : Prop :=
  sizeofSOlsrmsg platform + 4 ≤ size ∧ pck (size - sizeofSOlsrmsg platform) = messageType ∧
    pck (size - sizeofSOlsrmsg platform + 1) = 0 ∧
    pck.u16 (size - sizeofSOlsrmsg platform + 2) = sizeofSOlsrmsg platform ∧
    pck (size - sizeofSOlsrmsg platform + 8) = 1 ∧ pck (size - sizeofSOlsrmsg platform + 9) = 0 ∧
    pck (size - sizeofSOlsrmsg platform + sigOffset platform) = oneChecksum

instance (platform : Platform) (pck : Mem) (size : Nat) : Decidable (Sane platform pck size) :=
  instDecidableAnd

/-- `ntohl(sig->sig.timestamp)` as a `time_t` -/
def recTime (platform : Platform) (pck : Mem) (sig : Nat) : Int :=
  let timestamp := platform.ofHostEnd (pck.slice (sig + sigTimestamp platform) platform.sizeofPtr)
  Int.bmod (htonl platform (timestamp % 4294967296)) (256 ^ platform.sizeofPtr)

/-- `validate_packet`: what happens to the table, and the new size. -/
def validatePacket (pck : Mem) (size : Nat) (stamps : List Stamp) : Option (Outcome × Nat) :=
  let sig := size - sizeofSOlsrmsg scheme.platform
  if ¬Sane scheme.platform pck size then some (.fail stamps, size)
  else (digestOf scheme pck (size - signatureSize)).map fun digest =>
    if digest ≠ pck.slice (size - signatureSize) signatureSize then (.fail stamps, size)
    else
      let res := checkTimestamp scheme host clock draw (pck.slice (sig + 4) 4) (recTime scheme.platform pck sig) stamps
      (res, if res.ok then sig else size)

/-! ## The preprocessor -/

/-- The handshake message that a packet begins with, if it does. -/
def readMsg (platform : Platform) (pck : Mem) (off : Nat) : Option Msg :=
  if pck off = typeChallenge then some (.challenge (readChallengeMsg pck off))
  else if pck off = typeCResponse then some (.cres (readCRespMsg platform pck off))
  else if pck off = typeRResponse then some (.rres (readRRespMsg platform pck off))
  else none

/-- `check_auth` -/
def checkAuthPacket (pck : Mem) (stamps : List Stamp) : Outcome :=
  match readMsg scheme.platform pck 4 with
  | some msg => checkAuth scheme host clock draw msg stamps
  | none => .fail stamps

/-- The header that `secure_preprocessor` fixes. -/
def fixHeader (pck : Mem) (size : Nat) : Mem := pck.write 0 (bigEnd 2 size)

/-- What `secure_preprocessor` returns, `none` being `NULL`, and what it leaves behind. -/
structure Preprocessed where
  packet : Option (Mem × Nat)
  stamps : List Stamp
  sent : List Msg

/-- `secure_preprocessor`; `draw` is for `check_auth` and `draw'` for `validate_packet`. -/
def securePreprocessor (draw' : Draw) (pck : Mem) (size : Nat) (stamps : List Stamp) : Option Preprocessed :=
  let auth := checkAuthPacket scheme host clock draw pck stamps
  (validatePacket scheme host clock draw' pck size auth.stamps).map fun (res, size) =>
    ⟨if res.ok then some (fixHeader pck size, size) else none, res.stamps, auth.sent ++ res.sent⟩

end Functions

end Olsrd.Secure
