/-
What a packet without a valid signature leaves behind: which packets `secure_preprocessor` rejects with the
timestamp table as it was.
-/
import Olsrd.Secure.Signature

namespace Olsrd.Secure

open Bytes
open Timers (olsrIsTimedOut)

/-! ## Signatures of a packet -/

/-- A handshake message ends in the digest of what comes before and the key. -/
def Msg.Signed (scheme : Scheme) : Msg → Prop
  | .challenge msg => scheme.sign msg.covered = msg.signature
  | .cres msg => scheme.sign (msg.covered scheme.platform) = msg.signature
  | .rres msg => scheme.sign (msg.covered scheme.platform) = msg.signature

section Packet

variable (scheme : Scheme) (pck : Mem) (size : Nat)

/-- The packet ends in a signature message with the digest of what comes before and the key. -/
def SignatureVerifies : Prop :=
  Sane scheme.platform pck size ∧
    scheme.sign (pck.slice 0 (size - signatureSize)) = pck.slice (size - signatureSize) signatureSize

/-- Neither the handshake message nor the packet is signed. -/
structure Unauthenticated : Prop where
  handshake : ∀ msg, readMsg scheme.platform pck 4 = some msg → ¬msg.Signed scheme
  packet : ¬SignatureVerifies scheme pck size

/-- The packet begins with a challenge for this node from a node that has no entry. -/
def Registers (host : Host) (stamps : List Stamp) : Prop :=
  pck 4 = typeChallenge ∧ pck.slice 16 4 ∈ host.ifAddrs ∧ lookupTimestampEntry (pck.slice 8 4) stamps = none

/-- The packet is longer than the array `validate_packet` copies it to. -/
def Overruns : Prop := Sane scheme.platform pck size ∧ checksumCacheSize < size

instance : Decidable (Overruns scheme pck size) := instDecidableAnd

end Packet

variable {scheme : Scheme} {host : Host} {clock : Clock} {draw draw' : Draw} {pck : Mem} {size : Nat}
  {stamps : List Stamp}

/-! ## The handlers -/

theorem acceptChallenge_unsigned {msg : ChallengeMsg} (h : ¬(Msg.challenge msg).Signed scheme) :
    acceptChallenge scheme host clock draw msg stamps = .fail stamps := by
  exact if_pos h

theorem parseResponse_unsigned {msg : Response} (h : scheme.sign msg.covered ≠ msg.signature) :
    parseResponse scheme host clock msg stamps = .fail stamps := by
  unfold parseResponse
  by_cases hdest : msg.destination ∉ host.ifAddrs
  · exact if_pos hdest
  · rw [if_neg hdest, if_pos h]

/-- Only an unknown node's challenge leaves an entry before its signature is looked at. -/
theorem parseChallenge_unsigned {msg : ChallengeMsg} (h : ¬(Msg.challenge msg).Signed scheme) :
    (parseChallenge scheme host clock draw msg stamps).stamps =
      if msg.destination ∈ host.ifAddrs ∧ lookupTimestampEntry msg.originator stamps = none then
        { draw.malloc with addr := msg.originator } :: stamps
      else stamps := by
  unfold parseChallenge
  by_cases hdest : msg.destination ∈ host.ifAddrs
  · rw [if_neg (not_not.2 hdest)]
    cases hentry : lookupTimestampEntry msg.originator stamps with
    | none => rw [if_pos ⟨hdest, rfl⟩]; simp only [acceptChallenge_unsigned h, Outcome.fail]
    | some entry =>
      rw [if_neg (by simp)]
      simp only [acceptChallenge_unsigned h]
      split <;> rfl
  · rw [if_pos hdest, if_neg fun h => hdest h.1]
    rfl

theorem checkAuthPacket_unsigned (host : Host) (clock : Clock) (draw : Draw) (stamps : List Stamp)
    (h : ∀ msg, readMsg scheme.platform pck 4 = some msg → ¬msg.Signed scheme) :
    (Registers pck host stamps ∧
      ∃ entry, (checkAuthPacket scheme host clock draw pck stamps).stamps = entry :: stamps) ∨
      (¬Registers pck host stamps ∧ (checkAuthPacket scheme host clock draw pck stamps).stamps = stamps) := by
  unfold checkAuthPacket
  cases hmsg : readMsg scheme.platform pck 4 with
  | none =>
    refine .inr ⟨fun hreg => ?_, rfl⟩
    rw [readMsg, if_pos hreg.1] at hmsg
    cases hmsg
  | some msg =>
    have hunsigned := h msg hmsg
    unfold readMsg at hmsg
    split at hmsg
    · next htype =>
      obtain rfl := Option.some.inj hmsg
      simp only [checkAuth, parseChallenge_unsigned hunsigned]
      by_cases hcond : (readChallengeMsg pck 4).destination ∈ host.ifAddrs ∧
          lookupTimestampEntry (readChallengeMsg pck 4).originator stamps = none
      · rw [if_pos hcond]
        exact .inl ⟨⟨htype, hcond⟩, _, rfl⟩
      · rw [if_neg hcond]
        exact .inr ⟨fun hreg => hcond hreg.2, rfl⟩
    · next htype =>
      refine .inr ⟨fun hreg => htype hreg.1, ?_⟩
      split at hmsg
      · obtain rfl := Option.some.inj hmsg
        have hfail : parseResponse scheme host clock
          ((readCRespMsg scheme.platform pck 4).response scheme.platform) stamps =
            .fail stamps := parseResponse_unsigned hunsigned
        simp [checkAuth, parseCres, hfail, Outcome.fail]
      · split at hmsg
        · obtain rfl := Option.some.inj hmsg
          have hfail : parseResponse scheme host clock
            ((readRRespMsg scheme.platform pck 4).response scheme.platform) stamps =
              .fail stamps := parseResponse_unsigned hunsigned
          simp [checkAuth, parseRres, hfail, Outcome.fail]
        · cases hmsg

theorem digestOf_eq_none {n : Nat} : digestOf scheme pck n = none ↔ checksumCacheSize < n + keyLength := by
  unfold digestOf
  split
  · next h => exact iff_of_false (by simp) (not_lt.2 h)
  · next h => exact iff_of_true rfl (not_le.1 h)

theorem digestOf_eq_some {n : Nat} {digest : List UInt8} (h : digestOf scheme pck n = some digest) :
    digest = scheme.sign (pck.slice 0 n) := by
  unfold digestOf at h
  split at h
  · exact (Option.some.inj h).symm
  · cases h

/-- A packet that is not signed fails before its time stamp is looked at, if it does not leave the cache. -/
theorem validatePacket_unsigned (h : ¬SignatureVerifies scheme pck size) :
    validatePacket scheme host clock draw pck size stamps =
      if Overruns scheme pck size then none else some (.fail stamps, size) := by
  unfold validatePacket
  by_cases hsane : Sane scheme.platform pck size
  · have hsize : size - signatureSize + keyLength = size := by
      have := hsane.1
      unfold sizeofSOlsrmsg signatureSize at *
      unfold keyLength
      omega
    rw [if_neg (not_not.2 hsane)]
    cases hdigest : digestOf scheme pck (size - signatureSize) with
    | none =>
      rw [digestOf_eq_none, hsize] at hdigest
      rw [if_pos ⟨hsane, hdigest⟩]
      rfl
    | some digest =>
      have hin : ¬checksumCacheSize < size := fun hover => by
        rw [digestOf_eq_none.2 (hsize.symm ▸ hover)] at hdigest
        cases hdigest
      rw [if_neg fun hover => hin hover.2, Option.map_some, if_pos]
      rw [digestOf_eq_some hdigest]
      exact fun heq => h ⟨hsane, heq⟩
  · rw [if_pos hsane, if_neg fun hover => hsane hover.1]

/-! ## The preprocessor -/

/-- A packet without a valid signature is rejected and leaves no trace, unless it is a challenge from an unknown node
or runs over the array it is digested in. -/
theorem securePreprocessor_traceless_iff (h : Unauthenticated scheme pck size) :
    (∃ res, securePreprocessor scheme host clock draw draw' pck size stamps = some res ∧ res.packet = none ∧
        res.stamps = stamps) ↔
      ¬Registers pck host stamps ∧ ¬Overruns scheme pck size := by
  unfold securePreprocessor
  simp only [validatePacket_unsigned h.packet]
  by_cases hover : Overruns scheme pck size
  · rw [if_pos hover]
    simp [hover]
  · rw [if_neg hover]
    rcases checkAuthPacket_unsigned host clock draw stamps h.handshake with
      ⟨hreg, entry, hauth⟩ | ⟨hreg, hauth⟩
    · simp [hreg, hauth, Outcome.fail]
    · simp [hreg, hover, hauth, Outcome.fail]

/-- A challenge of 10.0.0.2 for 10.0.0.1 with a signature of zeros, the only message of its packet. -/
def unsignedChallenge : Mem := fun i =>
  [0, 40, 0, 1, 11, 0, 0, 36, 10, 0, 0, 2, 1, 0, 0, 1, 10, 0, 0, 1, 0, 0, 0, 5].getD i 0

/-- The digest of that challenge with a key of zeros. -/
def challengeDigest : List UInt8 := [52, 167, 215, 197, 187, 43, 218, 230, 13, 152, 22, 242, 63, 90, 20, 45]

theorem unauthenticated_unsignedChallenge :
    Unauthenticated ⟨⟨true, 8⟩, fun _ => challengeDigest, List.replicate 16 0, rfl⟩ unsignedChallenge 40 := by
  refine ⟨fun msg hmsg hsigned => ?_, fun hverifies => absurd hverifies.1 (by decide)⟩
  obtain rfl := Option.some.inj hmsg
  exact absurd (show challengeDigest = List.replicate 16 0 from hsigned) (by decide)

/-- The node 10.0.0.3 has no use for this challenge. -/
theorem securePreprocessor_traceless_challenge :
    ∃ res, securePreprocessor ⟨⟨true, 8⟩, fun _ => challengeDigest, List.replicate 16 0, rfl⟩
      ⟨[10, 0, 0, 3], [[10, 0, 0, 3]]⟩ ⟨1000, 0⟩ ⟨0, 0, 0, ⟨[], 0, 0, 0, 0, 0⟩, []⟩ ⟨0, 0, 0, ⟨[], 0, 0, 0, 0, 0⟩, []⟩
      unsignedChallenge 40 [] = some res ∧ res.packet = none ∧ res.stamps = [] :=
  (securePreprocessor_traceless_iff unauthenticated_unsignedChallenge).2
    ⟨fun hreg => absurd hreg.2.1 (by decide), fun hover => absurd hover.2 (by decide)⟩

/-- The node it is for makes an entry of the memory it got: here one that counts as validated. -/
theorem unsignedChallenge_registers :
    Unauthenticated ⟨⟨true, 8⟩, fun _ => challengeDigest, List.replicate 16 0, rfl⟩ unsignedChallenge 40 ∧
      (securePreprocessor ⟨⟨true, 8⟩, fun _ => challengeDigest, List.replicate 16 0, rfl⟩
        ⟨[10, 0, 0, 1], [[10, 0, 0, 1]]⟩ ⟨1000, 0⟩ ⟨0, 0, 0, ⟨[], 7, 9, 1, 0, 0⟩, []⟩ ⟨0, 0, 0, ⟨[], 0, 0, 0, 0, 0⟩, []⟩
        unsignedChallenge 40 []).map Preprocessed.stamps = some [⟨[10, 0, 0, 2], 7, 9, 1, 0, 0⟩] :=
  ⟨unauthenticated_unsignedChallenge, by decide⟩

end Olsrd.Secure
