/-
Signing and checking fit together: what `add_signature` makes of a packet, `validate_packet` of a node with the same
key takes apart again, as long as the signed packet fits the output buffer and the `checksum_cache`.
-/
import Olsrd.Secure.Traceless

namespace Olsrd.Secure

open Bytes

/-! ## The layout on the machines there are -/

/-- A machine of 32 or 64 bits. -/
def TimeSized (platform : Platform) : Prop := platform.sizeofPtr = 4 ∨ platform.sizeofPtr = 8

theorem TimeSized.layout {platform : Platform} (h : TimeSized platform) :
    12 ≤ sigOffset platform ∧ sigOffset platform + 4 ≤ sigTimestamp platform ∧ sizeofSOlsrmsg platform ≤ 48 := by
  unfold sizeofSOlsrmsg sigSignature sigTimestamp sigOffset Platform.alignUp signatureSize
  rcases h with h | h <;> rw [h] <;> decide

theorem htonl_htonl (platform : Platform) {n : Nat} (h : n < 4294967296) : htonl platform (htonl platform n) = n := by
  unfold htonl
  split
  · have hbytes := bigEnd_ofLittleEnd (bigEnd 4 n)
    rw [length_bigEnd] at hbytes
    rw [hbytes, bigEnd, List.reverse_reverse, ofLittleEnd_littleEnd]
    exact Nat.mod_eq_of_lt h
  · rw [Nat.mod_mod, Nat.mod_eq_of_lt h]

theorem htonl_lt (platform : Platform) (n : Nat) : htonl platform n < 4294967296 := by
  unfold htonl
  split
  · simpa using ofLittleEnd_lt (bigEnd 4 n)
  · omega

theorem ofHostEnd_hostEnd (platform : Platform) (n v : Nat) :
    platform.ofHostEnd (platform.hostEnd n v) = v % 256 ^ n := by
  unfold Platform.ofHostEnd Platform.hostEnd
  split
  · exact ofLittleEnd_littleEnd n v
  · rw [bigEnd, List.reverse_reverse, ofLittleEnd_littleEnd]

/-! ## The signed packet -/

section

variable {scheme : Scheme} {host : Host} {clock : Clock} {draw : Draw} {pck rcv : Mem} {size : Nat}

/-- The signature message as a receiver reads it. -/
structure SignedAs (scheme : Scheme) (host : Host) (clock : Clock) (pck rcv : Mem) (size : Nat) : Prop where
  sane : Sane scheme.platform rcv (size + sizeofSOlsrmsg scheme.platform)
  originator : rcv.slice (size + 4) 4 = host.mainAddr
  timestamp : recTime scheme.platform rcv size =
    Int.bmod (clock.now % 4294967296) (256 ^ scheme.platform.sizeofPtr)
  body : rcv.slice 2 (size - 2) = pck.slice 2 (size - 2)

/-- The first twelve bytes of the signature message. -/
def sigHead (scheme : Scheme) (host : Host) (draw : Draw) : List UInt8 :=
  [messageType, 0] ++ bigEnd 2 (sizeofSOlsrmsg scheme.platform) ++ host.mainAddr ++ [1, 0] ++
    bigEnd 2 draw.msgSeqno.toNat

variable (scheme draw) in
theorem length_sigHead (haddr : host.mainAddr.length = 4) : (sigHead scheme host draw).length = 12 := by
  simp [sigHead, haddr]

variable (host clock draw pck) in
/-- What of the packet the writes of the signature message leave alone, and what they put where. -/
theorem writeSignature_slices (hplat : TimeSized scheme.platform) (haddr : host.mainAddr.length = 4)
    (hsize : 4 ≤ size) : (writeSignature scheme host clock draw pck size).slice 2 (size - 2) = pck.slice 2 (size - 2) ∧
      (writeSignature scheme host clock draw pck size).slice size 12 = sigHead scheme host draw ∧
      (writeSignature scheme host clock draw pck size).slice (size + sigOffset scheme.platform) 4 =
        [oneChecksum, schemeId, 0, 0] ∧
      (writeSignature scheme host clock draw pck size).slice (size + sigTimestamp scheme.platform)
          scheme.platform.sizeofPtr =
        scheme.platform.hostEnd scheme.platform.sizeofPtr (htonl scheme.platform (clock.now % 4294967296).toNat) := by
  obtain ⟨hoffset, htimestamp, -⟩ := hplat.layout
  have hlen := length_sigHead scheme draw haddr
  have hsub : sigHead scheme host draw = [messageType, 0] ++ bigEnd 2 (sizeofSOlsrmsg scheme.platform) ++
    host.mainAddr ++ [1, 0] ++ bigEnd 2 draw.msgSeqno.toNat := rfl
  unfold writeSignature
  simp only [← hsub]
  refine ⟨?_, ?_, ?_, ?_⟩
  · rw [Mem.slice_write_out (by omega), Mem.slice_write_out (by omega), Mem.slice_write_out (by omega),
      Mem.slice_write_out (by simp)]
  · rw [Mem.slice_write_out (by omega), Mem.slice_write_out (by omega), ← hlen, Mem.slice_write]
  · rw [Mem.slice_write_out (by omega)]
    exact Mem.slice_write _ _ [oneChecksum, schemeId, 0, 0]
  · have h := Mem.slice_write ((((pck.write 0 (bigEnd 2 (size + sizeofSOlsrmsg scheme.platform))).write size
      (sigHead scheme host draw)).write (size + sigOffset scheme.platform) [oneChecksum, schemeId, 0, 0]))
      (size + sigTimestamp scheme.platform)
      (scheme.platform.hostEnd scheme.platform.sizeofPtr (htonl scheme.platform (clock.now % 4294967296).toNat))
    rwa [Platform.length_hostEnd] at h

/-- The bytes of the signature message lie where they were written. -/
theorem signedAs_of_written (hplat : TimeSized scheme.platform) (haddr : host.mainAddr.length = 4) (hsize : 4 ≤ size)
    (hrcv : rcv.slice 0 (size + sigSignature scheme.platform) =
      (writeSignature scheme host clock draw pck size).slice 0 (size + sigSignature scheme.platform)) :
    SignedAs scheme host clock pck rcv size := by
  obtain ⟨hoffset, htimestamp, hlayout⟩ := hplat.layout
  have hend : sigTimestamp scheme.platform + scheme.platform.sizeofPtr = sigSignature scheme.platform := rfl
  have hslice : ∀ off n, off + n ≤ size + sigSignature scheme.platform →
      rcv.slice off n = (writeSignature scheme host clock draw pck size).slice off n := by
    intro off n hoff
    refine Mem.slice_eq_iff.2 fun i hi => ?_
    simpa using Mem.slice_eq_iff.1 hrcv (off + i) (by omega)
  obtain ⟨hbody, hhead, hsig, htime⟩ := writeSignature_slices host clock draw pck hplat haddr hsize
  rw [← hslice _ _ (by omega)] at hbody hhead hsig htime
  have hbyte : ∀ i, i < 12 → (sigHead scheme host draw)[i]? = some (rcv (size + i)) :=
    fun i hi => Mem.getElem?_of_slice hhead hi
  have hword : bigEnd 2 (sizeofSOlsrmsg scheme.platform) = [0, UInt8.ofNat (sizeofSOlsrmsg scheme.platform)] := by
    have hhigh : sizeofSOlsrmsg scheme.platform / 256 = 0 := by omega
    simp [bigEnd, littleEnd, hhigh]
  have hstart : size + sizeofSOlsrmsg scheme.platform - sizeofSOlsrmsg scheme.platform = size := by omega
  refine ⟨⟨by omega, ?_, ?_, ?_, ?_, ?_, ?_⟩, ?_, ?_, hbody⟩
  · have h := hbyte 0 (by decide)
    simpa [sigHead, hstart] using h.symm
  · have h := hbyte 1 (by decide)
    simpa [sigHead, hstart] using h.symm
  · have hhigh := hbyte 2 (by decide)
    have hlow := hbyte 3 (by decide)
    simp only [sigHead, hword] at hhigh hlow
    rw [hstart, Mem.u16, ← Option.some.inj hhigh, ← Option.some.inj hlow, UInt8.toNat_ofNat']
    simp
    omega
  · have h := hbyte 8 (by decide)
    simpa [sigHead, hstart, List.getElem?_append, haddr] using h.symm
  · have h := hbyte 9 (by decide)
    simpa [sigHead, hstart, List.getElem?_append, haddr] using h.symm
  · have h := Mem.getElem?_of_slice (i := 0) hsig (by decide)
    rw [hstart]
    exact (Option.some.inj h).symm
  · rw [Mem.slice_sub hhead (by decide)]
    simp [sigHead, haddr]
  · have hlt : (clock.now % 4294967296).toNat < 4294967296 := by omega
    have hfits : 4294967296 ≤ 256 ^ scheme.platform.sizeofPtr := by
      rcases hplat with h | h <;> rw [h] <;> norm_num
    have hnet := htonl_lt scheme.platform (clock.now % 4294967296).toNat
    have hfull : htonl scheme.platform (clock.now % 4294967296).toNat % 256 ^ scheme.platform.sizeofPtr =
        htonl scheme.platform (clock.now % 4294967296).toNat := Nat.mod_eq_of_lt (lt_of_lt_of_le hnet hfits)
    rw [recTime, htime, ofHostEnd_hostEnd, hfull, Nat.mod_eq_of_lt hnet, htonl_htonl _ hlt]
    congr 1
    omega

/-! ## The receiver -/

/-- An entry of the sender that is validated and whose window holds a packet sent at `sent`. -/
def InWindow (sender : IpAddr) (sent : Int) (clock : Clock) (stamps : List Stamp) : Prop :=
  ∃ entry, lookupTimestampEntry sender stamps = some entry ∧ entry.validated ≠ 0 ∧
    lowerDiff ≤ toInt (entry.diff - (clock.now - sent)) ∧ toInt (entry.diff - (clock.now - sent)) ≤ upperDiff

/-- The 32 bits of a time that a packet carries are enough for its slack. -/
theorem toInt_wireTime (hplat : TimeSized scheme.platform) (diff now sent : Int) :
    toInt (diff - (now - Int.bmod (sent % 4294967296) (256 ^ scheme.platform.sizeofPtr))) =
    toInt (diff - (now - sent)) := by
  have hsum : ∀ t : Int, diff - (now - t) = diff - now + t := fun t => by omega
  rw [hsum, hsum]
  unfold toInt
  rcases hplat with h | h <;> rw [h]
  · rw [show (256 ^ 4 : Nat) = 4294967296 from rfl, Int.add_bmod_bmod,
      show (4294967296 : Int) = (4294967296 : Nat) from rfl, Int.add_emod_bmod]
  · have hsmall : Int.bmod (sent % 4294967296) (256 ^ 8) = sent % 4294967296 :=
      Int.bmod_eq_of_le_mul_two (by omega) (by omega)
    rw [hsmall, show (4294967296 : Int) = (4294967296 : Nat) from rfl, Int.add_emod_bmod]

variable (scheme host draw) in
theorem checkTimestamp_inWindow {sender : IpAddr} {sent tstamp : Int} {stamps : List Stamp}
    (h : InWindow sender sent clock stamps)
    (hsent : ∀ diff, toInt (diff - (clock.now - tstamp)) = toInt (diff - (clock.now - sent))) :
    (checkTimestamp scheme host clock draw sender tstamp stamps).ok = true := by
  obtain ⟨entry, hfound, hvalidated, hlow, hhigh⟩ := h
  unfold checkTimestamp
  simp only [hfound, if_neg hvalidated, hsent]
  rw [if_neg (by omega)]

end

section

variable (scheme : Scheme) (host host' : Host) (clock clock' : Clock) (draw draw' : Draw)

/-- A signed packet stays in its buffers, and a receiver of its bytes accepts it with the length and the bytes it
had. -/
def SignedRoundTrip (mtu : Nat) (pck : Mem) (size : Nat) (stamps : List Stamp) : Prop :=
  ∃ pck' size', addSignature scheme host clock draw mtu pck size = some (pck', size') ∧
    ∀ rcv : Mem, rcv.slice 0 size' = pck'.slice 0 size' →
      ∃ res, validatePacket scheme host' clock' draw' rcv size' stamps = some (res, size) ∧ res.ok = true ∧
        (fixHeader rcv size).slice 0 size = pck.slice 0 size

end

section

variable {scheme : Scheme} {host host' : Host} {clock clock' : Clock} {draw draw' : Draw} {pck rcv : Mem}
  {mtu size : Nat} {stamps : List Stamp}

theorem addSignature_eq_some {pck' : Mem} {size' : Nat}
    (h : addSignature scheme host clock draw mtu pck size = some (pck', size')) :
    size + sizeofSOlsrmsg scheme.platform ≤ mtu ∧ size + sizeofSOlsrmsg scheme.platform ≤ checksumCacheSize ∧
      size' = size + sizeofSOlsrmsg scheme.platform := by
  unfold addSignature at h
  split at h
  · cases h
  · next hmtu =>
    obtain ⟨digest, hdigest, heq⟩ := Option.map_eq_some_iff.1 h
    have hcache : ¬checksumCacheSize < size + sigSignature scheme.platform + keyLength := fun hlt => by
      rw [digestOf_eq_none.2 hlt] at hdigest
      cases hdigest
    obtain ⟨-, rfl⟩ := Prod.mk.inj heq
    unfold sizeofSOlsrmsg signatureSize at *
    unfold keyLength at hcache
    exact ⟨by omega, by omega, rfl⟩

/-- The header of the packet is the one thing that comes back changed, and `fixHeader` sets it right. -/
theorem fixHeader_slice (hsize : 4 ≤ size) (hlen : pck.slice 0 2 = bigEnd 2 size)
    (hbody : rcv.slice 2 (size - 2) = pck.slice 2 (size - 2)) :
    (fixHeader rcv size).slice 0 size = pck.slice 0 size := by
  have hsplit : size = 2 + (size - 2) := by omega
  conv_lhs => rw [fixHeader]; arg 3; rw [hsplit]
  conv_rhs => arg 3; rw [hsplit]
  have hhead := Mem.slice_write rcv 0 (bigEnd 2 size)
  rw [length_bigEnd] at hhead
  rw [Mem.slice_add, Mem.slice_add, hhead, hlen, Mem.slice_write_out (by simp), hbody]

/-- The digest of a signed packet. -/
def signedDigest (scheme : Scheme) (host : Host) (clock : Clock) (draw : Draw) (pck : Mem) (size : Nat) : List UInt8 :=
  scheme.sign ((writeSignature scheme host clock draw pck size).slice 0 (size + sigSignature scheme.platform))

theorem addSignature_of_fits (hmtu : size + sizeofSOlsrmsg scheme.platform ≤ mtu)
    (hcache : size + sizeofSOlsrmsg scheme.platform ≤ checksumCacheSize) :
    addSignature scheme host clock draw mtu pck size =
      some ((writeSignature scheme host clock draw pck size).write (size + sigSignature scheme.platform)
        (signedDigest scheme host clock draw pck size), size + sizeofSOlsrmsg scheme.platform) := by
  have hend : sizeofSOlsrmsg scheme.platform = sigSignature scheme.platform + keyLength := rfl
  rw [addSignature, if_neg (not_lt.2 hmtu)]
  simp only [digestOf]
  rw [if_pos (by omega)]
  rfl

/-- A receiver finds the digest behind the bytes it was made of. -/
theorem received_digest (hsum : ∀ bytes, (scheme.checksum bytes).length = signatureSize)
    (hrcv : rcv.slice 0 (size + sizeofSOlsrmsg scheme.platform) =
      ((writeSignature scheme host clock draw pck size).write (size + sigSignature scheme.platform)
        (signedDigest scheme host clock draw pck size)).slice 0 (size + sizeofSOlsrmsg scheme.platform)) :
    rcv.slice 0 (size + sigSignature scheme.platform) =
        (writeSignature scheme host clock draw pck size).slice 0 (size + sigSignature scheme.platform) ∧
      rcv.slice (size + sigSignature scheme.platform) signatureSize = signedDigest scheme host clock draw pck size := by
  have hend : size + sizeofSOlsrmsg scheme.platform = size + sigSignature scheme.platform + signatureSize := rfl
  have hdigest : (signedDigest scheme host clock draw pck size).length = signatureSize := hsum _
  rw [hend, Mem.slice_add _ 0 (size + sigSignature scheme.platform) signatureSize,
    Mem.slice_add _ 0 (size + sigSignature scheme.platform) signatureSize] at hrcv
  obtain ⟨hcover, htail⟩ := List.append_inj hrcv (by simp)
  rw [Nat.zero_add] at htail
  refine ⟨hcover.trans (Mem.slice_write_out (by omega)), htail.trans ?_⟩
  rw [← hdigest, Mem.slice_write]

/-- Signing and checking fit together exactly where the signed packet fits the MTU and the cache. -/
theorem signedRoundTrip_iff (hplat : TimeSized scheme.platform)
    (hsum : ∀ bytes, (scheme.checksum bytes).length = signatureSize) (haddr : host.mainAddr.length = 4)
    (hsize : 4 ≤ size)
    (hlen : pck.slice 0 2 = bigEnd 2 size) (hwindow : InWindow host.mainAddr clock.now clock' stamps) :
    SignedRoundTrip scheme host host' clock clock' draw draw' mtu pck size stamps ↔
      size + sizeofSOlsrmsg scheme.platform ≤ mtu ∧ size + sizeofSOlsrmsg scheme.platform ≤ checksumCacheSize := by
  constructor
  · rintro ⟨pck', size', hadd, -⟩
    exact ⟨(addSignature_eq_some hadd).1, (addSignature_eq_some hadd).2.1⟩
  · rintro ⟨hmtu, hcache⟩
    refine ⟨_, _, addSignature_of_fits hmtu hcache, fun rcv hrcv => ?_⟩
    obtain ⟨hcover, htail⟩ := received_digest hsum hrcv
    have hread := signedAs_of_written hplat haddr hsize hcover
    have hsig : size + sizeofSOlsrmsg scheme.platform - sizeofSOlsrmsg scheme.platform = size := by omega
    have hend : size + sizeofSOlsrmsg scheme.platform - signatureSize = size + sigSignature scheme.platform := by
      unfold sizeofSOlsrmsg; omega
    have hdigest : digestOf scheme rcv (size + sigSignature scheme.platform) =
        some (signedDigest scheme host clock draw pck size) := by
      have hkey : sizeofSOlsrmsg scheme.platform = sigSignature scheme.platform + keyLength := rfl
      rw [digestOf, if_pos (by omega), hcover, signedDigest]
    have hok := checkTimestamp_inWindow scheme host' draw' hwindow
      (fun diff => toInt_wireTime hplat diff clock'.now clock.now)
    rw [← hread.originator, ← hread.timestamp] at hok
    refine ⟨_, ?_, hok, fixHeader_slice hsize hlen hread.body⟩
    rw [validatePacket, if_neg (not_not.2 hread.sane)]
    simp only [hend, hsig, hdigest, htail, Option.map_some, ne_eq, not_true_eq_false, if_false, hok, if_true]

end

/-- A packet with the length `net_output` writes and no other content. -/
def outgoingPacket (size : Nat) : Mem := fun i => (bigEnd 2 size).getD i 0

theorem slice_outgoingPacket (size : Nat) : (outgoingPacket size).slice 0 2 = bigEnd 2 size := by
  simp [outgoingPacket, Mem.slice, List.range_succ, bigEnd, littleEnd]

theorem inWindow_shaken : InWindow [10, 0, 0, 2] 1000 ⟨1001, 0⟩ [⟨[10, 0, 0, 2], 0, 0, 1, 0, 0⟩] :=
  ⟨⟨[10, 0, 0, 2], 0, 0, 1, 0, 0⟩, by decide, by decide, by decide, by decide⟩

/-- A packet of 60 bytes gets through. -/
theorem signedRoundTrip_short :
    SignedRoundTrip ⟨⟨true, 8⟩, fun _ => List.replicate 16 0, List.replicate 16 0, rfl⟩ ⟨[10, 0, 0, 2], []⟩
      ⟨[10, 0, 0, 1], []⟩ ⟨1000, 0⟩ ⟨1001, 0⟩ ⟨0, 0, 0, ⟨[], 0, 0, 0, 0, 0⟩, []⟩ ⟨0, 0, 0, ⟨[], 0, 0, 0, 0, 0⟩, []⟩ 1500
      (outgoingPacket 60) 60 [⟨[10, 0, 0, 2], 0, 0, 1, 0, 0⟩] :=
  (signedRoundTrip_iff (.inr rfl) (fun _ => rfl) rfl (by decide) (slice_outgoingPacket 60) inWindow_shaken).2
    (by decide)

/-- A packet of 600 bytes is well below the MTU, but the sender digests it in an array of 528 bytes. -/
theorem signedRoundTrip_fails :
    InWindow [10, 0, 0, 2] 1000 ⟨1001, 0⟩ [⟨[10, 0, 0, 2], 0, 0, 1, 0, 0⟩] ∧
      (outgoingPacket 600).slice 0 2 = bigEnd 2 600 ∧
      ¬SignedRoundTrip ⟨⟨true, 8⟩, fun _ => List.replicate 16 0, List.replicate 16 0, rfl⟩ ⟨[10, 0, 0, 2], []⟩
        ⟨[10, 0, 0, 1], []⟩ ⟨1000, 0⟩ ⟨1001, 0⟩ ⟨0, 0, 0, ⟨[], 0, 0, 0, 0, 0⟩, []⟩
        ⟨0, 0, 0, ⟨[], 0, 0, 0, 0, 0⟩, []⟩ 1500
        (outgoingPacket 600) 600 [⟨[10, 0, 0, 2], 0, 0, 1, 0, 0⟩] := by
  refine ⟨inWindow_shaken, slice_outgoingPacket 600, ?_⟩
  rintro ⟨pck', size', hadd, -⟩
  exact absurd (addSignature_eq_some hadd).2.1 (by decide)

end Olsrd.Secure
