/-
MID messages: the serializers `serialize_mid4` and `serialize_mid6` of `build_msg.c`, which send the addresses of the
interfaces in as many messages as it takes, and what `mid_chgestruct` reads of them.
-/
import Olsrd.Message.Hna

namespace Olsrd.Message

open Bytes
open Olsrd.Topology (u16Bytes Holds Sender remainsize16)

/-! ## The serializers -/

/-- A MID message with the size that its header tells. -/
def midBytes (orig : IpAddr) (vtime ttl hops : UInt8) (size : Nat) (seqno : UInt16) (addrs : List IpAddr) :
    List UInt8 :=
  [3, vtime] ++ u16Bytes size ++ orig ++ [ttl, hops] ++ u16Bytes seqno.toNat ++ addrs.flatten

/-- `OLSR_MID_IPV4_HDRSIZE`, `OLSR_MID_IPV6_HDRSIZE` -/
def midHdrsize (cnf : Cnf) : Nat := 8 + cnf.ipsize

/-- The state of the loop: `addrs` is in the message behind its header. -/
structure MidBuild where
  st : Sender
  remainsize : Nat
  addrs : List IpAddr

def MidBuild.currSize (cnf : Cnf) (w : MidBuild) : Nat := midHdrsize cnf + w.addrs.length * cnf.ipsize

/-- Number the message and push it; `MAX_TTL` is 255. -/
def MidBuild.put (cnf : Cnf) (vtime : UInt8) (w : MidBuild) : Sender :=
  pushNumbered w.st fun seqno => midBytes cnf.mainAddr vtime 255 0 (w.currSize cnf) seqno w.addrs

/-- Send a partial MID, if it contains data, and the packet. -/
def MidBuild.flush (cnf : Cnf) (vtime : UInt8) (w : MidBuild) : MidBuild :=
  let w := if w.currSize cnf > midHdrsize cnf then { w with st := w.put cnf vtime, addrs := [] } else w
  { w with st := w.st.netOutput, remainsize := remainsize16 w.st.netOutput }

def MidBuild.add (w : MidBuild) (ipAddr : IpAddr) : MidBuild := { w with addrs := w.addrs ++ [ipAddr] }

/-- The size that the second `check_buffspace` asks for: only IPv6 asks for room for an address. -/
def midCheckedSize (cnf : Cnf) (w : MidBuild) : Nat :=
  match cnf.ipVersion with
  | .inet => w.currSize cnf
  | .inet6 => w.currSize cnf + cnf.ipsize

/-- Write an address, for which there has to be room in `msg_buffer`. -/
def MidBuild.write (cnf : Cnf) (w : MidBuild) (ipAddr : IpAddr) : Option MidBuild :=
  if w.currSize cnf + cnf.ipsize > msgBufferSize then none else some (w.add ipAddr)

/-- One round of the loop. There is no result when `check_buffspace` ends the program or an address is written behind
the end of `msg_buffer`. -/
def midStep (cnf : Cnf) (vtime : UInt8) (w : MidBuild) (ipAddr : IpAddr) : Option MidBuild :=
  -- the main address is there already
  if ipAddr = cnf.mainAddr then some w
  else if w.currSize cnf + cnf.ipsize > w.remainsize then
    let w := w.flush cnf vtime
    if midCheckedSize cnf w > w.remainsize then none else w.write cnf ipAddr
  else w.write cnf ipAddr

/-- The end of both functions: a number is taken for a message without data too. -/
def MidBuild.finish (cnf : Cnf) (vtime : UInt8) (w : MidBuild) : Sender :=
  if w.currSize cnf > midHdrsize cnf then w.put cnf vtime
  else { w.st with messageSeqno := w.st.messageSeqno + 1 }

/-- The sum that `needsize` stands for. -/
def midNeedsize (cnf : Cnf) (n : Nat) : Nat := midHdrsize cnf + n * (2 * cnf.ipsize)

/-- What both functions do with the addresses of the interfaces. -/
def serializeMid (cnf : Cnf) (vtime : UInt8) (ifnet : List IpAddr) (st : Sender) : Option Sender :=
  if ifnet = [] ∨ ifnet = [cnf.mainAddr] then some st
  else
    let st := sendPending (midNeedsize cnf ifnet.length) st
    if midHdrsize cnf > remainsize16 st then none
    else (Run.forEach (midStep cnf vtime) ifnet ⟨st, remainsize16 st, []⟩).map (MidBuild.finish cnf vtime)

def serializeMid4 (cnf : Cnf) (vtime : UInt8) (ifnet : List IpAddr) (st : Sender) : Option Sender :=
  if cnf.ipVersion ≠ .inet then some st else serializeMid cnf vtime ifnet st

def serializeMid6 (cnf : Cnf) (vtime : UInt8) (ifnet : List IpAddr) (st : Sender) : Option Sender :=
  if cnf.ipVersion ≠ .inet6 then some st else serializeMid cnf vtime ifnet st

/-- `queue_mid` -/
def queueMid (cnf : Cnf) : UInt8 → List IpAddr → Sender → Option Sender :=
  match cnf.ipVersion with
  | .inet => serializeMid4 cnf
  | .inet6 => serializeMid6 cnf

theorem queueMid_eq (cnf : Cnf) (vtime : UInt8) (ifnet : List IpAddr) (st : Sender) :
    queueMid cnf vtime ifnet st = serializeMid cnf vtime ifnet st := by
  cases hversion : cnf.ipVersion with
  | inet => simp [queueMid, serializeMid4, hversion]
  | inet6 => simp [queueMid, serializeMid6, hversion]

/-! ## What a receiver reads -/

section

variable {cnf : Cnf} {msg : Mem} {vtime ttl hops : UInt8} {addrs : List IpAddr}

/-- Addresses that lie one behind the other. -/
theorem slices_flatten {k : Nat} (post : List UInt8) : ∀ (addrs : List IpAddr) (pre : List UInt8),
    (∀ a ∈ addrs, a.length = k) → Holds msg (pre ++ (addrs.flatten ++ post)) →
      ((List.range addrs.length).map fun i => msg.slice (pre.length + i * k) k) = addrs
  | [], _, _, _ => rfl
  | a :: addrs, pre, hk, h => by
    have ha : a.length = k := hk a List.mem_cons_self
    have hfirst : msg.slice pre.length k = a := by
      have hs := Holds.slice pre a (addrs.flatten ++ post) (by simpa using h)
      rwa [ha] at hs
    have hrest := slices_flatten post addrs (pre ++ a) (fun b hb => hk b (List.mem_cons_of_mem _ hb)) (by simpa using h)
    rw [List.length_cons, List.range_succ_eq_map, List.map_cons, List.map_map, Nat.zero_mul, Nat.add_zero, hfirst]
    congr 1
    refine Eq.trans (List.map_congr_left fun i _ => ?_) hrest
    rw [Function.comp, List.length_append, ha, Nat.succ_mul]
    congr 1
    omega

theorem length_flatten_addrs : ∀ {addrs : List IpAddr}, (∀ a ∈ addrs, a.length = cnf.ipsize) →
    addrs.flatten.length = addrs.length * cnf.ipsize
  | [], _ => by simp
  | a :: addrs, h => by
    rw [List.flatten_cons, List.length_append, h a List.mem_cons_self,
      length_flatten_addrs fun b hb => h b (List.mem_cons_of_mem _ hb), List.length_cons, Nat.succ_mul, Nat.add_comm]

/-- The smaller header of IPv4, which is taken off in IPv6 too, makes no difference. -/
theorem noAliases_size (cnf : Cnf) (n : Nat) : noAliases cnf (midHdrsize cnf + n * cnf.ipsize) = n := by
  cases hversion : cnf.ipVersion with
  | inet =>
    have hsize : cnf.ipsize = 4 := by rw [Cnf.ipsize, hversion]; rfl
    rw [noAliases, midHdrsize, hsize]
    omega
  | inet6 =>
    have hsize : cnf.ipsize = 16 := by rw [Cnf.ipsize, hversion]; rfl
    rw [noAliases, midHdrsize, hsize]
    omega

/-- What a receiver reads of a MID message is its originator, and its addresses from the last to the first. -/
theorem midChgestruct_bytes {seqno : UInt16} {orig : IpAddr} (horig : orig.length = cnf.ipsize)
    (hsized : ∀ a ∈ addrs, a.length = cnf.ipsize) (hsmall : midHdrsize cnf + addrs.length * cnf.ipsize < 65536)
    (h : Holds msg (midBytes orig vtime ttl hops (midHdrsize cnf + addrs.length * cnf.ipsize) seqno addrs)) :
    (midChgestruct cnf msg).1 = some ⟨orig, seqno.toNat, meToReltime vtime, addrs.reverse⟩ := by
  let size := midHdrsize cnf + addrs.length * cnf.ipsize
  let pre := [3, vtime] ++ u16Bytes size ++ orig ++ [ttl, hops] ++ u16Bytes seqno.toNat
  have hpre : pre.length = 8 + cnf.ipsize := by
    simp [pre, u16Bytes, horig]
    omega
  have htype : msg 0 = 3 :=
    Holds.byte [] 3 (vtime :: (u16Bytes size ++ orig ++ [ttl, hops] ++ u16Bytes seqno.toNat ++ addrs.flatten))
      (by simpa [midBytes] using h)
  have hvtime : msg 1 = vtime :=
    Holds.byte [3] vtime (u16Bytes size ++ orig ++ [ttl, hops] ++ u16Bytes seqno.toNat ++ addrs.flatten)
      (by simpa [midBytes] using h)
  have hsize : msg.u16 2 = size :=
    Holds.u16 [3, vtime] (orig ++ [ttl, hops] ++ u16Bytes seqno.toNat ++ addrs.flatten) hsmall
      (by simpa [midBytes] using h)
  have hmain : msg.slice 4 cnf.ipsize = orig := by
    have hs := Holds.slice ([3, vtime] ++ u16Bytes size) orig
      ([ttl, hops] ++ u16Bytes seqno.toNat ++ addrs.flatten) (by simpa [midBytes] using h)
    rw [horig] at hs
    simpa [u16Bytes] using hs
  have hseqno : msg.u16 (6 + cnf.ipsize) = seqno.toNat := by
    have hs := Holds.u16 ([3, vtime] ++ u16Bytes size ++ orig ++ [ttl, hops]) addrs.flatten
      (UInt16.toNat_lt seqno) (by simpa [midBytes] using h)
    have hlen : ([3, vtime] ++ u16Bytes size ++ orig ++ [ttl, hops]).length = 6 + cnf.ipsize := by
      simp [u16Bytes, horig]
      omega
    rwa [hlen] at hs
  have haddrs : ((List.range addrs.length).map fun i => msg.slice (aliasAt cnf i) cnf.ipsize) = addrs := by
    have hs := slices_flatten [] addrs pre hsized (by simpa [midBytes, pre] using h)
    rwa [hpre] at hs
  have hcount : noAliases cnf size = addrs.length := noAliases_size cnf addrs.length
  unfold midChgestruct
  rw [htype, if_neg (by decide)]
  dsimp only
  rw [hsize, hcount, haddrs, hmain, hseqno, hvtime]

end

/-! ## The round trip -/

section

variable {cnf : Cnf} {vtime : UInt8}

/-- The message with these addresses. -/
def midPart (cnf : Cnf) (vtime : UInt8) (seqno : UInt16) (addrs : List IpAddr) : List UInt8 :=
  midBytes cnf.mainAddr vtime 255 0 (midHdrsize cnf + addrs.length * cnf.ipsize) seqno addrs

theorem length_midPart (horig : cnf.mainAddr.length = cnf.ipsize) {addrs : List IpAddr}
    (hsized : ∀ a ∈ addrs, a.length = cnf.ipsize) (seqno : UInt16) :
    (midPart cnf vtime seqno addrs).length = midHdrsize cnf + addrs.length * cnf.ipsize := by
  have hlen := length_flatten_addrs hsized
  simp only [midPart, midBytes, midHdrsize, u16Bytes, List.length_append, List.length_cons, List.length_nil,
    horig, hlen]
  omega

/-- The messages `parts` have gone out since `st`, none of them empty or dropped. -/
structure MidSent (cnf : Cnf) (vtime : UInt8) (st st' : Sender) (parts : List (List IpAddr)) : Prop where
  sent : st'.sent = st.sent ++ numbered (midPart cnf vtime) st.messageSeqno parts
  fits : ∀ addrs ∈ parts, midHdrsize cnf + addrs.length * cnf.ipsize ≤ st.maxsize
  data : ∀ addrs ∈ parts, addrs ≠ []

/-- The state of the loop when it has come through the interfaces `done`. -/
structure MidBuild.Inv (cnf : Cnf) (vtime : UInt8) (st₀ : Sender) (w : MidBuild) (done : List IpAddr)
    (parts : List (List IpAddr)) : Prop where
  sent : MidSent cnf vtime st₀ w.st parts
  seqno : w.st.messageSeqno = st₀.messageSeqno + UInt16.ofNat parts.length
  maxsize : w.st.maxsize = st₀.maxsize
  remainsize : w.remainsize = w.st.maxsize - w.st.pending
  room : w.currSize cnf ≤ w.remainsize
  inBuffer : w.currSize cnf ≤ msgBufferSize
  written : parts.flatten ++ w.addrs = done.filter (· ≠ cnf.mainAddr)

/-! ### The messages as containers -/

def MidBuild.level (cnf : Cnf) (w : MidBuild) : Filling.Level := ⟨w.remainsize, w.currSize cnf⟩

/-- A message in an emptied output buffer of that size. -/
def midFresh (cnf : Cnf) (maxsize : Nat) : Filling.Level := ⟨maxsize % 65536, midHdrsize cnf⟩

def midItem (cnf : Cnf) : Filling.Item := ⟨cnf.ipsize, cnf.ipsize⟩

theorem midHdrsize_le (cnf : Cnf) : midHdrsize cnf ≤ msgBufferSize := hnaHdrsize_le cnf

variable {st₀ : Sender} {w : MidBuild} {done : List IpAddr} {parts : List (List IpAddr)}

theorem MidBuild.currSize_gt_iff (cnf : Cnf) (w : MidBuild) : w.currSize cnf > midHdrsize cnf ↔ w.addrs ≠ [] := by
  have hpos := cnf.ipsize_pos
  rw [MidBuild.currSize, gt_iff_lt, Nat.lt_add_right_iff_pos, Nat.mul_pos_iff_of_pos_right hpos, List.length_pos_iff]

/-- The addresses that are in the message have the size of the address family. -/
theorem MidBuild.Inv.sized (h : w.Inv cnf vtime st₀ done parts) (hdone : ∀ a ∈ done, a.length = cnf.ipsize) :
    ∀ a ∈ w.addrs, a.length = cnf.ipsize := by
  intro a ha
  have hmem : a ∈ done.filter (· ≠ cnf.mainAddr) := h.written ▸ List.mem_append_right _ ha
  exact hdone a (List.mem_filter.1 hmem).1

/-- A message with data fits, and is pushed. -/
theorem MidBuild.Inv.put (horig : cnf.mainAddr.length = cnf.ipsize) (hdone : ∀ a ∈ done, a.length = cnf.ipsize)
    (h : w.Inv cnf vtime st₀ done parts) (hne : w.addrs ≠ []) :
    MidSent cnf vtime st₀ (w.put cnf vtime) (parts ++ [w.addrs]) ∧
      (w.put cnf vtime).messageSeqno = st₀.messageSeqno + UInt16.ofNat (parts ++ [w.addrs]).length ∧
      (w.put cnf vtime).maxsize = st₀.maxsize := by
  have hroom := h.room
  have hpos : 0 < midHdrsize cnf := by rw [midHdrsize]; omega
  rw [h.remainsize] at hroom
  have hput : w.put cnf vtime = { w.st with
      pending := w.st.pending + w.currSize cnf, messageSeqno := w.st.messageSeqno + 1,
      sent := w.st.sent ++ [midPart cnf vtime w.st.messageSeqno w.addrs] } := by
    have hlen : (midPart cnf vtime w.st.messageSeqno w.addrs).length = _ :=
      length_midPart horig (h.sized hdone) w.st.messageSeqno
    unfold MidBuild.put pushNumbered Sender.netOutbufferPush
    rw [MidBuild.currSize] at hroom ⊢
    rw [midPart] at hlen
    dsimp only
    rw [hlen, if_neg (by omega)]
    rfl
  rw [hput]
  refine ⟨⟨?_, fun addrs haddrs => ?_, fun addrs haddrs => ?_⟩, ?_, h.maxsize⟩
  · dsimp only
    rw [h.sent.sent, numbered_append, h.seqno, List.append_assoc]
    rfl
  · rcases List.mem_append.1 haddrs with haddrs | haddrs
    · exact h.sent.fits addrs haddrs
    · rw [List.mem_singleton.1 haddrs, ← h.maxsize]
      rw [MidBuild.currSize] at hroom
      omega
  · rcases List.mem_append.1 haddrs with haddrs | haddrs
    · exact h.sent.data addrs haddrs
    · rw [List.mem_singleton.1 haddrs]
      exact hne
  · dsimp only
    rw [h.seqno, List.length_append, UInt16.ofNat_add, UInt16.add_assoc]
    rfl

theorem MidBuild.Inv.flush (horig : cnf.mainAddr.length = cnf.ipsize)
    (hroom : midHdrsize cnf + cnf.ipsize ≤ st₀.maxsize)
    (hmax : st₀.maxsize < 65536) (hdone : ∀ a ∈ done, a.length = cnf.ipsize) (h : w.Inv cnf vtime st₀ done parts) :
    ∃ parts', (w.flush cnf vtime).Inv cnf vtime st₀ done parts' ∧
      (w.flush cnf vtime).level cnf = midFresh cnf st₀.maxsize := by
  -- an emptied output buffer
  have hemptied : ∀ {st : Sender} {parts' : List (List IpAddr)}, MidSent cnf vtime st₀ st parts' →
      st.messageSeqno = st₀.messageSeqno + UInt16.ofNat parts'.length → st.maxsize = st₀.maxsize →
      parts'.flatten = done.filter (· ≠ cnf.mainAddr) →
      (MidBuild.mk st.netOutput (remainsize16 st.netOutput) []).Inv cnf vtime st₀ done parts' ∧
        (MidBuild.mk st.netOutput (remainsize16 st.netOutput) []).level cnf = midFresh cnf st₀.maxsize := by
    intro st parts' hsent hseqno hst hwritten
    have hrem : remainsize16 st.netOutput = st₀.maxsize % 65536 := by rw [remainsize16_netOutput, hst]
    have hmod := Nat.mod_eq_of_lt hmax
    have hsize : (MidBuild.mk st.netOutput (remainsize16 st.netOutput) []).currSize cnf = midHdrsize cnf := by
      rw [MidBuild.currSize, List.length_nil, Nat.zero_mul, Nat.add_zero]
    refine ⟨⟨⟨hsent.sent, hsent.fits, hsent.data⟩, hseqno, hst, ?_, ?_, ?_, ?_⟩, ?_⟩
    · exact (hrem.trans hmod).trans hst.symm
    · rw [hsize, hrem, hmod]
      exact le_trans (Nat.le_add_right _ _) hroom
    · exact hsize.trans_le (midHdrsize_le cnf)
    · rw [List.append_nil, hwritten]
    · rw [MidBuild.level, hsize, hrem]
      rfl
  unfold MidBuild.flush
  by_cases hne : w.addrs = []
  · have hwritten : parts.flatten = done.filter (· ≠ cnf.mainAddr) := by rw [← h.written, hne, List.append_nil]
    rw [if_neg fun hgt => (w.currSize_gt_iff cnf).1 hgt hne]
    refine ⟨parts, ?_⟩
    dsimp only
    rw [hne]
    exact hemptied h.sent h.seqno h.maxsize hwritten
  · rw [if_pos ((w.currSize_gt_iff cnf).2 hne)]
    obtain ⟨hsent, hseqno, hmaxsize⟩ := h.put horig hdone hne
    exact ⟨parts ++ [w.addrs],
      hemptied hsent hseqno hmaxsize (by rw [List.flatten_append, List.flatten_singleton, h.written])⟩

theorem MidBuild.add_currSize (a : IpAddr) : (w.add a).currSize cnf = w.currSize cnf + cnf.ipsize := by
  rw [MidBuild.currSize, MidBuild.add, List.length_append, List.length_singleton, Nat.succ_mul, ← Nat.add_assoc]
  rfl

theorem MidBuild.Inv.add {a : IpAddr} (ha : a ≠ cnf.mainAddr) (hfits : w.currSize cnf + cnf.ipsize ≤ w.remainsize)
    (hsmall : w.currSize cnf + cnf.ipsize ≤ msgBufferSize) (h : w.Inv cnf vtime st₀ done parts) :
    (w.add a).Inv cnf vtime st₀ (done ++ [a]) parts := by
  have hcurr : (w.add a).currSize cnf = w.currSize cnf + cnf.ipsize := MidBuild.add_currSize a
  refine ⟨h.sent, h.seqno, h.maxsize, h.remainsize, hcurr.trans_le hfits, hcurr.trans_le hsmall, ?_⟩
  show parts.flatten ++ (w.addrs ++ [a]) = _
  rw [← List.append_assoc, h.written, List.filter_append]
  simp [ha]

/-- The main address is skipped. -/
theorem MidBuild.Inv.skip (h : w.Inv cnf vtime st₀ done parts) :
    w.Inv cnf vtime st₀ (done ++ [cnf.mainAddr]) parts := by
  refine ⟨h.sent, h.seqno, h.maxsize, h.remainsize, h.room, h.inBuffer, ?_⟩
  rw [h.written, List.filter_append]
  simp

/-- An address is written, once and behind the earlier ones, if and only if it is within its bounds. -/
theorem midStep_spec (horig : cnf.mainAddr.length = cnf.ipsize) (hroom : midHdrsize cnf + cnf.ipsize ≤ st₀.maxsize)
    (hmax : st₀.maxsize < 65536) (hdone : ∀ a ∈ done, a.length = cnf.ipsize) {a : IpAddr} (ha : a ≠ cnf.mainAddr)
    (h : w.Inv cnf vtime st₀ done parts) :
    (Filling.Bounded msgBufferSize (midFresh cnf st₀.maxsize) (w.level cnf) (midItem cnf) →
      ∃ w' parts', midStep cnf vtime w a = some w' ∧ w'.Inv cnf vtime st₀ (done ++ [a]) parts' ∧
        w'.level cnf = Filling.next (midFresh cnf st₀.maxsize) (w.level cnf) (midItem cnf)) ∧
    (¬Filling.Bounded msgBufferSize (midFresh cnf st₀.maxsize) (w.level cnf) (midItem cnf) →
      midStep cnf vtime w a = none) := by
  unfold midStep MidBuild.write Filling.Bounded
  rw [if_neg ha]
  dsimp only
  by_cases hfull : (w.level cnf).Full (midItem cnf)
  · obtain ⟨parts', hinv, hlevel⟩ := h.flush horig hroom hmax hdone
    have hrem : (w.flush cnf vtime).remainsize = (midFresh cnf st₀.maxsize).room := congrArg Filling.Level.room hlevel
    have hcurr : (w.flush cnf vtime).currSize cnf = (midFresh cnf st₀.maxsize).used :=
      congrArg Filling.Level.used hlevel
    have hnew : (midFresh cnf st₀.maxsize).used + cnf.ipsize ≤ (midFresh cnf st₀.maxsize).room :=
      hroom.trans_eq (Nat.mod_eq_of_lt hmax).symm
    have hfits : (w.flush cnf vtime).currSize cnf + cnf.ipsize ≤ (w.flush cnf vtime).remainsize := by rwa [hcurr, hrem]
    have hchecked : ¬midCheckedSize cnf (w.flush cnf vtime) > (w.flush cnf vtime).remainsize := by
      unfold midCheckedSize
      split
      · omega
      · omega
    rw [Filling.next_of_full hfull, if_pos (show w.currSize cnf + cnf.ipsize > w.remainsize from hfull),
      if_neg hchecked, hcurr]
    constructor
    · rintro ⟨-, hsmall⟩
      refine ⟨_, _, if_neg (Nat.not_lt.2 hsmall), hinv.add ha hfits (by rwa [hcurr]), ?_⟩
      rw [MidBuild.level, MidBuild.add_currSize, hcurr]
      exact congrArg₂ Filling.Level.mk hrem rfl
    · exact fun hok => if_pos (Nat.lt_of_not_le fun hsmall => hok ⟨fun _ => hnew, hsmall⟩)
  · rw [Filling.next_of_not_full hfull, if_neg (show ¬w.currSize cnf + cnf.ipsize > w.remainsize from hfull)]
    constructor
    · rintro ⟨-, hsmall⟩
      refine ⟨_, _, if_neg (Nat.not_lt.2 hsmall), h.add ha (Nat.le_of_not_lt hfull) hsmall, ?_⟩
      rw [MidBuild.level, MidBuild.add_currSize]
      rfl
    · exact fun hok => if_pos (Nat.lt_of_not_le fun hsmall => hok ⟨fun h => absurd h hfull, hsmall⟩)

theorem midSteps_spec (horig : cnf.mainAddr.length = cnf.ipsize) (hroom : midHdrsize cnf + cnf.ipsize ≤ st₀.maxsize)
    (hmax : st₀.maxsize < 65536) : ∀ (l : List IpAddr) {w : MidBuild} {done : List IpAddr} {parts : List (List IpAddr)},
    (∀ a ∈ done ++ l, a.length = cnf.ipsize) → w.Inv cnf vtime st₀ done parts →
    (Filling.Steps (midFresh cnf st₀.maxsize) (Filling.Bounded msgBufferSize (midFresh cnf st₀.maxsize)) (w.level cnf)
        (List.replicate (l.filter (· ≠ cnf.mainAddr)).length (midItem cnf)) →
      ∃ w' parts', Run.forEach (midStep cnf vtime) l w = some w' ∧ w'.Inv cnf vtime st₀ (done ++ l) parts') ∧
    (¬Filling.Steps (midFresh cnf st₀.maxsize) (Filling.Bounded msgBufferSize (midFresh cnf st₀.maxsize)) (w.level cnf)
        (List.replicate (l.filter (· ≠ cnf.mainAddr)).length (midItem cnf)) →
      Run.forEach (midStep cnf vtime) l w = none)
  | [], w, done, parts, _, h =>
    ⟨fun _ => ⟨w, parts, rfl, by rwa [List.append_nil]⟩, fun hsteps => absurd trivial hsteps⟩
  | a :: l, w, done, parts, hsized, h => by
    by_cases ha : a = cnf.mainAddr
    · subst ha
      have hskip := midSteps_spec horig hroom hmax l (by rwa [List.append_assoc]) h.skip
      rw [List.append_assoc] at hskip
      have hfilter : ((cnf.mainAddr :: l).filter (· ≠ cnf.mainAddr)) = l.filter (· ≠ cnf.mainAddr) := by simp
      have hstep : Run.forEach (midStep cnf vtime) (cnf.mainAddr :: l) w = Run.forEach (midStep cnf vtime) l w := by
        rw [Run.forEach, midStep, if_pos rfl, Option.bind_some]
      rw [hfilter, hstep]
      exact hskip
    · obtain ⟨hsome, hnone⟩ := midStep_spec horig hroom hmax (fun b hb => hsized b (List.mem_append_left _ hb)) ha h
      have hfilter : ((a :: l).filter (· ≠ cnf.mainAddr)) = a :: l.filter (· ≠ cnf.mainAddr) := by simp [ha]
      rw [hfilter, List.length_cons, List.replicate_succ, Filling.Steps, Run.forEach]
      by_cases hok : Filling.Bounded msgBufferSize (midFresh cnf st₀.maxsize) (w.level cnf) (midItem cnf)
      · obtain ⟨w₁, parts₁, hw₁, h₁, hlevel⟩ := hsome hok
        obtain ⟨hrest, hstop⟩ := midSteps_spec horig hroom hmax l (by rwa [List.append_assoc]) h₁
        rw [← hlevel, hw₁, Option.bind_some]
        refine ⟨fun hsteps => ?_, fun hsteps => hstop fun h' => hsteps ⟨hok, h'⟩⟩
        obtain ⟨w', parts', hw', h'⟩ := hrest hsteps.2
        rw [List.append_assoc] at h'
        exact ⟨w', parts', hw', h'⟩
      · rw [hnone hok]
        exact ⟨fun hsteps => absurd hsteps.1 hok, fun _ => rfl⟩

/-- The end of the functions pushes what is left. -/
theorem MidBuild.Inv.finish (horig : cnf.mainAddr.length = cnf.ipsize) (hdone : ∀ a ∈ done, a.length = cnf.ipsize)
    (h : w.Inv cnf vtime st₀ done parts) :
    ∃ parts', MidSent cnf vtime st₀ (w.finish cnf vtime) parts' ∧ parts'.flatten = done.filter (· ≠ cnf.mainAddr) := by
  unfold MidBuild.finish
  by_cases hne : w.addrs = []
  · rw [if_neg fun hgt => (w.currSize_gt_iff cnf).1 hgt hne]
    exact ⟨parts, ⟨h.sent.sent, h.sent.fits, h.sent.data⟩, by rw [← h.written, hne, List.append_nil]⟩
  · rw [if_pos ((w.currSize_gt_iff cnf).2 hne)]
    exact ⟨_, (h.put horig hdone hne).1, by rw [List.flatten_append, List.flatten_singleton, h.written]⟩

/-- The aliases find room: what is left of the output buffer, or the emptied buffer if `needsize` is more than that, has
room for the header, and no message takes more than `msg_buffer`. -/
structure MidRoom (cnf : Cnf) (ifnet : List IpAddr) (st : Sender) : Prop where
  header : midHdrsize cnf ≤ remainsize16 (sendPending (midNeedsize cnf ifnet.length) st)
  aliases : Filling.Uniform msgBufferSize cnf.ipsize (ifnet.filter (· ≠ cnf.mainAddr)).length (midFresh cnf st.maxsize)
    ⟨remainsize16 (sendPending (midNeedsize cnf ifnet.length) st), midHdrsize cnf⟩

instance (cnf : Cnf) (ifnet : List IpAddr) (st : Sender) : Decidable (MidRoom cnf ifnet st) :=
  decidable_of_iff (_ ∧ _) ⟨fun h => ⟨h.1, h.2⟩, fun h => ⟨h.header, h.aliases⟩⟩

/-- In an output buffer that is no larger than `msg_buffer`, only the 16 bits of `needsize` are in the way: they wrap to
4 in IPv4 while 4 to 11 bytes are left. -/
theorem midRoom_iff_of_small {ifnet : List IpAddr} {st : Sender} (hpending : st.pending ≤ st.maxsize)
    (hroom : midHdrsize cnf + cnf.ipsize ≤ st.maxsize) (hmax : st.maxsize ≤ msgBufferSize) :
    MidRoom cnf ifnet st ↔ ¬(cnf.ipVersion = .inet ∧ ifnet.length % 8192 = 8191 ∧ 4 ≤ st.maxsize - st.pending ∧
      st.maxsize - st.pending < 12) := by
  have hsmall : st.maxsize < 65536 := lt_of_le_of_lt hmax (show msgBufferSize < 65536 by decide)
  have hmod : st.maxsize % 65536 = st.maxsize := Nat.mod_eq_of_lt hsmall
  have hpushed : Pushed (midPart cnf 0) st st [] := .refl hpending
  have hle := remainsize16_add_pending_le (hpushed.sendPending (midNeedsize cnf ifnet.length)).pending
  rw [sendPending_maxsize] at hle
  have hheader : midHdrsize cnf ≤ remainsize16 (sendPending (midNeedsize cnf ifnet.length) st) ↔ _ :=
    hnaHeader_fits_iff hpending (le_trans (Nat.le_add_right _ _) hroom) hsmall
  rw [← hheader]
  exact ⟨MidRoom.header, fun hhdr => ⟨hhdr, Filling.uniform_of_room hhdr
    (le_trans (le_trans (Nat.le_add_right _ _) hle) hmax) (hroom.trans_eq hmod.symm) (hmod.trans_le hmax)⟩⟩

theorem MidSent.nil : MidSent cnf vtime st₀ st₀ [] :=
  ⟨(List.append_nil _).symm, by simp, by simp⟩

/-- The loop starts with an empty message, in the buffer as the check of the room has left it. -/
theorem MidBuild.inv_start {needsize : Nat} (hpending : st₀.pending ≤ st₀.maxsize) (hmax : st₀.maxsize < 65536)
    (hhdr : midHdrsize cnf ≤ remainsize16 (sendPending needsize st₀)) :
    (MidBuild.mk (sendPending needsize st₀) (remainsize16 (sendPending needsize st₀)) []).Inv cnf vtime st₀ [] [] := by
  have hstart : MidSent cnf vtime st₀ (sendPending needsize st₀) [] ∧
      (sendPending needsize st₀).messageSeqno = st₀.messageSeqno ∧
      (sendPending needsize st₀).pending ≤ st₀.maxsize := by
    unfold sendPending
    split
    · exact ⟨⟨(List.append_nil _).symm, by simp, by simp⟩, rfl, Nat.zero_le _⟩
    · exact ⟨.nil, rfl, hpending⟩
  obtain ⟨hsent, hseqno, hpending₁⟩ := hstart
  have hmaxsize := sendPending_maxsize needsize st₀
  refine ⟨hsent, hseqno.trans (UInt16.add_zero _).symm, hmaxsize, ?_, ?_, ?_, rfl⟩
  · dsimp only
    rw [remainsize16, Sender.netOutbufferBytesLeft]
    omega
  · show midHdrsize cnf + 0 * cnf.ipsize ≤ remainsize16 (sendPending needsize st₀)
    omega
  · show midHdrsize cnf + 0 * cnf.ipsize ≤ _
    rw [Nat.zero_mul, Nat.add_zero]
    exact midHdrsize_le cnf

/-- The addresses go out if and only if they find room. -/
theorem serializeMid_spec {ifnet : List IpAddr} {st : Sender} (horig : cnf.mainAddr.length = cnf.ipsize)
    (hsized : ∀ a ∈ ifnet, a.length = cnf.ipsize) (hpending : st.pending ≤ st.maxsize)
    (hroom : midHdrsize cnf + cnf.ipsize ≤ st.maxsize) (hmax : st.maxsize < 65536) :
    (ifnet = [] ∨ ifnet = [cnf.mainAddr] ∨ MidRoom cnf ifnet st → ∃ st' parts,
    serializeMid cnf vtime ifnet st = some st' ∧
      MidSent cnf vtime st st' parts ∧ parts.flatten = ifnet.filter (· ≠ cnf.mainAddr)) ∧
    (¬(ifnet = [] ∨ ifnet = [cnf.mainAddr] ∨ MidRoom cnf ifnet st) → serializeMid cnf vtime ifnet st = none) := by
  unfold serializeMid
  by_cases hempty : ifnet = [] ∨ ifnet = [cnf.mainAddr]
  · rw [if_pos hempty]
    refine ⟨fun _ => ⟨st, [], rfl, .nil, ?_⟩, fun h => absurd (hempty.imp_right .inl) h⟩
    rcases hempty with rfl | rfl
    · rfl
    · simp
  rw [if_neg hempty, ← or_assoc, or_iff_right hempty]
  dsimp only
  by_cases hhdr : midHdrsize cnf > remainsize16 (sendPending (midNeedsize cnf ifnet.length) st)
  · rw [if_pos hhdr]
    exact ⟨fun h => absurd h.header (Nat.not_le.2 hhdr), fun _ => rfl⟩
  · rw [if_neg hhdr]
    have hinv := @MidBuild.inv_start cnf vtime st _ hpending hmax (Nat.le_of_not_lt hhdr)
    have hlevel : (MidBuild.mk (sendPending (midNeedsize cnf ifnet.length) st)
        (remainsize16 (sendPending (midNeedsize cnf ifnet.length) st)) []).level cnf =
        ⟨remainsize16 (sendPending (midNeedsize cnf ifnet.length) st), midHdrsize cnf⟩ := by
      rw [MidBuild.level, MidBuild.currSize, List.length_nil, Nat.zero_mul, Nat.add_zero]
    have huniform := @Filling.steps_replicate_iff (midFresh cnf st.maxsize) msgBufferSize cnf.ipsize cnf.ipsize_pos
      (ifnet.filter (· ≠ cnf.mainAddr)).length
      ⟨remainsize16 (sendPending (midNeedsize cnf ifnet.length) st), midHdrsize cnf⟩ (Nat.le_of_not_lt hhdr)
      (midHdrsize_le cnf)
    obtain ⟨hsome, hstop⟩ := midSteps_spec horig hroom hmax ifnet hsized hinv
    rw [hlevel] at hsome hstop
    constructor
    · intro hfits
      obtain ⟨w, parts, hw, hdone⟩ := hsome (huniform.2 hfits.aliases)
      obtain ⟨parts', hfinished, hwritten⟩ := hdone.finish horig hsized
      exact ⟨_, parts', by rw [hw]; rfl, hfinished, hwritten⟩
    · intro hfits
      rw [hstop fun hsteps => hfits ⟨Nat.le_of_not_lt hhdr, huniform.1 hsteps⟩]
      rfl

/-- Whatever goes out, the addresses do. -/
theorem serializeMid_sent {ifnet : List IpAddr} {st st' : Sender} (horig : cnf.mainAddr.length = cnf.ipsize)
    (hsized : ∀ a ∈ ifnet, a.length = cnf.ipsize) (hpending : st.pending ≤ st.maxsize)
    (hroom : midHdrsize cnf + cnf.ipsize ≤ st.maxsize) (hmax : st.maxsize < 65536)
    (h : serializeMid cnf vtime ifnet st = some st') :
    (ifnet = [] ∨ ifnet = [cnf.mainAddr] ∨ MidRoom cnf ifnet st) ∧ ∃ parts, MidSent cnf vtime st st' parts ∧
      parts.flatten = ifnet.filter (· ≠ cnf.mainAddr) := by
  obtain ⟨hsome, hnone⟩ := @serializeMid_spec cnf vtime ifnet st horig hsized hpending hroom hmax
  by_cases hfits : ifnet = [] ∨ ifnet = [cnf.mainAddr] ∨ MidRoom cnf ifnet st
  · obtain ⟨st₁, parts, hst₁, hsent⟩ := hsome hfits
    obtain rfl := Option.some.inj (h.symm.trans hst₁)
    exact ⟨hfits, parts, hsent⟩
  · rw [hnone hfits] at h
    cases h

/-- What receivers read of a run of messages: aliases with the main address they belong to. -/
def receivedMid (cnf : Cnf) (msgs : List Mem) : List (IpAddr × IpAddr) :=
  msgs.flatMap fun m => (midChgestruct cnf m).1.elim [] fun x => x.aliases.reverse.map fun a => (a, x.addr)

/-- The messages pushed between `st` and `st'` fit the buffer, and whoever reads them, whatever lies behind them in
memory, finds messages of this node with the validity time that hold the aliases `expected`, in their order. -/
structure MidRoundTrip (cnf : Cnf) (vtime : UInt8) (st st' : Sender) (expected : List IpAddr) : Prop where
  earlier : st.sent <+: st'.sent
  fits : ∀ msg ∈ newMessages st st', msg.length ≤ st.maxsize
  messages : ∀ msgs, List.Forall₂ Holds msgs (newMessages st st') → ∀ m ∈ msgs, ∃ x, (midChgestruct cnf m).1 = some x ∧
    x.addr = cnf.mainAddr ∧ x.vtime = meToReltime vtime ∧ x.aliases ≠ []
  aliases : ∀ msgs, List.Forall₂ Holds msgs (newMessages st st') →
    receivedMid cnf msgs = expected.map fun a => (a, cnf.mainAddr)

/-- What is read of the messages of the parts. -/
theorem read_parts (horig : cnf.mainAddr.length = cnf.ipsize) : ∀ (parts : List (List IpAddr)) (seqno : UInt16)
    {msgs : List Mem}, (∀ addrs ∈ parts, midHdrsize cnf + addrs.length * cnf.ipsize < 65536) →
    (∀ addrs ∈ parts, ∀ a ∈ addrs, a.length = cnf.ipsize) → (∀ addrs ∈ parts, addrs ≠ []) →
    List.Forall₂ Holds msgs (numbered (midPart cnf vtime) seqno parts) →
    (∀ m ∈ msgs, ∃ x, (midChgestruct cnf m).1 = some x ∧ x.addr = cnf.mainAddr ∧ x.vtime = meToReltime vtime ∧
      x.aliases ≠ []) ∧ receivedMid cnf msgs = parts.flatten.map fun a => (a, cnf.mainAddr)
  | [], _, msgs, _, _, _, h => by
    cases h
    exact ⟨by simp, rfl⟩
  | addrs :: parts, seqno, msgs, hfits, hsized, hdata, h => by
    rw [numbered] at h
    cases h with
    | cons hmsg hmsgs =>
      have hread := midChgestruct_bytes horig (hsized addrs List.mem_cons_self) (hfits addrs List.mem_cons_self) hmsg
      obtain ⟨hall, hrest⟩ := read_parts horig parts (seqno + 1) (fun p hp => hfits p (List.mem_cons_of_mem _ hp))
        (fun p hp => hsized p (List.mem_cons_of_mem _ hp)) (fun p hp => hdata p (List.mem_cons_of_mem _ hp)) hmsgs
      constructor
      · refine List.forall_mem_cons.2 ⟨⟨_, hread, rfl, rfl, ?_⟩, hall⟩
        exact fun hnil => hdata addrs List.mem_cons_self (List.reverse_eq_nil_iff.1 hnil)
      · rw [receivedMid, List.flatMap_cons, ← receivedMid, hrest, hread, List.flatten_cons, List.map_append,
          Option.elim_some, List.reverse_reverse]

theorem MidSent.roundTrip {ifnet : List IpAddr} {st st' : Sender} (horig : cnf.mainAddr.length = cnf.ipsize)
    (hsized : ∀ a ∈ ifnet, a.length = cnf.ipsize) (hmax : st.maxsize < 65536) (h : MidSent cnf vtime st st' parts)
    (hparts : parts.flatten = ifnet.filter (· ≠ cnf.mainAddr)) :
    MidRoundTrip cnf vtime st st' (ifnet.filter (· ≠ cnf.mainAddr)) := by
  have hnew : newMessages st st' = numbered (midPart cnf vtime) st.messageSeqno parts := by
    rw [newMessages, h.sent, List.drop_left]
  have hsizedParts : ∀ addrs ∈ parts, ∀ a ∈ addrs, a.length = cnf.ipsize := by
    intro addrs haddrs a ha
    have hmem : a ∈ ifnet.filter (· ≠ cnf.mainAddr) := hparts ▸ List.mem_flatten_of_mem haddrs ha
    exact hsized a (List.mem_filter.1 hmem).1
  have hread : ∀ msgs, List.Forall₂ Holds msgs (newMessages st st') → _ := fun msgs hmsgs =>
    read_parts horig parts st.messageSeqno (fun addrs haddrs => lt_of_le_of_lt (h.fits addrs haddrs) hmax)
      hsizedParts h.data (hnew ▸ hmsgs)
  refine ⟨⟨_, h.sent.symm⟩, fun msg hmsg => ?_, fun msgs hmsgs => (hread msgs hmsgs).1, fun msgs hmsgs => ?_⟩
  · rw [hnew] at hmsg
    obtain ⟨seqno, addrs, haddrs, rfl⟩ := mem_numbered hmsg
    rw [length_midPart horig (hsizedParts addrs haddrs)]
    exact h.fits addrs haddrs
  · rw [(hread msgs hmsgs).2, hparts]

/-- For all interfaces, fill levels and output buffers below 64 KiB with room for an address: receivers find the
addresses of all interfaces but the main one in their order, if and only if there are no others or they find room. -/
theorem queueMid_roundTrip_iff {ifnet : List IpAddr} {st : Sender} (horig : cnf.mainAddr.length = cnf.ipsize)
    (hsized : ∀ a ∈ ifnet, a.length = cnf.ipsize) (hpending : st.pending ≤ st.maxsize)
    (hroom : midHdrsize cnf + cnf.ipsize ≤ st.maxsize) (hmax : st.maxsize < 65536) :
    (∃ st', queueMid cnf vtime ifnet st = some st' ∧
      MidRoundTrip cnf vtime st st' (ifnet.filter (· ≠ cnf.mainAddr))) ↔
      ifnet = [] ∨ ifnet = [cnf.mainAddr] ∨ MidRoom cnf ifnet st := by
  rw [queueMid_eq]
  constructor
  · rintro ⟨st', hst', -⟩
    exact (serializeMid_sent horig hsized hpending hroom hmax hst').1
  · intro hfits
    obtain ⟨st', parts, hst', hsent, hparts⟩ := (serializeMid_spec horig hsized hpending hroom hmax).1 hfits
    exact ⟨st', hst', hsent.roundTrip horig hsized hmax hparts⟩

end

/-- Four interfaces with the main address among them, in a buffer with room for two more. -/
theorem queueMid_roundTrip_fragmented : ∃ st', queueMid ipv4Cnf 0x86
      [[10, 0, 1, 1], [10, 0, 0, 1], [10, 0, 2, 1], [10, 0, 3, 1]] ⟨3, 22, 5, []⟩ = some st' ∧
    MidRoundTrip ipv4Cnf 0x86 ⟨3, 22, 5, []⟩ st' [[10, 0, 1, 1], [10, 0, 2, 1], [10, 0, 3, 1]] :=
  (queueMid_roundTrip_iff rfl (by decide) (by decide) (by decide) (by decide)).2 (by decide)

end Olsrd.Message
