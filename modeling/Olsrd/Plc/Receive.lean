/-
The reception of management frames in `plc_service.c`: frames come in until one ends the loop. What a short frame does
not overwrite stays in the buffer, and no later frame is copied further than the shortest one before it.
-/
import Olsrd.Lib.Bytes

namespace Olsrd.Plc

open Bytes

/-- The captured bytes of a frame, `caplen` of them. -/
abbrev Frame := List UInt8

/-- `sizeof(struct ether_header)` -/
def etherHeaderLen : Nat := 14

/-- What the headers of `faifa` say: the ethernet types, and the places in a `struct hpav_frame`. -/
structure Faifa where
  ethertypeHomeplug : Nat
  ethertypeHomeplugAv : Nat
  mmtype : Nat
  vendorData : Nat
  publicData : Nat
  hpavMmCategoryMask : Nat
  hpavMmVendorSpec : Nat

/-- How far the fields go that are looked at. -/
def Faifa.header (faifa : Faifa) : Nat := etherHeaderLen + faifa.mmtype + 2

/-- `ether_type`, which is in network order -/
def ethType (m : Mem) : Nat := m.u16 12

/-- `header.mmtype` of a HomePlug AV frame, the low byte first -/
def frameMmtype (faifa : Faifa) (m : Mem) : Nat := ofLittleEnd (m.slice (etherHeaderLen + faifa.mmtype) 2)

/-- Where the payload of a HomePlug AV frame starts. -/
def payloadOffset (faifa : Faifa) (m : Mem) : Nat :=
  etherHeaderLen + if frameMmtype faifa m &&& faifa.hpavMmCategoryMask = faifa.hpavMmVendorSpec then faifa.vendorData
    else faifa.publicData

/-- What a return of `recv_frame_pcap` leaves behind. After the end of the loop nothing is returned. -/
structure Received where
  offset : Option Nat
  frameBuf : Mem
  plcMac : List UInt8
  rest : List Frame

/-- The new `frame_len` -/
def cutLen (frameLen caplen : Nat) : Nat := if frameLen > caplen then caplen else frameLen

/-- The loop of `recv_frame_pcap`, which goes on waiting when no frame comes in. -/
def recvLoop (faifa : Faifa) (mmtype : Nat) : Mem → Nat → List Frame → Option Received
  | _, _, [] => none
  | frameBuf, frameLen, pcapData :: rest =>
    let frameLen := cutLen frameLen pcapData.length
    let frameBuf := frameBuf.write 0 (pcapData.take frameLen)
    let plcMac := frameBuf.slice 6 6
    if ethType frameBuf = faifa.ethertypeHomeplugAv ∧ frameMmtype faifa frameBuf = mmtype then
      some ⟨some (payloadOffset faifa frameBuf), frameBuf, plcMac, rest⟩
    else if ethType frameBuf ≠ faifa.ethertypeHomeplug ∧ ethType frameBuf ≠ faifa.ethertypeHomeplugAv then
      recvLoop faifa mmtype frameBuf frameLen rest
    else some ⟨none, frameBuf, plcMac, rest⟩

/-- `recv_frame_pcap` -/
def recvFramePcap (faifa : Faifa) (frameBuf : Mem) (frameLen mmtype : Nat) (frames : List Frame) : Option Received :=
  recvLoop faifa mmtype (frameBuf.write 0 (List.replicate frameLen 0)) frameLen frames

/-! ## What the frames leave in the buffer -/

variable {faifa : Faifa} {m : Mem} {f w : Frame} {before fs rest : List Frame} {n mmtype p : Nat}

/-- The frame as memory -/
def Frame.mem (f : Frame) : Mem := fun i => f.getD i 0

/-- A HomePlug AV frame with the requested management message -/
structure Wanted (faifa : Faifa) (mmtype : Nat) (f : Frame) : Prop where
  whole : faifa.header ≤ f.length
  ethType : Plc.ethType f.mem = faifa.ethertypeHomeplugAv
  mmtype : frameMmtype faifa f.mem = mmtype

/-- The byte at `p` after these frames: only as long as all of them reach it, it is that of the latest. -/
def leftAt (p : Nat) : UInt8 → List Frame → UInt8
  | b, [] => b
  | b, f :: fs => if p < f.length then leftAt p (f.mem p) fs else b

/-- What is left in a cleared buffer. -/
def leftIn (fs : List Frame) : Mem := fun p => leftAt p 0 fs

/-- A type that ends the loop -/
def Ends (faifa : Faifa) (m : Mem) : Prop := ethType m = faifa.ethertypeHomeplug ∨ ethType m = faifa.ethertypeHomeplugAv

/-- The earlier frames leave the loop running, and the later one whole. -/
structure Undisturbed (faifa : Faifa) (frameLen : Nat) (before : List Frame) (w : Frame) : Prop where
  passed : ∀ fs, fs <+: before → fs ≠ [] → ¬Ends faifa (leftIn fs)
  whole : ∀ p, p < frameLen → p < w.length → (∀ f ∈ before, p < f.length) ∨ leftIn before p = w.mem p

/-- The function returns with this frame: where its payload starts, and its bytes as far as the buffer goes. -/
def Delivers (faifa : Faifa) (frameLen : Nat) (w : Frame) (rest : List Frame) (result : Option Received) : Prop :=
  ∃ r, result = some r ∧ r.offset = some (payloadOffset faifa w.mem) ∧
    r.frameBuf.slice 0 (min frameLen w.length) = w.take frameLen ∧ r.rest = rest

/-- The loop's buffer after frames that did not end it. -/
def bufAfter (m : Mem) (n : Nat) (fs : List Frame) : Mem := fun p => if p < n then leftAt p (m p) fs else m p

/-- The loop's `frame_len` after frames that did not end it. -/
def lenAfter (n : Nat) : List Frame → Nat
  | [] => n
  | f :: fs => lenAfter (cutLen n f.length) fs

@[simp] theorem bufAfter_nil (m : Mem) (n : Nat) : bufAfter m n [] = m := funext fun _ => ite_self _

theorem write_frame_apply (m : Mem) (n : Nat) (f : Frame) (p : Nat) :
    (m.write 0 (f.take n)) p = if p < n ∧ p < f.length then f.mem p else m p := by
  unfold Mem.write Frame.mem
  rw [if_pos (Nat.zero_le _), Nat.sub_zero, List.getD_eq_getElem?_getD, List.getD_eq_getElem?_getD, List.getElem?_take]
  by_cases hn : p < n
  · by_cases hf : p < f.length
    · simp [hn, hf]
    · simp [hn, hf]
  · simp [hn]

theorem lt_cutLen {caplen : Nat} : p < cutLen n caplen ↔ p < n ∧ p < caplen := by
  unfold cutLen
  split <;> omega

theorem bufAfter_cons (m : Mem) (n : Nat) (f : Frame) (fs : List Frame) :
    bufAfter (m.write 0 (f.take (cutLen n f.length))) (cutLen n f.length) fs =
      bufAfter m n (f :: fs) := by
  funext p
  simp only [bufAfter, write_frame_apply, leftAt, lt_cutLen]
  by_cases hn : p < n
  · by_cases hf : p < f.length
    · simp [hn, hf]
    · simp [hn, hf]
  · simp [hn]

theorem lt_lenAfter : p < lenAfter n fs ↔ p < n ∧ ∀ f ∈ fs, p < f.length := by
  induction fs generalizing n with
  | nil => simp [lenAfter]
  | cons f fs ih => rw [lenAfter, ih, List.forall_mem_cons, ← and_assoc, lt_cutLen]

/-! ## The loop -/

/-- Frames that do not end the loop are passed. -/
theorem recvLoop_append (h : ∀ pre, pre <+: before → pre ≠ [] → ¬Ends faifa (bufAfter m n pre)) :
    recvLoop faifa mmtype m n (before ++ fs) = recvLoop faifa mmtype (bufAfter m n before) (lenAfter n before) fs := by
  induction before generalizing m n with
  | nil =>
    rw [bufAfter_nil]
    rfl
  | cons f before ih =>
    have hgo := h [f] (by simp) (List.cons_ne_nil _ _)
    rw [← bufAfter_cons, bufAfter_nil, Ends, not_or] at hgo
    rw [List.cons_append, recvLoop, if_neg fun hav => hgo.2 hav.1, if_pos hgo, ih, bufAfter_cons, lenAfter]
    intro pre hpre _
    rw [bufAfter_cons]
    exact h _ (List.cons_prefix_cons.2 ⟨rfl, hpre⟩) (List.cons_ne_nil _ _)

/-- A frame that ends the loop is the last one that is taken. -/
theorem rest_of_ends {pre : List Frame} (hpre : pre <+: before) (hne : pre ≠ [])
    (hends : Ends faifa (bufAfter m n pre)) :
    ∃ r, recvLoop faifa mmtype m n (before ++ fs) = some r ∧ fs.length ≤ r.rest.length := by
  induction before generalizing m n pre with
  | nil => exact absurd (List.prefix_nil.1 hpre) hne
  | cons f before ih =>
    obtain ⟨g, pre, rfl⟩ := List.exists_cons_of_ne_nil hne
    obtain ⟨rfl, hpre'⟩ := List.cons_prefix_cons.1 hpre
    rw [← bufAfter_cons] at hends
    have hrest : fs.length ≤ (before ++ fs).length := by
      rw [List.length_append]
      exact Nat.le_add_left ..
    rw [List.cons_append, recvLoop]
    split
    · exact ⟨_, rfl, hrest⟩
    split
    · next hgo =>
      refine ih hpre' (fun hnil => ?_) hends
      rw [hnil, bufAfter_nil] at hends
      exact hends.elim hgo.1 hgo.2
    · exact ⟨_, rfl, hrest⟩

theorem rest_lt {r : Received} (h : recvLoop faifa mmtype m n fs = some r) : r.rest.length < fs.length := by
  induction fs generalizing m n with
  | nil => cases h
  | cons f fs ih =>
    rw [recvLoop] at h
    split at h
    · obtain rfl := Option.some.inj h
      exact Nat.lt_succ_self _
    split at h
    · exact (ih h).trans (Nat.lt_succ_self _)
    · obtain rfl := Option.some.inj h
      exact Nat.lt_succ_self _

/-- Only the bytes of the headers are looked at. -/
theorem fields_congr {m' : Mem} (h : ∀ p < faifa.header, m p = m' p) :
    ethType m = ethType m' ∧ frameMmtype faifa m = frameMmtype faifa m' := by
  unfold Faifa.header etherHeaderLen at h
  unfold ethType frameMmtype Mem.u16 etherHeaderLen
  rw [h 12 (by omega), h 13 (by omega), Mem.slice_eq_iff.2 fun i hi => h _ (by omega)]
  exact ⟨rfl, rfl⟩

/-! ## The first wanted frame -/

theorem slice_eq_take : (m.slice 0 (min n w.length) = w.take n) ↔ ∀ p, p < n → p < w.length → m p = w.mem p := by
  have htake : w.take n = w.mem.slice 0 (min n w.length) := by
    refine List.ext_getElem (by simp) fun i h₁ h₂ => ?_
    have hi : i < w.length := by
      rw [List.length_take] at h₁
      omega
    simp [Mem.slice, Frame.mem, List.getElem?_eq_getElem hi]
  rw [htake, Mem.slice_eq_iff]
  simp only [Nat.zero_add, Nat.lt_min, and_imp]

/-- The frame is taken when the loop sees it with its own bytes. -/
theorem recvLoop_cons_iff (hw : Wanted faifa mmtype w) (hlen : faifa.header ≤ p) {buf : Mem}
    (hbuf : buf = m.write 0 (w.take (cutLen n w.length))) :
    Delivers faifa p w rest (recvLoop faifa mmtype m n (w :: rest)) ↔ ∀ i, i < p → i < w.length → buf i = w.mem i := by
  rw [recvLoop, ← slice_eq_take, ← hbuf]
  constructor
  · rintro ⟨r, hr, -, hslice, hrest⟩
    -- a loop that went on would have taken another frame
    split at hr
    · obtain rfl := Option.some.inj hr
      exact hslice
    split at hr
    · rw [← hrest] at hr
      exact absurd (rest_lt hr) (Nat.lt_irrefl _)
    · obtain rfl := Option.some.inj hr
      exact hslice
  · intro hslice
    have hown := slice_eq_take.1 hslice
    obtain ⟨htype, hmmtype⟩ : ethType buf = ethType w.mem ∧ frameMmtype faifa buf = frameMmtype faifa w.mem :=
      fields_congr fun i hi => hown i (by omega) (Nat.lt_of_lt_of_le hi hw.whole)
    rw [if_pos ⟨htype.trans hw.ethType, hmmtype.trans hw.mmtype⟩]
    refine ⟨_, rfl, ?_, hslice, rfl⟩
    simp only [payloadOffset, hmmtype]

/-- What frames that all reach a place leave there is the byte of the last one. -/
theorem leftAt_getLast {b : UInt8} (hne : fs ≠ []) (h : ∀ f ∈ fs, p < f.length) :
    leftAt p b fs = (fs.getLast hne).mem p := by
  induction fs generalizing b with
  | nil => exact absurd rfl hne
  | cons f fs ih =>
    obtain ⟨hf, hfs⟩ := List.forall_mem_cons.1 h
    rw [leftAt, if_pos hf]
    cases fs with
    | nil => rfl
    | cons g fs => exact ih (List.cons_ne_nil _ _) hfs

/-- Frames of other protocols that are no shorter do not matter. -/
theorem undisturbed_of_long {frameLen : Nat} (hlen : faifa.header ≤ frameLen) (hw : faifa.header ≤ w.length)
    (h : ∀ f ∈ before, ¬Ends faifa f.mem ∧ min frameLen w.length ≤ f.length) : Undisturbed faifa frameLen before w where
  passed fs hfs hne hends := by
    have hlong : ∀ f ∈ fs, faifa.header ≤ f.length := by
      intro f hf
      have hmin := (h f (hfs.subset hf)).2
      omega
    have hlast : Ends faifa (fs.getLast hne).mem := by
      unfold Ends at hends ⊢
      rw [← (@fields_congr faifa _ _ fun i hi => leftAt_getLast hne fun f hf => Nat.lt_of_lt_of_le hi (hlong f hf)).1]
      exact hends
    exact (h _ (hfs.subset (List.getLast_mem hne))).1 hlast
  whole p hp hp' := by
    refine .inl fun f hf => ?_
    have hmin := (h f hf).2
    omega

/-- A wanted frame, the first one of them all in particular, is delivered exactly if the frames before leave it
undisturbed. -/
theorem recvFramePcap_delivers_iff (frameBuf : Mem) {frameLen : Nat} (hlen : faifa.header ≤ frameLen)
    (hw : Wanted faifa mmtype w) :
    Delivers faifa frameLen w rest (recvFramePcap faifa frameBuf frameLen mmtype (before ++ w :: rest)) ↔
      Undisturbed faifa frameLen before w := by
  obtain ⟨buf, hbuf⟩ : ∃ buf : Mem, buf = frameBuf.write 0 (List.replicate frameLen 0) := ⟨_, rfl⟩
  have hzero : ∀ i < frameLen, buf i = 0 := by
    intro i hi
    rw [hbuf, ← Nat.zero_add i, Mem.write_apply (by rw [List.length_replicate]; exact hi)]
    simp
  have hleft : ∀ (fs : List Frame), ∀ i < frameLen, bufAfter buf frameLen fs i = leftIn fs i := by
    intro fs i hi
    rw [bufAfter, if_pos hi, hzero i hi]
    rfl
  have hends : ∀ fs, Ends faifa (bufAfter buf frameLen fs) ↔ Ends faifa (leftIn fs) := by
    intro fs
    unfold Ends
    rw [(@fields_congr faifa _ _ fun i hi => hleft fs i (Nat.lt_of_lt_of_le hi hlen)).1]
  unfold recvFramePcap
  rw [← hbuf]
  by_cases hpassed : ∀ fs, fs <+: before → fs ≠ [] → ¬Ends faifa (leftIn fs)
  · rw [recvLoop_append fun pre hpre hne => (hends pre).not.2 (hpassed pre hpre hne), recvLoop_cons_iff hw hlen rfl]
    -- a byte of the frame is copied if all earlier frames reach it, and else the one that was left
    have hbyte : ∀ i, i < frameLen → i < w.length →
        ((bufAfter buf frameLen before).write 0 (w.take (cutLen (lenAfter frameLen before) w.length)) i = w.mem i ↔
          (∀ f ∈ before, i < f.length) ∨ leftIn before i = w.mem i) := by
      intro i hi hi'
      simp only [write_frame_apply, lt_cutLen, lt_lenAfter]
      by_cases hall : ∀ f ∈ before, i < f.length
      · rw [if_pos ⟨⟨⟨hi, hall⟩, hi'⟩, hi'⟩]
        exact iff_of_true rfl (.inl hall)
      · rw [if_neg fun h => hall h.1.1.2, hleft before i hi]
        exact ⟨.inr, fun h => h.resolve_left hall⟩
    exact ⟨fun h => ⟨hpassed, fun i hi hi' => (hbyte i hi hi').1 (h i hi hi')⟩,
      fun h i hi hi' => (hbyte i hi hi').2 (h.whole i hi hi')⟩
  · refine iff_of_false ?_ fun h => hpassed h.passed
    push Not at hpassed
    obtain ⟨pre, hpre, hne, hpre'⟩ := hpassed
    obtain ⟨r, hr, hrest⟩ := @rest_of_ends faifa _ _ (w :: rest) _ mmtype pre hpre hne ((hends pre).2 hpre')
    rintro ⟨r', hr', -, -, rfl⟩
    rw [hr] at hr'
    obtain rfl := Option.some.inj hr'
    exact absurd hrest (Nat.not_succ_le_self _)

/-- The headers of `faifa` -/
def faifaHeaders : Faifa := ⟨0x887b, 0x88e1, 1, 6, 5, 0xe000, 0xa000⟩

/-- A frame of this type and, if it is one of HomePlug AV, with this management message -/
def frameOf (ethType : List UInt8) (mmtype : List UInt8) : Frame := List.replicate 12 0 ++ ethType ++ [1] ++ mmtype

/-- The answer to another station's question comes first. -/
theorem not_recvFramePcap_delivers : ∃ f w : Frame, ¬Wanted faifaHeaders 0xa039 f ∧ Wanted faifaHeaders 0xa039 w ∧
    ¬Delivers faifaHeaders 1518 w [] (recvFramePcap faifaHeaders (fun _ => 0) 1518 0xa039 [f, w]) := by
  refine ⟨frameOf [0x88, 0xe1] [0x71, 0xa0], frameOf [0x88, 0xe1] [0x39, 0xa0], fun h => absurd h.mmtype (by decide),
    ⟨by decide, by decide, by decide⟩, ?_⟩
  rintro ⟨r, hr, hoffset, -⟩
  have hnone : (recvFramePcap faifaHeaders (fun _ => 0) 1518 0xa039
      [frameOf [0x88, 0xe1] [0x71, 0xa0], frameOf [0x88, 0xe1] [0x39, 0xa0]]).bind (·.offset) = none := by decide
  rw [hr, Option.bind_some, hoffset] at hnone
  cases hnone

theorem recvFramePcap_delivers_iff_other : Delivers faifaHeaders 1518 (frameOf [0x88, 0xe1] [0x39, 0xa0]) []
    (recvFramePcap faifaHeaders (fun _ => 0) 1518 0xa039
      [frameOf [8, 0] [0, 0], frameOf [0x88, 0xe1] [0x39, 0xa0]]) := by
  have hwanted : Wanted faifaHeaders 0xa039 (frameOf [0x88, 0xe1] [0x39, 0xa0]) := ⟨by decide, by decide, by decide⟩
  refine (@recvFramePcap_delivers_iff _ _ [frameOf [8, 0] [0, 0]] _ _ _ _ (by decide) hwanted).2 ?_
  refine undisturbed_of_long (by decide) (by decide) fun f hf => ?_
  rw [List.mem_singleton.1 hf]
  exact ⟨fun h => h.elim (by decide) (by decide), by decide⟩

end Olsrd.Plc
