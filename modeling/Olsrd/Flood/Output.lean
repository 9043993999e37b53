/-
The bytes that `olsr_forward_message` puts out (`olsr.c`, `net_olsr.c`). What an interface has sent and what is pending
in its buffer are one stream, and a message that is forwarded comes to its end. Timers and the errors of `sendto` are
outside.
-/
import Olsrd.Flood.DuplicateSet
import Olsrd.Lib.Bytes

namespace Olsrd.Flood.Output

open Bytes

/-! ## Buffers -/

inductive IfMode where
  | mesh
  | ether
  | plc
  deriving DecidableEq, Repr

/-- `struct olsr_netbuf`; what is pending lies behind the place for the packet header. -/
structure Netbuf where
  buff : Mem
  maxsize : Nat
  pending : Nat
  bounded : pending ≤ maxsize

/-- A packet as `net_output` has put it together, and as it went out. -/
structure SentPacket where
  packet : List UInt8
  wire : List UInt8

/-- `struct interface`, with what it has sent so far. -/
structure OutInterface where
  mode : IfMode
  olsrSeqnum : UInt16
  netbuf : Netbuf
  sent : List SentPacket

/-- `OLSR_HEADERSIZE` -/
def olsrHeadersize : Nat := 4

/-- `net_output_pending`, which returns 16 bits of it. -/
def netOutputPending (ifp : OutInterface) : UInt16 := UInt16.ofNat ifp.netbuf.pending

/-- `net_outbuffer_push` of the first `size` bytes of `data`: the interface and the number of bytes added. -/
def netOutbufferPush (ifp : OutInterface) (data : Mem) (size : Nat) : OutInterface × Nat :=
  if h : ifp.netbuf.pending + size > ifp.netbuf.maxsize then (ifp, 0)
  else
    ({ ifp with
        netbuf :=
          { buff := ifp.netbuf.buff.write (ifp.netbuf.pending + olsrHeadersize) (data.slice 0 size)
            maxsize := ifp.netbuf.maxsize
            pending := ifp.netbuf.pending + size
            bounded := Nat.le_of_not_lt h } }, size)

/-- `net_output`; the packet transform functions work on the buffer. -/
def netOutput (ptfList : List (List UInt8 → List UInt8)) (ifp : OutInterface) : OutInterface :=
  if ifp.netbuf.pending = 0 then ifp
  else
    let packlen := ifp.netbuf.pending + olsrHeadersize
    let buff := (ifp.netbuf.buff.write 2 (bigEnd 2 ifp.olsrSeqnum.toNat)).write 0 (bigEnd 2 packlen)
    let packet := buff.slice 0 packlen
    let wire := ptfList.foldl (fun bs f => f bs) packet
    { mode := ifp.mode
      olsrSeqnum := ifp.olsrSeqnum + 1
      netbuf := ⟨buff.write 0 wire, ifp.netbuf.maxsize, 0, Nat.zero_le _⟩
      sent := ifp.sent ++ [⟨packet, wire⟩] }

/-! ## Forwarding -/

/-- `is_ttl_1`; the time to live and the hop count lie behind the originator. -/
def isTtl1 (cnf : Cnf) (m : Mem) : Bool :=
  (m (4 + cnf.ipsize)).toNat < 2 || 255 < (m (5 + cnf.ipsize)).toNat + (m (4 + cnf.ipsize)).toNat

/-- The message as it is sent on. -/
def relayedMessage (cnf : Cnf) (m : Mem) : Mem :=
  if isTtl1 cnf m then m
  else (m.write (5 + cnf.ipsize) [m (5 + cnf.ipsize) + 1]).write (4 + cnf.ipsize) [m (4 + cnf.ipsize) - 1]

/-- The body of the interface loop of `olsr_forward_message`. -/
def forwardOn (ptfList : List (List UInt8 → List UInt8)) (m : Mem) (msgsize : Nat) (isTtl1 sameIf : Bool)
    (ifn : OutInterface) : OutInterface :=
  -- do not retransmit out through the same interface if it has mode == ether
  if sameIf && ifn.mode == .ether then ifn
  -- do not forward TTL 1 messages to non-ether interfaces
  else if isTtl1 && ifn.mode != .ether then ifn
  else if netOutputPending ifn ≠ 0 then
    let pushed := netOutbufferPush ifn m msgsize
    if pushed.2 ≠ msgsize then (netOutbufferPush (netOutput ptfList pushed.1) m msgsize).1 else pushed.1
  else (netOutbufferPush ifn m msgsize).1

/-- What a call of `olsr_forward_message` leaves behind, and whether it forwarded the message. -/
structure Forwarded where
  set : DuplicateSet
  message : Mem
  ifnet : List OutInterface
  forwarded : Bool

/-- `olsr_forward_message` on a message that came in through interface number `inIf`. -/
def olsrForwardMessage (cnf : Cnf) (ptfList : List (List UInt8 → List UInt8)) (w : World) (set : DuplicateSet)
    (ifnet : List OutInterface) (m : Mem) (inIf : Nat) (fromAddr : IpAddr) : Forwarded :=
  if forwardsFor w fromAddr then
    let (set, duplicate) := olsrMessageIsDuplicate w.nowTimes set (m.slice 4 cnf.ipsize)
      (UInt16.ofNat (m.u16 (6 + cnf.ipsize)))
    if duplicate then ⟨set, m, ifnet, false⟩
    else
      let message := relayedMessage cnf m
      let msgsize := message.u16 2
      ⟨set, message, ifnet.mapIdx fun i ifn => forwardOn ptfList message msgsize (isTtl1 cnf m) (i == inIf) ifn, true⟩
  else ⟨set, m, ifnet, false⟩

/-! ## Streams -/

/-- What has gone out behind the packet headers, and what is pending. -/
def OutInterface.stream (ifp : OutInterface) : List UInt8 :=
  ifp.sent.flatMap (fun p => p.packet.drop olsrHeadersize) ++ ifp.netbuf.buff.slice olsrHeadersize ifp.netbuf.pending

section

variable (ptfList : List (List UInt8 → List UInt8)) {ifp : OutInterface} {data : Mem} {size : Nat}

theorem netOutbufferPush_refused (h : ifp.netbuf.maxsize < ifp.netbuf.pending + size) :
    netOutbufferPush ifp data size = (ifp, 0) :=
  dif_pos h

theorem netOutbufferPush_taken (h : ifp.netbuf.pending + size ≤ ifp.netbuf.maxsize) :
    (netOutbufferPush ifp data size).2 = size ∧
      (netOutbufferPush ifp data size).1.stream = ifp.stream ++ data.slice 0 size := by
  unfold netOutbufferPush
  rw [dif_neg (Nat.not_lt.2 h)]
  refine ⟨rfl, ?_⟩
  unfold OutInterface.stream
  dsimp only
  rw [Mem.slice_add, Mem.slice_write_out (by simp [olsrHeadersize, Nat.add_comm]), Nat.add_comm olsrHeadersize,
    ← List.append_assoc]
  congr 1
  have hwrite := Mem.slice_write ifp.netbuf.buff (ifp.netbuf.pending + olsrHeadersize) (data.slice 0 size)
  rwa [Mem.length_slice] at hwrite

/-- Sending takes nothing out of the stream. -/
theorem stream_netOutput : (netOutput ptfList ifp).stream = ifp.stream := by
  unfold netOutput
  split
  · rfl
  · unfold OutInterface.stream
    rw [List.flatMap_append]
    simp only [List.flatMap_cons, List.flatMap_nil, List.append_nil]
    rw [Nat.add_comm, Mem.slice_add, List.drop_left' (Mem.length_slice ..), Nat.zero_add,
      Mem.slice_write_out (by simp [olsrHeadersize]), Mem.slice_write_out (by simp [olsrHeadersize])]
    simp [Mem.slice]

theorem pending_netOutput : (netOutput ptfList ifp).netbuf.pending = 0 := by
  unfold netOutput
  split
  · assumption
  · rfl

theorem maxsize_netOutput : (netOutput ptfList ifp).netbuf.maxsize = ifp.netbuf.maxsize := by
  unfold netOutput
  split <;> rfl

theorem maxsize_netOutbufferPush : (netOutbufferPush ifp data size).1.netbuf.maxsize = ifp.netbuf.maxsize := by
  unfold netOutbufferPush
  split <;> rfl

end

/-! ## One interface -/

/-- The message goes out through the interface: not where it came in, and one at the end of its life to ether links
only. -/
def eligible (isTtl1 sameIf : Bool) (ifn : OutInterface) : Bool :=
  !(sameIf && ifn.mode == .ether) && !(isTtl1 && ifn.mode != .ether)

/-- The message finds room, perhaps after what is pending has been sent. -/
def takes (msgsize : Nat) (ifn : OutInterface) : Bool :=
  if netOutputPending ifn = 0 then ifn.netbuf.pending + msgsize ≤ ifn.netbuf.maxsize else msgsize ≤ ifn.netbuf.maxsize

variable {ptfList : List (List UInt8 → List UInt8)} {m : Mem} {msgsize : Nat} {isTtl1 sameIf : Bool}
  {ifn : OutInterface}

theorem forwardOn_of_not_eligible (h : eligible isTtl1 sameIf ifn = false) :
    forwardOn ptfList m msgsize isTtl1 sameIf ifn = ifn := by
  unfold eligible at h
  rw [Bool.and_eq_false_iff, Bool.not_eq_false', Bool.not_eq_false'] at h
  unfold forwardOn
  rcases h with hsame | httl
  · rw [if_pos hsame]
  · by_cases hsame : (sameIf && ifn.mode == .ether) = true
    · rw [if_pos hsame]
    · rw [if_neg hsame, if_pos httl]

theorem stream_push_takes (hpos : netOutputPending ifn = 0) :
    (netOutbufferPush ifn m msgsize).1.stream = ifn.stream ++ if takes msgsize ifn then m.slice 0 msgsize else [] := by
  unfold takes
  rw [if_pos hpos]
  by_cases hfits : ifn.netbuf.pending + msgsize ≤ ifn.netbuf.maxsize
  · rw [(netOutbufferPush_taken hfits).2, if_pos (decide_eq_true hfits)]
  · rw [netOutbufferPush_refused (Nat.lt_of_not_le hfits), if_neg (mt of_decide_eq_true hfits), List.append_nil]

/-- The two tries of a message that finds something pending. -/
theorem stream_second_push (hpending : netOutputPending ifn ≠ 0) :
    (if (netOutbufferPush ifn m msgsize).2 ≠ msgsize then
        (netOutbufferPush (netOutput ptfList (netOutbufferPush ifn m msgsize).1) m msgsize).1
      else (netOutbufferPush ifn m msgsize).1).stream =
      ifn.stream ++ if takes msgsize ifn then m.slice 0 msgsize else [] := by
  unfold takes
  rw [if_neg hpending]
  by_cases hfits : ifn.netbuf.pending + msgsize ≤ ifn.netbuf.maxsize
  · obtain ⟨hsize, hstream⟩ : (netOutbufferPush ifn m msgsize).2 = msgsize ∧
        (netOutbufferPush ifn m msgsize).1.stream = ifn.stream ++ m.slice 0 msgsize := netOutbufferPush_taken hfits
    rw [if_neg (not_not.2 hsize), hstream, if_pos (decide_eq_true (le_trans (Nat.le_add_left _ _) hfits))]
  · rw [netOutbufferPush_refused (Nat.lt_of_not_le hfits)]
    have hne : (0 : Nat) ≠ msgsize := by
      rintro rfl
      exact hfits ifn.netbuf.bounded
    rw [if_pos hne]
    by_cases hroom : msgsize ≤ ifn.netbuf.maxsize
    · have hempty : (netOutput ptfList ifn).netbuf.pending + msgsize ≤ (netOutput ptfList ifn).netbuf.maxsize := by
        rw [pending_netOutput, maxsize_netOutput, Nat.zero_add]
        exact hroom
      rw [(netOutbufferPush_taken hempty).2, stream_netOutput, if_pos (decide_eq_true hroom)]
    · have hfull : (netOutput ptfList ifn).netbuf.maxsize < (netOutput ptfList ifn).netbuf.pending + msgsize := by
        rw [pending_netOutput, maxsize_netOutput, Nat.zero_add]
        exact Nat.lt_of_not_le hroom
      rw [netOutbufferPush_refused hfull, stream_netOutput, if_neg (mt of_decide_eq_true hroom), List.append_nil]

/-- The stream of an interface grows by the message, or not at all. -/
theorem stream_forwardOn : (forwardOn ptfList m msgsize isTtl1 sameIf ifn).stream =
    ifn.stream ++ if eligible isTtl1 sameIf ifn && takes msgsize ifn then m.slice 0 msgsize else [] := by
  cases heligible : eligible isTtl1 sameIf ifn with
  | false =>
    rw [forwardOn_of_not_eligible heligible]
    simp
  | true =>
    unfold eligible at heligible
    rw [Bool.and_eq_true, Bool.not_eq_true', Bool.not_eq_true'] at heligible
    unfold forwardOn
    rw [if_neg (by rw [heligible.1]; decide), if_neg (by rw [heligible.2]; decide), Bool.true_and]
    by_cases hpending : netOutputPending ifn = 0
    · rw [if_neg (not_not.2 hpending)]
      exact stream_push_takes hpending
    · rw [if_pos hpending]
      exact stream_second_push hpending

theorem maxsize_forwardOn :
    (forwardOn ptfList m msgsize isTtl1 sameIf ifn).netbuf.maxsize = ifn.netbuf.maxsize := by
  unfold forwardOn
  dsimp only
  split_ifs
  · rfl
  · rfl
  · rw [maxsize_netOutbufferPush, maxsize_netOutput, maxsize_netOutbufferPush]
  · exact maxsize_netOutbufferPush
  · exact maxsize_netOutbufferPush

/-- A message that fits into the buffer is turned down if the fill level is taken for zero. -/
theorem takes_iff (h : msgsize ≤ ifn.netbuf.maxsize) : takes msgsize ifn = true ↔
    (ifn.netbuf.pending % 65536 = 0 → ifn.netbuf.pending + msgsize ≤ ifn.netbuf.maxsize) := by
  have hzero : netOutputPending ifn = 0 ↔ ifn.netbuf.pending % 65536 = 0 := by
    unfold netOutputPending
    rw [← UInt16.toNat_inj, UInt16.toNat_ofNat']
    rfl
  unfold takes
  by_cases hpending : netOutputPending ifn = 0
  · rw [if_pos hpending, decide_eq_true_iff]
    exact ⟨fun hfits _ => hfits, fun hfits => hfits (hzero.1 hpending)⟩
  · rw [if_neg hpending, decide_eq_true_iff]
    exact iff_of_true h fun hmod => absurd (hzero.2 hmod) hpending

theorem takes_of_takes (h : takes msgsize ifn = true) : msgsize ≤ ifn.netbuf.maxsize := by
  unfold takes at h
  split at h
  · exact le_trans (Nat.le_add_left _ _) (of_decide_eq_true h)
  · exact of_decide_eq_true h

/-! ## The header -/

/-- What is left of the life of a message, and how far it has come. -/
structure HeaderKept (cnf : Cnf) (m m' : Mem) : Prop where
  alive : 2 ≤ (m (4 + cnf.ipsize)).toNat → (m (5 + cnf.ipsize)).toNat + (m (4 + cnf.ipsize)).toNat ≤ 255 →
    (m' (5 + cnf.ipsize)).toNat + (m' (4 + cnf.ipsize)).toNat =
    (m (5 + cnf.ipsize)).toNat + (m (4 + cnf.ipsize)).toNat ∧
      1 ≤ (m' (4 + cnf.ipsize)).toNat
  ended : (m (4 + cnf.ipsize)).toNat < 2 ∨ 255 < (m (5 + cnf.ipsize)).toNat + (m (4 + cnf.ipsize)).toNat → m' = m
  rest : ∀ i, i ≠ 4 + cnf.ipsize → i ≠ 5 + cnf.ipsize → m' i = m i

theorem isTtl1_iff {cnf : Cnf} : Output.isTtl1 cnf m = true ↔
    (m (4 + cnf.ipsize)).toNat < 2 ∨ 255 < (m (5 + cnf.ipsize)).toNat + (m (4 + cnf.ipsize)).toNat := by
  unfold Output.isTtl1
  rw [Bool.or_eq_true, decide_eq_true_iff, decide_eq_true_iff]

theorem headerKept_relayedMessage (cnf : Cnf) (m : Mem) : HeaderKept cnf m (relayedMessage cnf m) := by
  unfold relayedMessage
  by_cases hover : Output.isTtl1 cnf m = true
  · rw [if_pos hover]
    refine ⟨fun httl hsum => ?_, fun _ => rfl, fun _ _ _ => rfl⟩
    rw [isTtl1_iff] at hover
    omega
  · rw [if_neg hover]
    rw [isTtl1_iff] at hover
    refine ⟨fun httl hsum => ?_, fun h => absurd h hover, fun i httl hhop => ?_⟩
    · have hhop : (m (5 + cnf.ipsize) + 1).toNat = (m (5 + cnf.ipsize)).toNat + 1 := by
        rw [UInt8.toNat_add]
        exact Nat.mod_eq_of_lt (show (m (5 + cnf.ipsize)).toNat + 1 < 256 by omega)
      have hone : (1 : UInt8) ≤ m (4 + cnf.ipsize) := UInt8.le_iff_toNat_le.2 (show 1 ≤ _ by omega)
      have httl' : (m (4 + cnf.ipsize) - 1).toNat = (m (4 + cnf.ipsize)).toNat - 1 := UInt8.toNat_sub_of_le _ _ hone
      rw [Mem.write_one, Mem.write_apply_out (.inr (by rw [List.length_singleton]; omega)), Mem.write_one, hhop, httl']
      omega
    · rw [Mem.write_apply_out (by simp; omega), Mem.write_apply_out (by simp; omega)]

/-! ## Forwarding -/

/-- The header is kept, and every interface that is eligible has the message at the end of its stream, unless it is too
large for the buffer. -/
structure OutputOk (cnf : Cnf) (ifnet : List OutInterface) (m : Mem) (inIf : Nat) (f : Forwarded) : Prop where
  header : HeaderKept cnf m f.message
  length : f.ifnet.length = ifnet.length
  streams : ∀ (i : Nat) (ifn ifn' : OutInterface), ifnet[i]? = some ifn → f.ifnet[i]? = some ifn' →
    ifn'.stream = ifn.stream ++
      if eligible (Output.isTtl1 cnf m) (i == inIf) ifn = true ∧ m.u16 2 ≤ ifn.netbuf.maxsize then
        f.message.slice 0 (m.u16 2)
      else []
  bounded : ∀ (i : Nat) (ifn ifn' : OutInterface), ifnet[i]? = some ifn → f.ifnet[i]? = some ifn' →
    ifn'.netbuf.maxsize = ifn.netbuf.maxsize ∧ ifn'.netbuf.pending ≤ ifn.netbuf.maxsize

/-- A message that is forwarded goes to all the interfaces. -/
theorem olsrForwardMessage_cases {cnf : Cnf} {w : World} {set : DuplicateSet} {ifnet : List OutInterface} {inIf : Nat}
    {fromAddr : IpAddr} (h : (olsrForwardMessage cnf ptfList w set ifnet m inIf fromAddr).forwarded = true) :
    (olsrForwardMessage cnf ptfList w set ifnet m inIf fromAddr).message = relayedMessage cnf m ∧
      (olsrForwardMessage cnf ptfList w set ifnet m inIf fromAddr).ifnet = ifnet.mapIdx fun i ifn =>
        forwardOn ptfList (relayedMessage cnf m) (m.u16 2) (Output.isTtl1 cnf m) (i == inIf) ifn := by
  have hkept := headerKept_relayedMessage cnf m
  have hsize : (relayedMessage cnf m).u16 2 = m.u16 2 := by
    unfold Mem.u16
    rw [hkept.rest 2 (by omega) (by omega), hkept.rest (2 + 1) (by omega) (by omega)]
  unfold olsrForwardMessage at h ⊢
  split at h
  · next hfor =>
    rw [if_pos hfor]
    dsimp only at h ⊢
    split at h
    · cases h
    · next hnew =>
      rw [if_neg hnew]
      exact ⟨rfl, by rw [hsize]⟩
  · cases h

variable {cnf : Cnf} {w : World} {set : DuplicateSet} {ifnet : List OutInterface} {inIf : Nat} {fromAddr : IpAddr}

theorem getElem?_olsrForwardMessage (h : (olsrForwardMessage cnf ptfList w set ifnet m inIf fromAddr).forwarded = true)
    (i : Nat) : (olsrForwardMessage cnf ptfList w set ifnet m inIf fromAddr).ifnet[i]? = (ifnet[i]?).map fun ifn =>
      forwardOn ptfList (relayedMessage cnf m) (m.u16 2) (Output.isTtl1 cnf m) (i == inIf) ifn := by
  rw [(olsrForwardMessage_cases h).2, List.getElem?_mapIdx]

theorem OutputOk.takes (h : (olsrForwardMessage cnf ptfList w set ifnet m inIf fromAddr).forwarded = true)
    (hok : OutputOk cnf ifnet m inIf (olsrForwardMessage cnf ptfList w set ifnet m inIf fromAddr)) {i : Nat}
    (hifn : ifnet[i]? = some ifn) (heligible : eligible (Output.isTtl1 cnf m) (i == inIf) ifn = true)
    (hfits : m.u16 2 ≤ ifn.netbuf.maxsize) : Output.takes (m.u16 2) ifn = true := by
  have hstream := hok.streams i ifn _ hifn (by rw [getElem?_olsrForwardMessage h, hifn]; rfl)
  by_contra htakes
  rw [stream_forwardOn, heligible, Bool.true_and, if_neg htakes, if_pos ⟨rfl, hfits⟩,
    (olsrForwardMessage_cases h).1] at hstream
  have hlength := congrArg List.length (List.append_cancel_left hstream)
  rw [Mem.length_slice] at hlength
  refine htakes ((takes_iff hfits).2 fun _ => ?_)
  rw [← hlength]
  exact ifn.netbuf.bounded

/-- A buffer that can hold the message does not take it if a fill level that is not zero looks like it. -/
theorem outputOk_olsrForwardMessage_iff (cnf : Cnf) (ptfList : List (List UInt8 → List UInt8)) (w : World)
    (set : DuplicateSet) (ifnet : List OutInterface) (m : Mem) (inIf : Nat) (fromAddr : IpAddr)
    (h : (olsrForwardMessage cnf ptfList w set ifnet m inIf fromAddr).forwarded = true) :
    OutputOk cnf ifnet m inIf (olsrForwardMessage cnf ptfList w set ifnet m inIf fromAddr) ↔
      ∀ i ifn, ifnet[i]? = some ifn → eligible (Output.isTtl1 cnf m) (i == inIf) ifn = true →
        m.u16 2 ≤ ifn.netbuf.maxsize → ifn.netbuf.pending % 65536 = 0 →
          ifn.netbuf.pending + m.u16 2 ≤ ifn.netbuf.maxsize := by
  constructor
  · intro hok i ifn hifn heligible hfits
    exact (takes_iff hfits).1 (hok.takes h hifn heligible hfits)
  · intro hall
    obtain ⟨hmessage, hifnet⟩ := olsrForwardMessage_cases h
    refine ⟨hmessage ▸ headerKept_relayedMessage cnf m, by rw [hifnet, List.length_mapIdx],
      fun i ifn ifn' hifn hifn' => ?_, fun i ifn ifn' hifn hifn' => ?_⟩
    · rw [getElem?_olsrForwardMessage h, hifn] at hifn'
      obtain rfl := Option.some.inj hifn'
      rw [stream_forwardOn, hmessage]
      congr 1
      refine if_congr ?_ rfl rfl
      rw [Bool.and_eq_true]
      refine and_congr_right fun heligible => ⟨takes_of_takes, fun hfits => ?_⟩
      exact (takes_iff hfits).2 (hall i ifn hifn heligible hfits)
    · rw [getElem?_olsrForwardMessage h, hifn] at hifn'
      obtain rfl := Option.some.inj hifn'
      exact ⟨maxsize_forwardOn, maxsize_forwardOn.symm ▸ Netbuf.bounded _⟩

/-- A node with the one neighbour 10.0.0.2, for which it forwards. -/
def relayWorld : World where
  nowTimes := 0
  midLookupMainAddr _ := none
  neighborTable a := if a = [10, 0, 0, 2] then some .sym else none
  mprsSet _ := true
  ifnet := []

def cnf4 : Cnf := ⟨.inet, [10, 0, 0, 1], 2, []⟩

/-- A message of 256 bytes from 10.0.0.3, with a time to live of 5. -/
def message256 : Mem := fun i => [2, 0, 1, 0, 10, 0, 0, 3, 5, 1, 0, 7].getD i 0

/-- A mesh interface with the given room and fill level. -/
def filled (maxsize pending : Nat) (h : pending ≤ maxsize) : OutInterface :=
  ⟨.mesh, 0, ⟨fun _ => 0, maxsize, pending, h⟩, []⟩

theorem outputOk_filled : OutputOk cnf4 [filled 1400 1200 (by decide)] message256 0
    (olsrForwardMessage cnf4 [] relayWorld (fun _ => none) [filled 1400 1200 (by decide)] message256 0
      [10, 0, 0, 2]) := by
  refine (outputOk_olsrForwardMessage_iff cnf4 [] relayWorld (fun _ => none) [filled 1400 1200 (by decide)] message256 0
    [10, 0, 0, 2] (by decide +kernel)).2 fun i ifn hifn _ _ hmod => ?_
  cases i with
  | zero =>
    obtain rfl := Option.some.inj hifn
    exact absurd hmod (by decide)
  | succ i => cases hifn

/-- 65536 bytes are pending in a buffer of 65600, which look like none. -/
theorem not_outputOk_filled : ¬OutputOk cnf4 [filled 65600 65536 (by decide)] message256 0
    (olsrForwardMessage cnf4 [] relayWorld (fun _ => none) [filled 65600 65536 (by decide)] message256 0
      [10, 0, 0, 2]) := by
  intro hok
  have htakes := hok.takes (by decide +kernel) (i := 0) rfl (by decide +kernel) (by decide +kernel)
  revert htakes
  decide +kernel

theorem mode_netOutbufferPush {data : Mem} {size : Nat} : (netOutbufferPush ifn data size).1.mode = ifn.mode := by
  unfold netOutbufferPush
  split <;> rfl

theorem mode_netOutput : (netOutput ptfList ifn).mode = ifn.mode := by
  unfold netOutput
  split <;> rfl

theorem mode_forwardOn : (forwardOn ptfList m msgsize isTtl1 sameIf ifn).mode = ifn.mode := by
  unfold forwardOn
  dsimp only
  split_ifs
  · rfl
  · rfl
  · rw [mode_netOutbufferPush, mode_netOutput, mode_netOutbufferPush]
  · exact mode_netOutbufferPush
  · exact mode_netOutbufferPush

/-! ## Runs -/

/-- A message that comes in, and what the node looks like then. -/
structure Arrival where
  world : World
  message : Mem
  inIf : Nat
  fromAddr : IpAddr

def receive (cnf : Cnf) (ptfList : List (List UInt8 → List UInt8)) (set : DuplicateSet) (ifnet : List OutInterface)
    (x : Arrival) : Forwarded :=
  olsrForwardMessage cnf ptfList x.world set ifnet x.message x.inIf x.fromAddr

/-- The interfaces after a run of messages. -/
def outputs (cnf : Cnf) (ptfList : List (List UInt8 → List UInt8)) (set : DuplicateSet) (ifnet : List OutInterface) :
    List Arrival → List OutInterface
  | [] => ifnet
  | x :: xs =>
    let f := receive cnf ptfList set ifnet x
    outputs cnf ptfList f.set f.ifnet xs

/-- The messages of a run that interface number `i` has to put out. -/
def copies (cnf : Cnf) (ptfList : List (List UInt8 → List UInt8)) (i : Nat) (ifn : OutInterface) (set : DuplicateSet)
    (ifnet : List OutInterface) : List Arrival → List UInt8
  | [] => []
  | x :: xs =>
    let f := receive cnf ptfList set ifnet x
    (if f.forwarded = true ∧ eligible (Output.isTtl1 cnf x.message) (i == x.inIf) ifn = true ∧
        x.message.u16 2 ≤ ifn.netbuf.maxsize then f.message.slice 0 (x.message.u16 2) else []) ++
      copies cnf ptfList i ifn f.set f.ifnet xs

theorem eligible_congr {ifn' : OutInterface} (h : ifn'.mode = ifn.mode) :
    eligible isTtl1 sameIf ifn' = eligible isTtl1 sameIf ifn := by
  unfold eligible
  rw [h]

theorem copies_congr {cnf : Cnf} {i : Nat} {ifn' : OutInterface} (hmode : ifn'.mode = ifn.mode)
    (hmax : ifn'.netbuf.maxsize = ifn.netbuf.maxsize) :
    ∀ (xs : List Arrival) (set : DuplicateSet) (ifnet : List OutInterface),
    copies cnf ptfList i ifn' set ifnet xs = copies cnf ptfList i ifn set ifnet xs
  | [], _, _ => rfl
  | x :: xs, set, ifnet => by
    unfold copies
    dsimp only
    rw [eligible_congr hmode, hmax, copies_congr hmode hmax xs]

/-- A message that comes in, at an interface whose buffer is not too large. -/
theorem stream_receive {cnf : Cnf} {set : DuplicateSet} {ifnet : List OutInterface} (x : Arrival) {i : Nat}
    (hsmall : ifn.netbuf.maxsize < 65536) (hifn : ifnet[i]? = some ifn) :
    ∃ ifn', (receive cnf ptfList set ifnet x).ifnet[i]? = some ifn' ∧ ifn'.mode = ifn.mode ∧
      ifn'.netbuf.maxsize = ifn.netbuf.maxsize ∧ ifn'.stream = ifn.stream ++
        if (receive cnf ptfList set ifnet x).forwarded = true ∧
            eligible (Output.isTtl1 cnf x.message) (i == x.inIf) ifn = true ∧ x.message.u16 2 ≤ ifn.netbuf.maxsize then
          (receive cnf ptfList set ifnet x).message.slice 0 (x.message.u16 2) else [] := by
  cases hforwarded : (receive cnf ptfList set ifnet x).forwarded with
  | false =>
    have hsame : (receive cnf ptfList set ifnet x).ifnet = ifnet := by
      unfold receive olsrForwardMessage at hforwarded ⊢
      split
      · next hfor =>
        rw [if_pos hfor] at hforwarded
        dsimp only at hforwarded ⊢
        split
        · rfl
        · next hnew =>
          rw [if_neg hnew] at hforwarded
          cases hforwarded
      · rfl
    refine ⟨ifn, by rw [hsame]; exact hifn, rfl, rfl, ?_⟩
    simp
  | true =>
    obtain ⟨hmessage, hifnet⟩ := olsrForwardMessage_cases hforwarded
    refine ⟨forwardOn ptfList (relayedMessage cnf x.message) (x.message.u16 2) (Output.isTtl1 cnf x.message)
      (i == x.inIf) ifn, ?_, mode_forwardOn, maxsize_forwardOn, ?_⟩
    · unfold receive
      rw [hifnet, List.getElem?_mapIdx, hifn]
      rfl
    · have hmessage' : (receive cnf ptfList set ifnet x).message = relayedMessage cnf x.message := hmessage
      rw [stream_forwardOn, hmessage']
      congr 1
      refine if_congr ?_ rfl rfl
      rw [Bool.and_eq_true]
      simp only [true_and]
      refine and_congr_right fun _ => ⟨takes_of_takes, fun hfits => (takes_iff hfits).2 fun hmod => ?_⟩
      -- nothing is pending
      have hzero : ifn.netbuf.pending = 0 := by
        have := ifn.netbuf.bounded
        omega
      omega

/-- Over a run no interface loses, doubles or reorders a message. -/
theorem stream_outputs {cnf : Cnf} {i : Nat} : ∀ (xs : List Arrival) {set : DuplicateSet} {ifnet : List OutInterface}
    {ifn : OutInterface}, ifn.netbuf.maxsize < 65536 → ifnet[i]? = some ifn →
    ∃ ifn', (outputs cnf ptfList set ifnet xs)[i]? = some ifn' ∧
      ifn'.stream = ifn.stream ++ copies cnf ptfList i ifn set ifnet xs
  | [], set, ifnet, ifn, _, hifn => ⟨ifn, hifn, by simp [copies]⟩
  | x :: xs, set, ifnet, ifn, hsmall, hifn => by
    obtain ⟨ifn₁, hifn₁, hmode, hmax, hstream⟩ := stream_receive x hsmall hifn
    obtain ⟨ifn', hifn', hrest⟩ := stream_outputs xs (hmax.symm ▸ hsmall) hifn₁
    refine ⟨ifn', hifn', ?_⟩
    rw [hrest, hstream, copies_congr hmode hmax, List.append_assoc]
    rfl

/-! ## Counting -/

/-- The interface with the number of copies in place of the bytes. -/
def OutInterface.counted (ifn : OutInterface) (copies : Nat) : Interface :=
  ⟨ifn.mode == .ether, ifn.netbuf.maxsize, ifn.netbuf.pending, copies⟩

theorem counted_push {copies : Nat} : Flood.netOutbufferPush (ifn.counted copies) msgsize =
    ((netOutbufferPush ifn m msgsize).1.counted
        (if ifn.netbuf.pending + msgsize ≤ ifn.netbuf.maxsize then copies + 1 else copies),
      (netOutbufferPush ifn m msgsize).2) := by
  by_cases hfits : ifn.netbuf.pending + msgsize ≤ ifn.netbuf.maxsize
  · unfold netOutbufferPush
    rw [if_pos hfits, dif_neg (Nat.not_lt.2 hfits)]
    exact if_neg (Nat.not_lt.2 hfits)
  · rw [if_neg hfits, netOutbufferPush_refused (Nat.lt_of_not_le hfits)]
    exact if_pos (Nat.lt_of_not_le hfits)

theorem counted_netOutput {copies : Nat} :
    Flood.netOutput (ifn.counted copies) = (netOutput ptfList ifn).counted copies := by
  have hmode : (netOutput ptfList ifn).mode = ifn.mode := mode_netOutput
  have hmax : (netOutput ptfList ifn).netbuf.maxsize = ifn.netbuf.maxsize := maxsize_netOutput ptfList
  have hpending : (netOutput ptfList ifn).netbuf.pending = 0 := pending_netOutput ptfList
  unfold Flood.netOutput OutInterface.counted
  rw [hmode, hmax, hpending]

/-- The loop over the interfaces puts out the copies that `Flood.forwardOn` counts. -/
theorem counted_forwardOn {copies : Nat} : Flood.forwardOn (ifn.counted copies) sameIf isTtl1 msgsize =
    (forwardOn ptfList m msgsize isTtl1 sameIf ifn).counted
      (if eligible isTtl1 sameIf ifn && takes msgsize ifn then 1 else 0) := by
  change Flood.forwardOn (ifn.counted 0) sameIf isTtl1 msgsize = _
  cases heligible : eligible isTtl1 sameIf ifn with
  | false =>
    rw [forwardOn_of_not_eligible heligible, Bool.false_and]
    unfold eligible at heligible
    rw [Bool.and_eq_false_iff, Bool.not_eq_false', Bool.not_eq_false'] at heligible
    unfold Flood.forwardOn
    by_cases hsame : (sameIf && ifn.mode == .ether) = true
    · exact if_pos hsame
    · exact (if_neg hsame).trans (if_pos (heligible.resolve_left hsame))
  | true =>
    unfold eligible at heligible
    rw [Bool.and_eq_true, Bool.not_eq_true', Bool.not_eq_true'] at heligible
    have hsame : ¬(sameIf && ifn.mode == .ether) = true := by rw [heligible.1]; decide
    have httl : ¬(isTtl1 && ifn.mode != .ether) = true := by rw [heligible.2]; decide
    unfold forwardOn Flood.forwardOn takes
    rw [if_neg hsame, if_neg httl, Bool.true_and]
    refine (if_neg hsame).trans ((if_neg httl).trans ?_)
    change (if netOutputPending ifn ≠ 0 then
      if (Flood.netOutbufferPush (ifn.counted 0) msgsize).2 ≠ msgsize then
        (Flood.netOutbufferPush (Flood.netOutput (Flood.netOutbufferPush (ifn.counted 0) msgsize).1) msgsize).1
      else (Flood.netOutbufferPush (ifn.counted 0) msgsize).1
    else (Flood.netOutbufferPush (ifn.counted 0) msgsize).1) = _
    rw [counted_push (m := m)]
    by_cases hpending : netOutputPending ifn = 0
    · rw [if_neg (not_not.2 hpending), if_neg (not_not.2 hpending), if_pos hpending]
      simp only [decide_eq_true_eq, Nat.zero_add]
    · rw [if_pos hpending, if_pos hpending, if_neg hpending]
      by_cases hfits : ifn.netbuf.pending + msgsize ≤ ifn.netbuf.maxsize
      · have hsize : (netOutbufferPush ifn m msgsize).2 = msgsize := (netOutbufferPush_taken hfits).1
        rw [if_neg (not_not.2 hsize), if_neg (not_not.2 hsize), if_pos hfits,
          if_pos (decide_eq_true (le_trans (Nat.le_add_left _ _) hfits))]
      · have hne : (0 : Nat) ≠ msgsize := by
          rintro rfl
          exact hfits ifn.netbuf.bounded
        have hsent : Flood.netOutput (ifn.counted 0) = (netOutput ptfList ifn).counted 0 := counted_netOutput
        rw [netOutbufferPush_refused (Nat.lt_of_not_le hfits), if_pos hne, if_pos hne, if_neg hfits, hsent,
          counted_push (m := m), pending_netOutput, maxsize_netOutput, Nat.zero_add]
        simp only [decide_eq_true_eq, Nat.zero_add]

/-- What the header of a message says. -/
def messageOf (cnf : Cnf) (m : Mem) : Message where
  originator := m.slice 4 cnf.ipsize
  number := m.u16 (6 + cnf.ipsize)
  ttl := m (4 + cnf.ipsize)
  hopcnt := m (5 + cnf.ipsize)
  msgsize := UInt16.ofNat (m.u16 2)

theorem u16_relayedMessage {off : Nat} (h : off + 1 < 4 + cnf.ipsize ∨ 5 + cnf.ipsize < off) :
    (relayedMessage cnf m).u16 off = m.u16 off := by
  have hkept := headerKept_relayedMessage cnf m
  unfold Mem.u16
  rw [hkept.rest off (by omega) (by omega), hkept.rest (off + 1) (by omega) (by omega)]

theorem messageOf_relayedMessage (cnf : Cnf) (m : Mem) :
    messageOf cnf (relayedMessage cnf m) = Flood.relayedMessage (messageOf cnf m) := by
  have horiginator : (relayedMessage cnf m).slice 4 cnf.ipsize = m.slice 4 cnf.ipsize :=
    Mem.slice_eq_iff.2 fun i hi => (headerKept_relayedMessage cnf m).rest _ (by omega) (by omega)
  have hsize : (relayedMessage cnf m).u16 2 = m.u16 2 := u16_relayedMessage (by omega)
  have hnumber : (relayedMessage cnf m).u16 (6 + cnf.ipsize) = m.u16 (6 + cnf.ipsize) := u16_relayedMessage (by omega)
  unfold messageOf Flood.relayedMessage
  rw [horiginator, hsize, hnumber]
  unfold relayedMessage
  by_cases hover : Output.isTtl1 cnf m = true
  · rw [if_pos hover]
    have hover' : Flood.isTtl1 (messageOf cnf m) = true := hover
    exact (if_pos hover').symm
  · have hover' : ¬Flood.isTtl1 (messageOf cnf m) = true := hover
    have hout : (m.write (5 + cnf.ipsize) [m (5 + cnf.ipsize) + 1]).write (4 + cnf.ipsize) [m (4 + cnf.ipsize) - 1]
        (5 + cnf.ipsize) = m (5 + cnf.ipsize) + 1 := by
      rw [Mem.write_apply_out (.inr (by rw [List.length_singleton]; omega)), Mem.write_one]
    rw [if_neg hover, Mem.write_one, hout]
    exact (if_neg hover').symm

theorem seqno_messageOf (cnf : Cnf) (m : Mem) :
    seqno (messageOf cnf m).number = UInt16.ofNat (m.u16 (6 + cnf.ipsize)) := by
  have hlt := m.u16_lt (6 + cnf.ipsize)
  unfold seqno messageOf
  congr 1
  dsimp only
  omega

/-- The node that counts copies does the same as the one that puts out bytes. -/
theorem olsrForwardMessage_refines (cnf : Cnf) (w : World) (set : DuplicateSet) (ifnet : List OutInterface) (m : Mem)
    (inIf : Nat) (fromAddr : IpAddr) {f : Forwarded}
    (hf : f = olsrForwardMessage cnf ptfList w set ifnet m inIf fromAddr)
    {r : Node × Option Message} (hr : r = Flood.olsrForwardMessage
      ⟨{ w with ifnet := ifnet.map fun ifn => ifn.counted 0 }, set⟩ (messageOf cnf m) inIf fromAddr) :
    r.1.duplicateSet = f.set ∧ r.2 = (if f.forwarded then some (messageOf cnf f.message) else none) ∧
      ∃ copies : Nat → Nat, r.1.world.ifnet = f.ifnet.mapIdx fun i ifn => ifn.counted (copies i) := by
  have hcount : ∀ l : List OutInterface, (l.map fun ifn => ifn.counted 0) = l.mapIdx fun _ ifn => ifn.counted 0 := by
    intro l
    refine List.ext_getElem? fun i => ?_
    rw [List.getElem?_map, List.getElem?_mapIdx]
  unfold olsrForwardMessage at hf
  unfold Flood.olsrForwardMessage at hr
  dsimp only at hf hr
  rw [seqno_messageOf] at hr
  have hforwards : forwardsFor { w with ifnet := ifnet.map fun ifn => ifn.counted 0 } fromAddr =
      forwardsFor w fromAddr := rfl
  rw [hforwards] at hr
  by_cases hfor : forwardsFor w fromAddr = true
  · rw [if_pos hfor] at hf hr
    obtain ⟨checked, hchecked⟩ : ∃ checked, checked = olsrMessageIsDuplicate w.nowTimes set (m.slice 4 cnf.ipsize)
      (UInt16.ofNat (m.u16 (6 + cnf.ipsize))) := ⟨_, rfl⟩
    have horiginator : (messageOf cnf m).originator = m.slice 4 cnf.ipsize := rfl
    rw [horiginator, ← hchecked] at hr
    rw [← hchecked] at hf
    obtain ⟨set', duplicate⟩ := checked
    dsimp only at hf hr
    cases duplicate with
    | true =>
      rw [if_pos rfl] at hf hr
      rw [hf, hr]
      exact ⟨rfl, rfl, fun _ => 0, hcount ifnet⟩
    | false =>
      rw [if_neg Bool.false_ne_true] at hf hr
      rw [hf, hr]
      refine ⟨rfl, by rw [messageOf_relayedMessage]; rfl, fun i => ((ifnet[i]?).map fun ifn =>
        if eligible (Output.isTtl1 cnf m) (i == inIf) ifn && takes (m.u16 2) ifn then 1 else 0).getD 0, ?_⟩
      have hsize : (messageOf cnf m).msgsize.toNat = m.u16 2 := by
        unfold messageOf
        rw [UInt16.toNat_ofNat']
        exact Nat.mod_eq_of_lt (m.u16_lt 2)
      have hrelayed : (relayedMessage cnf m).u16 2 = m.u16 2 := u16_relayedMessage (by omega)
      dsimp only
      rw [hsize, hrelayed]
      refine List.ext_getElem? fun i => ?_
      rw [List.getElem?_mapIdx, List.getElem?_map, List.getElem?_mapIdx, List.getElem?_mapIdx]
      cases hifn : ifnet[i]? with
      | none => rfl
      | some ifn => exact congrArg some counted_forwardOn
  · rw [if_neg hfor] at hf hr
    rw [hf, hr]
    exact ⟨rfl, rfl, fun _ => 0, hcount ifnet⟩

end Olsrd.Flood.Output
