/-
The sender of TC messages: `serialize_tc4` and `serialize_tc6` of `build_msg.c`, `serialize_lq_tc` of
`lq_packet.c`, and the output buffer of `net_olsr.c` they fill. Both cut a neighbour list into
fragments that fit the buffer. Sending a packet empties the buffer; the messages are kept in the
order in which they were put there. The static `msg_buffer` in which a message is built has no end here: only an
output buffer of more than its 1500 bytes lets a message get that long.
-/
import Olsrd.Topology.TcMessage

namespace Olsrd.Topology

open Bytes

/-! ## The output buffer -/

/-- `struct olsr_netbuf`, the message sequence number of the node, and the messages put so far. -/
structure Sender where
  pending : Nat
  maxsize : Nat
  messageSeqno : UInt16
  sent : List (List UInt8)

namespace Sender

def netOutbufferBytesLeft (st : Sender) : Int := st.maxsize - st.pending

/-- `net_outbuffer_push`: a message that does not fit is dropped. -/
def netOutbufferPush (st : Sender) (data : List UInt8) : Sender :=
  if st.pending + data.length > st.maxsize then st
  else { st with pending := st.pending + data.length, sent := st.sent ++ [data] }

def netOutput (st : Sender) : Sender := { st with pending := 0 }

end Sender

/-! ## Messages -/

/-- What the messages of one TC have in common. -/
structure TcHead where
  type : UInt8
  vtime : UInt8
  originator : IpAddr
  ttl : UInt8
  hops : UInt8
  ansn : UInt16

/-- `htons` of a 16-bit value -/
def u16Bytes (n : Nat) : List UInt8 := [UInt8.ofNat (n / 256), UInt8.ofNat n]

def tcBytes (hd : TcHead) (seqno : UInt16) (lowerBorder upperBorder : UInt8) (records : List UInt8) : List UInt8 :=
  [hd.type, hd.vtime] ++ u16Bytes (12 + hd.originator.length + records.length) ++ hd.originator ++
    [hd.ttl, hd.hops] ++ u16Bytes seqno.toNat ++ u16Bytes hd.ansn.toNat ++ [lowerBorder, upperBorder] ++ records

theorem length_tcBytes (hd : TcHead) (seqno : UInt16) (lower upper : UInt8) (records : List UInt8) :
    (tcBytes hd seqno lower upper records).length = 12 + hd.originator.length + records.length := by
  simp [tcBytes, u16Bytes]; omega

/-- Number the message, put it and go on to the next number. -/
def Sender.put (st : Sender) (hd : TcHead) (lower upper : UInt8) (records : List UInt8) : Sender :=
  { st with messageSeqno := st.messageSeqno + 1 }.netOutbufferPush (tcBytes hd st.messageSeqno lower upper records)

/-! ## Messages in memory -/

section

variable {msg : Mem}

/-- The memory from the start of the message on begins with `bs`. -/
def Holds (msg : Mem) (bs : List UInt8) : Prop := ∀ i (h : i < bs.length), msg i = bs[i]

theorem Holds.slice (pre x post : List UInt8) (h : Holds msg (pre ++ (x ++ post))) :
    msg.slice pre.length x.length = x := by
  refine List.ext_getElem (by simp) fun i h1 h2 => ?_
  have hi : pre.length + i < (pre ++ (x ++ post)).length := by simp at h1 ⊢; omega
  simp only [Mem.slice, List.getElem_map, List.getElem_range]
  rw [h _ hi, List.getElem_append_right (by omega)]
  simp only [Nat.add_sub_cancel_left]
  rw [List.getElem_append_left h2]

theorem Holds.byte (pre : List UInt8) (b : UInt8) (post : List UInt8) (h : Holds msg (pre ++ (b :: post))) :
    msg pre.length = b := by
  have hs := h.slice pre [b] post
  simpa [Mem.slice] using hs

theorem Holds.u16 (pre : List UInt8) {n : Nat} (post : List UInt8) (hn : n < 65536)
    (h : Holds msg (pre ++ (u16Bytes n ++ post))) : msg.u16 pre.length = n := by
  have hs := h.slice
  simp only [u16Bytes, List.length_cons, List.length_nil, Mem.slice, List.range_succ, List.range_zero,
    List.nil_append, List.map_cons, List.map_nil, List.cons_append, List.cons.injEq, and_true, Nat.add_zero] at hs
  unfold Mem.u16
  rw [hs.1, hs.2]
  simp only [UInt8.toNat_ofNat']
  omega

end

/-- The memory of a received message. -/
def memOf (bytes : List UInt8) : Mem := fun i => bytes.getD i 0

theorem holds_memOf (bytes : List UInt8) : Holds (memOf bytes) bytes := fun i hi => by simp [memOf, hi]

theorem forall₂_holds_memOf (msgs : List (List UInt8)) : List.Forall₂ Holds (msgs.map memOf) msgs :=
  List.forall₂_map_left_iff.2 (List.forall₂_same.2 fun msg _ => holds_memOf msg)

/-! ## `serialize_tc4`, `serialize_tc6` -/

/-- The state of the loop over the neighbours: `buff` is the message behind its header. -/
structure TcBuild where
  st : Sender
  remainsize : Nat
  buff : List UInt8
  found : Bool
  partialSent : Bool

/-- The size of the message so far. -/
def TcBuild.currSize (cnf : Cnf) (w : TcBuild) : Nat := 12 + cnf.ipsize + w.buff.length

/-- `uint16_t remainsize = net_outbuffer_bytes_left(ifp)` -/
def remainsize16 (st : Sender) : Nat := (st.netOutbufferBytesLeft % 65536).toNat

/-- Send what the buffer holds; a TC message is only added if it contains data. -/
def TcBuild.flush (cnf : Cnf) (hd : TcHead) (w : TcBuild) : TcBuild :=
  let w := if w.currSize cnf > 12 + cnf.ipsize
    then { w with st := w.st.put hd 0 0 w.buff, buff := [], found := false, partialSent := true } else w
  { w with st := w.st.netOutput, remainsize := remainsize16 w.st.netOutput }

/-- Add one neighbour. -/
def TcBuild.add (w : TcBuild) (address : IpAddr) : TcBuild := { w with found := true, buff := w.buff ++ address }

/-- One round of the loop. There is no result when `check_buffspace` ends the program. -/
def serializeTcStep (cnf : Cnf) (hd : TcHead) (w : TcBuild) (address : IpAddr) : Option TcBuild :=
  if w.currSize cnf + cnf.ipsize > w.remainsize then
    if (w.flush cnf hd).currSize cnf + cnf.ipsize > (w.flush cnf hd).remainsize then none
    else some ((w.flush cnf hd).add address)
  else some (w.add address)

def serializeTcLoop (cnf : Cnf) (hd : TcHead) (timedOut : Bool) : TcBuild → List IpAddr → Option Sender
  | w, [] =>
    if w.found then some (w.st.put hd 0 0 w.buff)
    else if !w.partialSent && !timedOut then some (w.st.put hd 0 0 w.buff)
    else some w.st
  | w, address :: rest => do
    let w ← serializeTcStep cnf hd w address
    serializeTcLoop cnf hd timedOut w rest

/-- `serialize_tc4` and `serialize_tc6`; `timedOut` is `TIMED_OUT(send_empty_tc)`. -/
def serializeTc (cnf : Cnf) (hd : TcHead) (timedOut : Bool) (st : Sender) (addresses : List IpAddr) :
    Option Sender :=
  let st := if 12 + cnf.ipsize > remainsize16 st then st.netOutput else st
  if 12 + cnf.ipsize > remainsize16 st then none
  else serializeTcLoop cnf hd timedOut ⟨st, remainsize16 st, [], false, false⟩ addresses

/-! ## `serialize_lq_tc` -/

/-- The first byte in which two addresses differ. -/
def firstDifference (cnf : Cnf) (lower higher : IpAddr) : Option Nat :=
  (List.range cnf.ipsize).find? fun part => lower.getD part 0 != higher.getD part 0

/-- The first bit from which on two bytes are equal; the mask is shifted out after seven bits. -/
def firstBitpos (lower higher : UInt8) : Nat :=
  ((List.range 8).find? fun bitpos =>
    lower &&& (0xfe <<< UInt8.ofNat bitpos) == higher &&& (0xfe <<< UInt8.ofNat bitpos)).getD 8

def calculateBorderFlag (cnf : Cnf) (lower higher : IpAddr) : UInt8 :=
  match firstDifference cnf lower higher with
  | none => 0
  | some part =>
    UInt8.ofNat (firstBitpos (lower.getD part 0) (higher.getD part 0) + 8 * (cnf.ipsize - part - 1)) + 1

/-- `struct tc_mpr_addr`: an address and its link quality as the plugin serializes it. -/
abbrev TcMprAddr := IpAddr × List UInt8

/-- The state of the loop over the neighbours: `buff` is the message behind its header. -/
structure LqTcBuild where
  st : Sender
  rem : Int
  buff : List UInt8
  lastIp : Option IpAddr
  leftBorderFlag : UInt8

/-- `net_outbuffer_bytes_left(outif) - off` -/
def lqTcRem (cnf : Cnf) (st : Sender) : Int := st.netOutbufferBytesLeft - (12 + cnf.ipsize : Nat)

/-- One neighbour. There is no result when the first neighbour does not fit and `last_ip` is still null. -/
def serializeLqTcStep (cnf : Cnf) (hd : TcHead) (w : LqTcBuild) (neigh : TcMprAddr) : Option LqTcBuild :=
  if ((w.buff.length + cnf.ipsize + 4 : Nat) : Int) > w.rem then do
    let lastIp ← w.lastIp
    let upperBorder := calculateBorderFlag cnf lastIp neigh.1
    let st := (w.st.put hd w.leftBorderFlag upperBorder w.buff).netOutput
    some ⟨st, lqTcRem cnf st, neigh.1 ++ neigh.2, some neigh.1, upperBorder⟩
  else some { w with buff := w.buff ++ (neigh.1 ++ neigh.2), lastIp := some neigh.1 }

def serializeLqTcLoop (cnf : Cnf) (hd : TcHead) : LqTcBuild → List TcMprAddr → Option Sender
  | w, [] => some (w.st.put hd w.leftBorderFlag 0xff w.buff)
  | w, neigh :: rest => do
    let w ← serializeLqTcStep cnf hd w neigh
    serializeLqTcLoop cnf hd w rest

def serializeLqTc (cnf : Cnf) (hd : TcHead) (st : Sender) (neighbors : List TcMprAddr) : Option Sender :=
  -- flush the buffer if that lets the whole list into one message
  let expectedSize : Nat := if 0 < st.pending then neighbors.length * (cnf.ipsize + 4) else 0
  let st := if lqTcRem cnf st < expectedSize then st.netOutput else st
  serializeLqTcLoop cnf hd ⟨st, lqTcRem cnf st, [], none, 0xff⟩ neighbors

/-! ## Fragments -/

/-- A message of a fragmented TC: its border flags and its part of the neighbour list. -/
structure TcFragment where
  lower : UInt8
  upper : UInt8
  neighbors : List TcMprAddr

def records (neighbors : List TcMprAddr) : List UInt8 := neighbors.flatMap fun n => n.1 ++ n.2

theorem records_append (L L' : List TcMprAddr) : records (L ++ L') = records L ++ records L' := List.flatMap_append

theorem records_cons (n : TcMprAddr) (L : List TcMprAddr) : records (n :: L) = n.1 ++ n.2 ++ records L :=
  List.flatMap_cons

def sentBytes (hd : TcHead) : UInt16 → List TcFragment → List (List UInt8)
  | _, [] => []
  | seqno, f :: fs => tcBytes hd seqno f.lower f.upper (records f.neighbors) :: sentBytes hd (seqno + 1) fs

def firstAddr (L : List TcMprAddr) : IpAddr := (L.head?.map Prod.fst).getD []
def lastAddr (L : List TcMprAddr) : IpAddr := (L.getLast?.map Prod.fst).getD []

/-- The fragments of `serialize_lq_tc`: the upper border of one is the lower border of the next. -/
def lqTcFragments (cnf : Cnf) : UInt8 → List (List TcMprAddr) → List TcFragment
  | _, [] => []
  | left, [L] => [⟨left, 0xff, L⟩]
  | left, L :: L' :: rest =>
    let border := calculateBorderFlag cnf (lastAddr L) (firstAddr L')
    ⟨left, border, L⟩ :: lqTcFragments cnf border (L' :: rest)

/-- The addresses and link qualities have the sizes of the message format. -/
def WellSized (cnf : Cnf) (lqSize : Nat) (L : List TcMprAddr) : Prop :=
  ∀ n ∈ L, n.1.length = cnf.ipsize ∧ n.2.length = lqSize

theorem length_records {cnf : Cnf} {lqSize : Nat} {L : List TcMprAddr} (h : WellSized cnf lqSize L) :
    (records L).length = L.length * (cnf.ipsize + lqSize) := by
  induction L with
  | nil => simp [records]
  | cons n L ih =>
    obtain ⟨h1, h2⟩ := h n (List.mem_cons_self ..)
    rw [records_cons, List.length_append, List.length_append, h1, h2, ih fun x hx => h x (List.mem_cons_of_mem _ hx),
      List.length_cons, Nat.succ_mul]
    omega

theorem Sender.put_of_fits {st : Sender} {hd : TcHead} (lower upper : UInt8) {bs : List UInt8}
    (h : st.pending + (12 + hd.originator.length + bs.length) ≤ st.maxsize) :
    st.put hd lower upper bs = ⟨st.pending + (12 + hd.originator.length + bs.length), st.maxsize,
      st.messageSeqno + 1, st.sent ++ [tcBytes hd st.messageSeqno lower upper bs]⟩ := by
  unfold Sender.put Sender.netOutbufferPush
  rw [length_tcBytes, if_neg (by simpa using h)]

/-- What a serializer has sent: fragments of the list in its order, each with room in the buffer. -/
structure Fragmented (cnf : Cnf) (ns : List TcMprAddr) (maxsize : Nat) (frags : List (List TcMprAddr)) : Prop where
  flatten : frags.flatten = ns
  nonempty : ns ≠ [] → ∀ L ∈ frags, L ≠ []
  fits : ∀ L ∈ frags, 12 + cnf.ipsize + (records L).length ≤ maxsize

variable {cnf : Cnf} {hd : TcHead}

/-- The loop of `serialize_lq_tc` with `cur` in the buffer. -/
structure LqTcBuild.Inv (cnf : Cnf) (w : LqTcBuild) (cur : List TcMprAddr) : Prop where
  buff : w.buff = records cur
  lastIp : w.lastIp = cur.getLast?.map Prod.fst
  rem : w.rem = w.st.maxsize - w.st.pending - (12 + cnf.ipsize : Nat)
  room : (w.buff.length : Int) ≤ w.rem

theorem serializeLqTcLoop_spec (horig : hd.originator.length = cnf.ipsize) :
    ∀ (ns : List TcMprAddr) (w : LqTcBuild) (cur : List TcMprAddr) (st' : Sender), w.Inv cnf cur →
      WellSized cnf 4 (cur ++ ns) → serializeLqTcLoop cnf hd w ns = some st' →
      ∃ L rest, L ++ rest.flatten = ns ∧ (cur ++ L = [] → ns = []) ∧ (∀ M ∈ rest, M ≠ []) ∧
        (∀ M ∈ (cur ++ L) :: rest, 12 + cnf.ipsize + (records M).length ≤ w.st.maxsize) ∧
        st'.sent = w.st.sent ++ sentBytes hd w.st.messageSeqno
          (lqTcFragments cnf w.leftBorderFlag ((cur ++ L) :: rest))
  | [], w, cur, st', hinv, _, h => by
    have hroom := hinv.room
    rw [hinv.rem] at hroom
    obtain rfl := Option.some.inj h
    refine ⟨[], [], rfl, fun _ => rfl, by simp, ?_, ?_⟩
    · simp only [List.append_nil, List.mem_singleton, forall_eq, ← hinv.buff]
      omega
    · rw [Sender.put_of_fits _ _ (by omega), List.append_nil]
      simp [lqTcFragments, sentBytes, hinv.buff]
  | n :: ns, w, cur, st', hinv, hsized, h => by
    have hroom := hinv.room
    rw [hinv.rem] at hroom
    have hn := hsized n (by simp)
    obtain ⟨w', hw', h⟩ := Option.bind_eq_some_iff.1 h
    unfold serializeLqTcStep at hw'
    split at hw'
    · -- the buffer is full: send it
      obtain ⟨last, hlast, hw'⟩ := Option.bind_eq_some_iff.1 hw'
      rw [hinv.lastIp] at hlast
      have hcur : cur ≠ [] := by rintro rfl; cases hlast
      have hsizedCur : WellSized cnf 4 cur := fun x hx => hsized x (by simp [hx])
      have hlen := length_records hsizedCur
      have hpos : 1 ≤ cur.length := List.length_pos_iff.2 hcur
      have hmul : cnf.ipsize + 4 ≤ cur.length * (cnf.ipsize + 4) := Nat.le_mul_of_pos_left _ hpos
      rw [hinv.buff] at hroom
      have hfull : w.st.pending + (12 + hd.originator.length + w.buff.length) ≤ w.st.maxsize := by
        rw [hinv.buff]; omega
      have hput := Sender.put_of_fits w.leftBorderFlag (calculateBorderFlag cnf last n.1) hfull
      obtain rfl := Option.some.inj hw'
      rw [hput] at h
      obtain ⟨L, rest, hns, -, hrest, hfits, hsent⟩ := serializeLqTcLoop_spec horig ns _ [n] st'
        ⟨by simp [records], rfl, by simp [lqTcRem, Sender.netOutbufferBytesLeft, Sender.netOutput], by
          simp [lqTcRem, Sender.netOutbufferBytesLeft, Sender.netOutput, hn.1, hn.2]; omega⟩
        (fun x hx => hsized x (by simp at hx ⊢; tauto)) h
      refine ⟨[], (n :: L) :: rest, by simp [hns], fun hnil => absurd (by simpa using hnil) hcur, ?_, ?_, ?_⟩
      · simpa using hrest
      · simp only [List.append_nil, List.mem_cons, forall_eq_or_imp]
        refine ⟨by omega, ?_⟩
        simpa [Sender.netOutput] using hfits
      · have hlastAddr : lastAddr cur = last := by simp [lastAddr, hlast]
        simp only [List.append_nil, lqTcFragments, hlastAddr, sentBytes]
        have hfirst : firstAddr (n :: L) = n.1 := rfl
        rw [hsent, hfirst, hinv.buff]
        simp [Sender.netOutput]
    · rename_i hfit
      obtain rfl := Option.some.inj hw'
      have hinv' : LqTcBuild.Inv cnf { w with buff := w.buff ++ (n.1 ++ n.2), lastIp := some n.1 } (cur ++ [n]) :=
        ⟨by simp [records, hinv.buff], by simp, hinv.rem, by simp [hn.1, hn.2]; omega⟩
      obtain ⟨L, rest, hns, hnil, hrest, hfits, hsent⟩ := serializeLqTcLoop_spec horig ns _ (cur ++ [n]) st' hinv'
        (fun x hx => hsized x (by simp at hx ⊢; tauto)) h
      rw [List.append_assoc] at hfits hsent
      exact ⟨n :: L, rest, by simp [hns], by simp, hrest, hfits, hsent⟩

/-- `serialize_lq_tc` sends the list in fragments with the border flags between them. -/
theorem serializeLqTc_spec (horig : hd.originator.length = cnf.ipsize) {st st' : Sender} {ns : List TcMprAddr}
    (hroom : 12 + cnf.ipsize ≤ st.maxsize) (hsized : WellSized cnf 4 ns) (h : serializeLqTc cnf hd st ns = some st') :
    ∃ frags, Fragmented cnf ns st.maxsize frags ∧ (ns = [] → frags = [[]]) ∧
      st'.sent = st.sent ++ sentBytes hd st.messageSeqno (lqTcFragments cnf 0xff frags) := by
  unfold serializeLqTc at h
  generalize hexp : (if 0 < st.pending then ns.length * (cnf.ipsize + 4) else 0) = expected at h
  -- the buffer has room for a message without neighbours
  obtain ⟨st₁, hst₁, hmax, hseq, hsent₁, hrem⟩ : ∃ st₁ : Sender,
      (if lqTcRem cnf st < expected then st.netOutput else st) = st₁ ∧ st₁.maxsize = st.maxsize ∧
      st₁.messageSeqno = st.messageSeqno ∧ st₁.sent = st.sent ∧ 0 ≤ lqTcRem cnf st₁ := by
    by_cases hlt : lqTcRem cnf st < expected
    · refine ⟨st.netOutput, if_pos hlt, rfl, rfl, rfl, ?_⟩
      simp only [lqTcRem, Sender.netOutbufferBytesLeft, Sender.netOutput]; omega
    · exact ⟨st, if_neg hlt, rfl, rfl, rfl, by omega⟩
  simp only [hst₁] at h
  have hinv : LqTcBuild.Inv cnf ⟨st₁, lqTcRem cnf st₁, [], none, 0xff⟩ [] :=
    ⟨rfl, rfl, rfl, by simpa using hrem⟩
  obtain ⟨L, rest, hns, hnil, hrest, hfits, hsent⟩ := serializeLqTcLoop_spec horig ns _ [] st' hinv hsized h
  refine ⟨L :: rest, ⟨by simpa using hns, fun hne => ?_, by simpa [hmax] using hfits⟩, fun hnil => ?_, ?_⟩
  · simp only [List.mem_cons, forall_eq_or_imp]
    exact ⟨fun hL => hne (hnil hL), hrest⟩
  · rw [hnil, List.append_eq_nil_iff, List.flatten_eq_nil_iff] at hns
    rw [hns.1, List.eq_nil_iff_forall_not_mem.2 fun M hM => hrest M hM (hns.2 M hM)]
  · simpa [hsent₁, hseq] using hsent

/-- An advertised address without link quality. -/
def plainAddr (a : IpAddr) : TcMprAddr := (a, [])

/-- The fragments of `serialize_tc4` and `serialize_tc6`. -/
def plainFragments (frags : List (List TcMprAddr)) : List TcFragment := frags.map fun L => ⟨0, 0, L⟩

theorem remainsize16_eq {st : Sender} (hle : st.pending ≤ st.maxsize) (hmax : st.maxsize < 65536) :
    remainsize16 st = st.maxsize - st.pending := by
  unfold remainsize16 Sender.netOutbufferBytesLeft; omega

theorem remainsize16_netOutput {st : Sender} (hmax : st.maxsize < 65536) :
    remainsize16 st.netOutput = st.maxsize := by
  rw [remainsize16_eq (Nat.zero_le _) (by exact hmax)]; rfl

/-- The loop of `serialize_tc4` and `serialize_tc6` with `cur` in the buffer. -/
structure TcBuild.Inv (cnf : Cnf) (w : TcBuild) (cur : List IpAddr) : Prop where
  buff : w.buff = records (cur.map plainAddr)
  found : w.found = !cur.isEmpty
  pending : w.st.pending ≤ w.st.maxsize
  remainsize : w.remainsize = w.st.maxsize - w.st.pending
  room : w.currSize cnf ≤ w.remainsize

theorem wellSized_plain {l : List IpAddr} (h : ∀ a ∈ l, a.length = cnf.ipsize) : WellSized cnf 0 (l.map plainAddr) := by
  intro n hn
  obtain ⟨a, ha, rfl⟩ := List.mem_map.1 hn
  exact ⟨h a ha, rfl⟩

theorem TcBuild.Inv.add {w : TcBuild} {cur : List IpAddr} {a : IpAddr} (hinv : w.Inv cnf cur)
    (hfit : ¬ w.currSize cnf + cnf.ipsize > w.remainsize) (ha : a.length = cnf.ipsize) :
    (w.add a).Inv cnf (cur ++ [a]) := by
  refine ⟨?_, by cases cur <;> rfl, hinv.pending, hinv.remainsize, ?_⟩
  · rw [List.map_append, records_append, ← hinv.buff]; simp [records, plainAddr, TcBuild.add]
  · simp only [TcBuild.currSize, TcBuild.add, List.length_append, ha] at hfit ⊢
    omega

/-- With nothing in the message the buffer is only emptied of other messages. -/
theorem TcBuild.Inv.flush_nil {w : TcBuild} (hd : TcHead) (hmax : w.st.maxsize < 65536) (hinv : w.Inv cnf []) :
    w.flush cnf hd = { w with st := w.st.netOutput, remainsize := w.st.maxsize } ∧ (w.flush cnf hd).Inv cnf [] := by
  have hroom := hinv.room
  have hb : w.buff = [] := by simpa [records] using hinv.buff
  have hflush : w.flush cnf hd = { w with st := w.st.netOutput, remainsize := w.st.maxsize } := by
    unfold TcBuild.flush
    rw [if_neg (by simp [TcBuild.currSize, hb])]
    dsimp only
    rw [remainsize16_netOutput hmax]
  rw [hflush]
  refine ⟨rfl, hinv.buff, hinv.found, Nat.zero_le _, rfl, ?_⟩
  rw [hinv.remainsize] at hroom
  simp only [TcBuild.currSize] at hroom ⊢
  omega

theorem TcBuild.Inv.flush_cons {w : TcBuild} {cur : List IpAddr} (horig : hd.originator.length = cnf.ipsize)
    (hmax : w.st.maxsize < 65536) (hinv : w.Inv cnf cur) (hcur : ∀ b ∈ cur, b.length = cnf.ipsize) (hne : cur ≠ []) :
    (w.flush cnf hd).Inv cnf [] ∧ (w.flush cnf hd).st.maxsize = w.st.maxsize ∧
      (w.flush cnf hd).st.messageSeqno = w.st.messageSeqno + 1 ∧
      (w.flush cnf hd).st.sent = w.st.sent ++ [tcBytes hd w.st.messageSeqno 0 0 (records (cur.map plainAddr))] := by
  have hroom := hinv.room
  have hpend := hinv.pending
  rw [hinv.remainsize] at hroom
  have hlen := length_records (wellSized_plain hcur)
  rw [← hinv.buff, List.length_map] at hlen
  have hpos : 0 < w.buff.length := by
    rw [hlen]; exact Nat.mul_pos (List.length_pos_iff.2 hne) (by have := cnf.ipsize_pos; omega)
  unfold TcBuild.currSize at hroom
  have hfull : w.st.pending + (12 + hd.originator.length + w.buff.length) ≤ w.st.maxsize := by omega
  have hput := Sender.put_of_fits 0 0 hfull
  have hdata : w.currSize cnf > 12 + cnf.ipsize := by unfold TcBuild.currSize; omega
  unfold TcBuild.flush
  rw [if_pos hdata, hput]
  dsimp only
  rw [remainsize16_netOutput (by exact hmax)]
  refine ⟨⟨by simp [records], rfl, Nat.zero_le _, rfl, ?_⟩, rfl, rfl, ?_⟩
  · show 12 + cnf.ipsize + 0 ≤ w.st.maxsize
    omega
  · rw [← hinv.buff]; rfl

/-- One neighbour goes into the buffer, or into the next one after the buffer is sent. -/
theorem serializeTcStep_spec (horig : hd.originator.length = cnf.ipsize) {w w' : TcBuild} {cur : List IpAddr}
    {a : IpAddr} (hmax : w.st.maxsize < 65536) (hinv : w.Inv cnf cur) (hcur : ∀ b ∈ cur, b.length = cnf.ipsize)
    (ha : a.length = cnf.ipsize) (h : serializeTcStep cnf hd w a = some w') :
    w'.st.maxsize = w.st.maxsize ∧
    ((w'.Inv cnf (cur ++ [a]) ∧ w'.st.sent = w.st.sent ∧ w'.st.messageSeqno = w.st.messageSeqno) ∨
      (cur ≠ [] ∧ w'.Inv cnf [a] ∧ w'.st.messageSeqno = w.st.messageSeqno + 1 ∧
        w'.st.sent = w.st.sent ++ [tcBytes hd w.st.messageSeqno 0 0 (records (cur.map plainAddr))])) := by
  unfold serializeTcStep at h
  by_cases hfit : w.currSize cnf + cnf.ipsize > w.remainsize
  · rw [if_pos hfit] at h
    split at h
    · cases h
    rename_i hfit'
    obtain rfl := Option.some.inj h
    by_cases hne : cur = []
    · subst hne
      obtain ⟨hflush, hinv'⟩ := hinv.flush_nil hd hmax
      have hadd := hinv'.add hfit' ha
      rw [hflush] at hadd ⊢
      exact ⟨rfl, .inl ⟨hadd, rfl, rfl⟩⟩
    · obtain ⟨hinv', hmax', hseq, hsent⟩ := hinv.flush_cons horig hmax hcur hne
      exact ⟨hmax', .inr ⟨hne, hinv'.add hfit' ha, hseq, hsent⟩⟩
  · rw [if_neg hfit] at h
    obtain rfl := Option.some.inj h
    exact ⟨rfl, .inl ⟨hinv.add hfit ha, rfl, rfl⟩⟩

theorem serializeTcLoop_spec (horig : hd.originator.length = cnf.ipsize) (timedOut : Bool) :
    ∀ (ns : List IpAddr) (w : TcBuild) (cur : List IpAddr) (st' : Sender), w.st.maxsize < 65536 → w.Inv cnf cur →
      (∀ a ∈ cur ++ ns, a.length = cnf.ipsize) → cur ++ ns ≠ [] → serializeTcLoop cnf hd timedOut w ns = some st' →
      ∃ L rest, L ++ rest.flatten = ns ∧ cur ++ L ≠ [] ∧ (∀ M ∈ rest, M ≠ []) ∧
        (∀ M ∈ (cur ++ L) :: rest, 12 + cnf.ipsize + (records (M.map plainAddr)).length ≤ w.st.maxsize) ∧
        st'.sent = w.st.sent ++ sentBytes hd w.st.messageSeqno
          (plainFragments (((cur ++ L) :: rest).map (List.map plainAddr)))
  | [], w, cur, st', _, hinv, _, hne, h => by
    have hroom := hinv.room
    have hpend := hinv.pending
    rw [hinv.remainsize] at hroom
    unfold TcBuild.currSize at hroom
    rw [List.append_nil] at hne
    have hfound : w.found = true := by rw [hinv.found]; cases cur with | nil => exact absurd rfl hne | cons => rfl
    rw [serializeTcLoop, if_pos hfound] at h
    obtain rfl := Option.some.inj h
    refine ⟨[], [], rfl, by simpa using hne, by simp, ?_, ?_⟩
    · simp only [List.append_nil, List.mem_singleton, forall_eq, ← hinv.buff]
      omega
    · rw [Sender.put_of_fits 0 0 (by omega), List.append_nil]
      simp [plainFragments, sentBytes, hinv.buff]
  | a :: ns, w, cur, st', hmax, hinv, hsized, _, h => by
    obtain ⟨w', hw', h⟩ := Option.bind_eq_some_iff.1 h
    obtain ⟨hmax', hstep⟩ := serializeTcStep_spec horig hmax hinv (fun b hb => hsized b (by simp [hb]))
      (hsized a (by simp)) hw'
    rw [← hmax'] at hmax
    rcases hstep with ⟨hinv', hsent', hseq'⟩ | ⟨hcur, hinv', hseq', hsent'⟩
    · obtain ⟨L, rest, hns, hne, hrest, hfits, hsent⟩ := serializeTcLoop_spec horig timedOut ns w' (cur ++ [a]) st' hmax
        hinv' (by simpa using hsized) (by simp) h
      rw [List.append_assoc] at hfits hsent hne
      rw [hsent', hseq'] at hsent
      rw [hmax'] at hfits
      exact ⟨a :: L, rest, by simp [hns], hne, hrest, hfits, hsent⟩
    · obtain ⟨L, rest, hns, hne, hrest, hfits, hsent⟩ := serializeTcLoop_spec horig timedOut ns w' [a] st' hmax hinv'
        (fun x hx => hsized x (by simp at hx ⊢; tauto)) (by simp) h
      have hroom := hinv.room
      unfold TcBuild.currSize at hroom
      rw [hinv.remainsize, hinv.buff] at hroom
      refine ⟨[], (a :: L) :: rest, by simp [hns], by simpa using hcur, by simpa using hrest, ?_, ?_⟩
      · simp only [List.append_nil, List.mem_cons, forall_eq_or_imp]
        refine ⟨by omega, ?_⟩
        rw [hmax'] at hfits
        simpa using hfits
      · rw [hsent, hsent', hseq']
        simp [plainFragments, sentBytes]

/-- `serialize_tc4` and `serialize_tc6` send the list in fragments; an empty list may go out as an empty
message. -/
theorem serializeTc_spec (horig : hd.originator.length = cnf.ipsize) (timedOut : Bool) {st st' : Sender}
    {addresses : List IpAddr} (hpend : st.pending ≤ st.maxsize) (hmax : st.maxsize < 65536)
    (hsized : ∀ a ∈ addresses, a.length = cnf.ipsize) (h : serializeTc cnf hd timedOut st addresses = some st') :
    ∃ frags, Fragmented cnf (addresses.map plainAddr) st.maxsize frags ∧
      st'.sent = st.sent ++ sentBytes hd st.messageSeqno (plainFragments frags) := by
  unfold serializeTc at h
  obtain ⟨st₁, hst₁, hpend₁, hmax₁, hseq, hsent₁⟩ : ∃ st₁ : Sender,
      (if 12 + cnf.ipsize > remainsize16 st then st.netOutput else st) = st₁ ∧ st₁.pending ≤ st₁.maxsize ∧
      st₁.maxsize = st.maxsize ∧ st₁.messageSeqno = st.messageSeqno ∧ st₁.sent = st.sent := by
    by_cases hlt : 12 + cnf.ipsize > remainsize16 st
    · exact ⟨st.netOutput, if_pos hlt, Nat.zero_le _, rfl, rfl, rfl⟩
    · exact ⟨st, if_neg hlt, hpend, rfl, rfl, rfl⟩
  simp only [hst₁] at h
  split at h
  · cases h
  rename_i hroom
  rw [← hmax₁] at hmax
  have hrem := remainsize16_eq hpend₁ hmax
  have hinv : TcBuild.Inv cnf ⟨st₁, remainsize16 st₁, [], false, false⟩ [] := by
    refine ⟨rfl, rfl, hpend₁, hrem, ?_⟩
    simp only [TcBuild.currSize, List.length_nil]; omega
  by_cases hne : addresses = []
  · subst hne
    unfold serializeTcLoop at h
    have hfull : st₁.pending + (12 + hd.originator.length + ([] : List UInt8).length) ≤ st₁.maxsize := by
      rw [List.length_nil]; omega
    cases timedOut with
    | false =>
      obtain rfl := Option.some.inj h
      refine ⟨[[]], ⟨rfl, fun hne => absurd rfl hne, ?_⟩, ?_⟩
      · simp only [List.mem_singleton, forall_eq, records, List.flatMap_nil, List.length_nil]; omega
      · rw [Sender.put_of_fits 0 0 hfull, hsent₁, hseq]; rfl
    | true =>
      obtain rfl := Option.some.inj h
      exact ⟨[], ⟨rfl, fun hne => absurd rfl hne, by simp⟩, by simp [hsent₁, plainFragments, sentBytes]⟩
  · obtain ⟨L, rest, hns, hL, hrest, hfits, hsent⟩ := serializeTcLoop_spec horig timedOut addresses _ [] st' hmax hinv
      (by simpa using hsized) (by simpa using hne) h
    refine ⟨(L :: rest).map (List.map plainAddr), ⟨?_, fun _ => ?_, ?_⟩, ?_⟩
    · rw [← List.map_flatten, ← hns]; rfl
    · simpa using ⟨hL, hrest⟩
    · simpa [hmax₁] using hfits
    · simpa [hsent₁, hseq] using hsent

/-- The type of the TC messages of a node. -/
def TcHead.typed (hd : TcHead) (cnf : Cnf) : TcHead :=
  { hd with type := if cnf.lqLevel = 0 then UInt8.ofNat tcMessage else UInt8.ofNat lqTcMessage }

/-- A TC of a node: plain messages without link qualities, LQ_TC messages with them. -/
def sendTc (cnf : Cnf) (hd : TcHead) (timedOut : Bool) (st : Sender) (ns : List TcMprAddr) : Option Sender :=
  if cnf.lqLevel = 0 then serializeTc cnf (hd.typed cnf) timedOut st (ns.map Prod.fst)
  else serializeLqTc cnf (hd.typed cnf) st ns

theorem neighbors_lqTcFragments (cnf : Cnf) (left : UInt8) (frags : List (List TcMprAddr)) :
    (lqTcFragments cnf left frags).map TcFragment.neighbors = frags := by
  fun_induction lqTcFragments cnf left frags with
  | case1 => rfl
  | case2 => rfl
  | case3 left L L' rest border ih => rw [List.map_cons, ih]

/-- What a node has sent, in fragments of the wire form of the list. -/
structure SentAs (cnf : Cnf) (ns : List TcMprAddr) (maxsize : Nat) (fs : List TcFragment) : Prop where
  addresses : (fs.flatMap TcFragment.neighbors).map Prod.fst = ns.map Prod.fst
  fits : ∀ f ∈ fs, 12 + cnf.ipsize + (records f.neighbors).length ≤ maxsize
  plain : cnf.lqLevel = 0 → (∀ f ∈ fs, f.lower = 0 ∧ f.upper = 0) ∧
    WellSized cnf 0 (fs.flatMap TcFragment.neighbors)
  withLq : 0 < cnf.lqLevel → fs.flatMap TcFragment.neighbors = ns ∧
    ((ns ≠ [] ∧ ∀ f ∈ fs, f.neighbors ≠ []) ∨ fs = [⟨0xff, 0xff, []⟩])

theorem sendTc_spec (horig : hd.originator.length = cnf.ipsize) {timedOut : Bool} {st st' : Sender}
    {ns : List TcMprAddr} (hpend : st.pending ≤ st.maxsize) (hroom : 12 + cnf.ipsize ≤ st.maxsize)
    (hmax : st.maxsize < 65536) (hsized : WellSized cnf 4 ns) (h : sendTc cnf hd timedOut st ns = some st') :
    ∃ fs, SentAs cnf ns st.maxsize fs ∧ st'.sent = st.sent ++ sentBytes (hd.typed cnf) st.messageSeqno fs := by
  unfold sendTc at h
  have horig' : (hd.typed cnf).originator.length = cnf.ipsize := horig
  by_cases hlq : cnf.lqLevel = 0
  · rw [if_pos hlq] at h
    obtain ⟨frags, hfr, hsent⟩ := serializeTc_spec horig' timedOut hpend hmax
      (fun a ha => by obtain ⟨n, hn, rfl⟩ := List.mem_map.1 ha; exact (hsized n hn).1) h
    have hall : (plainFragments frags).flatMap TcFragment.neighbors = (ns.map Prod.fst).map plainAddr := by
      rw [← hfr.flatten, plainFragments, List.flatMap_map, List.flatMap_id']
    refine ⟨_, ⟨?_, fun f hf => ?_, fun _ => ⟨fun f hf => ?_, ?_⟩, fun hpos => by omega⟩, hsent⟩
    · rw [hall, List.map_map]; exact List.map_id _
    · obtain ⟨L, hL, rfl⟩ := List.mem_map.1 hf
      exact hfr.fits L hL
    · obtain ⟨L, hL, rfl⟩ := List.mem_map.1 hf
      exact ⟨rfl, rfl⟩
    · rw [hall]
      exact wellSized_plain fun a ha => by obtain ⟨n, hn, rfl⟩ := List.mem_map.1 ha; exact (hsized n hn).1
  · rw [if_neg hlq] at h
    obtain ⟨frags, hfr, hnil, hsent⟩ := serializeLqTc_spec horig' hroom hsized h
    have hmap := neighbors_lqTcFragments cnf 0xff frags
    have hall : (lqTcFragments cnf 0xff frags).flatMap TcFragment.neighbors = ns := by
      rw [List.flatMap_def, hmap, hfr.flatten]
    have hmem : ∀ f ∈ lqTcFragments cnf 0xff frags, f.neighbors ∈ frags := fun f hf => by
      rw [← hmap]; exact List.mem_map_of_mem hf
    refine ⟨_, ⟨by rw [hall], fun f hf => hfr.fits _ (hmem f hf), fun hz => absurd hz hlq, fun _ => ⟨hall, ?_⟩⟩, hsent⟩
    by_cases hne : ns = []
    · right; rw [hnil hne]; rfl
    · exact .inl ⟨hne, fun f hf => hfr.nonempty hne _ (hmem f hf)⟩

end Olsrd.Topology
