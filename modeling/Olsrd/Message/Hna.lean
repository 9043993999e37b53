/-
HNA messages: the netmasks of `ipcalc.c`, the serializers `serialize_hna4` and `serialize_hna6` of `build_msg.c`, and
what `olsr_input_hna` reads of their messages.
-/
import Olsrd.Lib.Filling
import Olsrd.Lib.Run
import Olsrd.Packet.Decoders
import Olsrd.Message.Pushed

namespace Olsrd.Message

open Bytes
open Olsrd.Topology (u16Bytes Holds Sender remainsize16)

/-! ## Netmasks -/

/-- `prefix_to_netmask` -/
def prefixToNetmask : Nat → Nat → List UInt8
  | 0, _ => []
  | len + 1, p =>
    if p > 8 then 0xff :: prefixToNetmask len (p - 8)
    else UInt8.ofNat (0xff <<< (8 - p)) :: List.replicate len 0

/-- `netmask_to_prefix`, with the bits of the bytes before in `prefix`. -/
def netmaskToPrefixFrom (pfx : Nat) : List UInt8 → UInt8
  | [] => UInt8.ofNat pfx
  | a :: adr =>
    if a = 0xff then netmaskToPrefixFrom (pfx + 8) adr
    else
      match a with
      | 0 => UInt8.ofNat pfx
      | 128 => UInt8.ofNat (pfx + 1)
      | 192 => UInt8.ofNat (pfx + 2)
      | 224 => UInt8.ofNat (pfx + 3)
      | 240 => UInt8.ofNat (pfx + 4)
      | 248 => UInt8.ofNat (pfx + 5)
      | 252 => UInt8.ofNat (pfx + 6)
      | 254 => UInt8.ofNat (pfx + 7)
      | _ => 255

def netmaskToPrefix (adr : List UInt8) : UInt8 := netmaskToPrefixFrom 0 adr

theorem length_prefixToNetmask : ∀ (len p : Nat), (prefixToNetmask len p).length = len
  | 0, _ => rfl
  | len + 1, p => by
    rw [prefixToNetmask]
    split
    · rw [List.length_cons, length_prefixToNetmask]
    · simp

theorem netmaskToPrefixFrom_ff (pfx : Nat) (adr : List UInt8) :
    netmaskToPrefixFrom pfx (0xff :: adr) = netmaskToPrefixFrom (pfx + 8) adr := rfl

theorem netmaskToPrefixFrom_zeros (pfx : Nat) : ∀ len, netmaskToPrefixFrom pfx (List.replicate len 0) = UInt8.ofNat pfx
  | 0 => rfl
  | _ + 1 => rfl

theorem netmaskToPrefixFrom_netmask : ∀ (len pfx p : Nat), p ≤ 8 * len →
    netmaskToPrefixFrom pfx (prefixToNetmask len p) = UInt8.ofNat (pfx + p)
  | 0, pfx, p, h => by
    obtain rfl : p = 0 := by omega
    rfl
  | len + 1, pfx, p, h => by
    rw [prefixToNetmask]
    by_cases hp : p > 8
    · rw [if_pos hp, netmaskToPrefixFrom_ff, netmaskToPrefixFrom_netmask len _ _ (by omega)]
      congr 1
      omega
    · rw [if_neg hp]
      -- the last byte with a bit of the prefix
      obtain rfl | hp8 : p = 8 ∨ p < 8 := by omega
      · exact netmaskToPrefixFrom_zeros _ _
      · interval_cases p <;> rfl

/-- The prefix length comes back from its netmask. -/
theorem netmaskToPrefix_netmask {len p : Nat} (h : p ≤ 8 * len) :
    netmaskToPrefix (prefixToNetmask len p) = UInt8.ofNat p := by
  have hfrom := netmaskToPrefixFrom_netmask len 0 p h
  rwa [Nat.zero_add] at hfrom

/-! ## The serializers -/

/-- `struct ip_prefix_list` -/
structure HnaEntry where
  pfx : IpAddr
  prefixLen : UInt8
  deriving DecidableEq, Repr

/-- `struct hnapair` -/
def HnaEntry.pair (cnf : Cnf) (h : HnaEntry) : IpAddr × IpAddr :=
  (h.pfx, prefixToNetmask cnf.ipsize h.prefixLen.toNat)

def hnaPairsBytes (pairs : List (IpAddr × IpAddr)) : List UInt8 := pairs.flatMap fun pair => pair.1 ++ pair.2

/-- An HNA message with the size its header tells; `MAX_TTL` is 255. -/
def hnaBytes (cnf : Cnf) (vtime : UInt8) (size : Nat) (seqno : UInt16) (pairs : List UInt8) : List UInt8 :=
  [4, vtime] ++ u16Bytes size ++ cnf.mainAddr ++ [255, 0] ++ u16Bytes seqno.toNat ++ pairs

/-- `OLSR_HNA_IPV4_HDRSIZE`, `OLSR_HNA_IPV6_HDRSIZE` -/
def hnaHdrsize (cnf : Cnf) : Nat := 8 + cnf.ipsize

/-- The state of the loop: `buff` is the message behind its header. -/
structure HnaBuild where
  st : Sender
  remainsize : Nat
  buff : List UInt8

def HnaBuild.currSize (cnf : Cnf) (w : HnaBuild) : Nat := hnaHdrsize cnf + w.buff.length

/-- Number the message and push it. -/
def HnaBuild.put (cnf : Cnf) (vtime : UInt8) (w : HnaBuild) : Sender :=
  pushNumbered w.st fun seqno => hnaBytes cnf vtime (w.currSize cnf) seqno w.buff

/-- Send a partial HNA, if it contains data, and the packet. -/
def HnaBuild.flush (cnf : Cnf) (vtime : UInt8) (w : HnaBuild) : HnaBuild :=
  let w := if w.currSize cnf > hnaHdrsize cnf then { w with st := w.put cnf vtime, buff := [] } else w
  { w with st := w.st.netOutput, remainsize := remainsize16 w.st.netOutput }

def HnaBuild.add (cnf : Cnf) (w : HnaBuild) (h : HnaEntry) : HnaBuild :=
  { w with buff := w.buff ++ ((h.pair cnf).1 ++ (h.pair cnf).2) }

/-- Write a pair, for which there has to be room in `msg_buffer`. -/
def HnaBuild.write (cnf : Cnf) (w : HnaBuild) (h : HnaEntry) : Option HnaBuild :=
  if w.currSize cnf + 2 * cnf.ipsize > msgBufferSize then none else some (w.add cnf h)

/-- One round of the loop. There is no result when `check_buffspace` ends the program or a pair is written behind the
end of `msg_buffer`. -/
def hnaStep (cnf : Cnf) (vtime : UInt8) (w : HnaBuild) (h : HnaEntry) : Option HnaBuild :=
  if w.currSize cnf + 2 * cnf.ipsize > w.remainsize then
    let w := w.flush cnf vtime
    if w.currSize cnf + 2 * cnf.ipsize > w.remainsize then none else w.write cnf h
  else w.write cnf h

/-- The sum that `needsize` stands for. -/
def hnaNeedsize (cnf : Cnf) (n : Nat) : Nat := hnaHdrsize cnf + n * (2 * cnf.ipsize)

/-- What both functions do when there are HNA entries. -/
def serializeHna (cnf : Cnf) (vtime : UInt8) (hna : List HnaEntry) (st : Sender) : Option Sender :=
  if hna = [] then some st
  else
    let st := sendPending (hnaNeedsize cnf hna.length) st
    if hnaHdrsize cnf > remainsize16 st then none
    else (Run.forEach (hnaStep cnf vtime) hna ⟨st, remainsize16 st, []⟩).map fun w => w.put cnf vtime

def serializeHna4 (cnf : Cnf) (vtime : UInt8) (hna : List HnaEntry) (st : Sender) : Option Sender :=
  if cnf.ipVersion ≠ .inet then some st else serializeHna cnf vtime hna st

def serializeHna6 (cnf : Cnf) (vtime : UInt8) (hna : List HnaEntry) (st : Sender) : Option Sender :=
  if cnf.ipVersion ≠ .inet6 then some st else serializeHna cnf vtime hna st

/-- `queue_hna` -/
def queueHna (cnf : Cnf) : UInt8 → List HnaEntry → Sender → Option Sender :=
  match cnf.ipVersion with
  | .inet => serializeHna4 cnf
  | .inet6 => serializeHna6 cnf

/-! ## What a receiver reads -/

/-- The networks that `olsr_input_hna` reads of a run of messages from a symmetric neighbour. -/
def receivedHna (cnf : Cnf) (msgs : List Mem) : List (IpAddr × UInt8) :=
  msgs.flatMap fun m => ((olsrInputHna cnf true m).1.getD []).map fun pair => (pair.1, netmaskToPrefix pair.2)

def PairsSized (cnf : Cnf) (pairs : List (IpAddr × IpAddr)) : Prop :=
  ∀ pair ∈ pairs, pair.1.length = cnf.ipsize ∧ pair.2.length = cnf.ipsize

section

variable {cnf : Cnf} {msg : Mem} {vtime : UInt8}

theorem length_hnaPairsBytes : ∀ {pairs : List (IpAddr × IpAddr)}, PairsSized cnf pairs →
    (hnaPairsBytes pairs).length = pairs.length * (2 * cnf.ipsize)
  | [], _ => by simp [hnaPairsBytes]
  | pair :: pairs, h => by
    obtain ⟨h1, h2⟩ := h pair (List.mem_cons_self ..)
    have hrest : (hnaPairsBytes pairs).length = _ := length_hnaPairsBytes fun p hp => h p (List.mem_cons_of_mem _ hp)
    rw [hnaPairsBytes, List.flatMap_cons, List.length_append, List.length_append, ← hnaPairsBytes, hrest, h1, h2,
      List.length_cons, Nat.add_one_mul pairs.length (2 * cnf.ipsize)]
    omega

theorem hnaRecords_bytes (post : List UInt8) : ∀ (pairs : List (IpAddr × IpAddr)) (pre : List UInt8) {c : Cursor}
    {currEnd : Nat}, c.curr = pre.length → currEnd = pre.length + (hnaPairsBytes pairs).length → PairsSized cnf pairs →
    Holds msg (pre ++ (hnaPairsBytes pairs ++ post)) → (hnaRecords cnf msg currEnd c).1 = pairs
  | [], pre, c, currEnd, hc, hend, _, _ => by
    rw [hnaRecords, if_neg (by simp [hend, hc, hnaPairsBytes])]
  | pair :: pairs, pre, c, currEnd, hc, hend, hsized, h => by
    obtain ⟨h1, h2⟩ := hsized pair (List.mem_cons_self ..)
    have hpos := cnf.ipsize_pos
    have hcons : hnaPairsBytes (pair :: pairs) = pair.1 ++ (pair.2 ++ hnaPairsBytes pairs) := by
      rw [hnaPairsBytes, List.flatMap_cons, List.append_assoc]
      rfl
    rw [hcons] at hend h
    simp only [List.length_append, h1, h2] at hend
    have hpfx : msg.slice c.curr cnf.ipsize = pair.1 := by
      have hs := Holds.slice pre pair.1 (pair.2 ++ hnaPairsBytes pairs ++ post) (by simpa using h)
      rwa [h1, ← hc] at hs
    have hmask : msg.slice (c.curr + cnf.ipsize) cnf.ipsize = pair.2 := by
      have hs := Holds.slice (pre ++ pair.1) pair.2 (hnaPairsBytes pairs ++ post) (by simpa using h)
      rwa [List.length_append, h1, h2, ← hc] at hs
    have hend' : currEnd = (pre ++ pair.1 ++ pair.2).length + (hnaPairsBytes pairs).length := by
      simp only [List.length_append, h1, h2]
      omega
    have hcurr : (pktGetIpaddress cnf msg (pktGetIpaddress cnf msg c).2).2.curr = (pre ++ pair.1 ++ pair.2).length := by
      simp [pktGetIpaddress, hc, h1, h2, Nat.add_assoc]
    have hrest := hnaRecords_bytes post pairs (pre ++ pair.1 ++ pair.2) hcurr hend'
      (fun p hp => hsized p (List.mem_cons_of_mem _ hp)) (by simpa using h)
    rw [hnaRecords, if_pos (by omega)]
    dsimp only
    rw [hrest]
    simp only [pktGetIpaddress, Cursor.get_curr, hpfx, hmask]

/-- What a receiver reads of an HNA message is its originator and its pairs, whatever the TTL and the hop count are. -/
theorem olsrInputHna_relayed {size : Nat} {seqno : UInt16} {pairs : List (IpAddr × IpAddr)} {orig : IpAddr}
    {ttl hops : UInt8} (horig : orig.length = cnf.ipsize) (hsized : PairsSized cnf pairs)
    (hsize : size = hnaHdrsize cnf + (hnaPairsBytes pairs).length) (hsmall : size < 65536)
    (h : Holds msg ([4, vtime] ++ u16Bytes size ++ orig ++ [ttl, hops] ++ u16Bytes seqno.toNat ++
    hnaPairsBytes pairs)) :
    (olsrInputHna cnf true msg).1 = some pairs ∧ msg.slice 4 cnf.ipsize = orig := by
  let pre := [4, vtime] ++ u16Bytes size ++ orig ++ [ttl, hops] ++ u16Bytes seqno.toNat
  have hpre : pre.length = hnaHdrsize cnf := by
    simp [pre, u16Bytes, horig, hnaHdrsize]
    omega
  have hbytes : pre ++ hnaPairsBytes pairs = pre ++ (hnaPairsBytes pairs ++ []) := by rw [List.append_nil]
  have htype0 : msg 0 = 4 :=
    Holds.byte [] 4 (vtime :: (u16Bytes size ++ orig ++ [ttl, hops] ++ u16Bytes seqno.toNat ++
      hnaPairsBytes pairs)) (by simpa using h)
  have hsize2 : msg.u16 2 = size :=
    Holds.u16 [4, vtime] (orig ++ [ttl, hops] ++ u16Bytes seqno.toNat ++ hnaPairsBytes pairs) hsmall
      (by simpa using h)
  have hslice : msg.slice 4 cnf.ipsize = orig := by
    have hs := Holds.slice ([4, vtime] ++ u16Bytes size) orig
      ([ttl, hops] ++ u16Bytes seqno.toNat ++ hnaPairsBytes pairs) (by simpa using h)
    rw [horig] at hs
    simpa [u16Bytes] using hs
  -- the records fill the message
  have hmod : ¬ (size - 8 - cnf.ipsize) % (2 * cnf.ipsize) ≠ 0 := by
    rw [hsize, length_hnaPairsBytes hsized, hnaHdrsize, Nat.sub_sub, Nat.add_sub_cancel_left, Nat.mul_mod_left]
    exact fun hne => hne rfl
  refine ⟨?_, hslice⟩
  unfold olsrInputHna
  simp only [pktGetU8, pktGetU16, pktGetReltime, pktGetIpaddress, Cursor.start_curr, Cursor.get_curr,
    Cursor.ignore_curr, htype0, Nat.zero_add, hsize2, if_neg hmod, Bool.not_true, Bool.false_eq_true, if_false]
  rw [if_neg (by decide)]
  dsimp only
  rw [hnaRecords_bytes [] pairs pre (by simp [hpre, hnaHdrsize]; omega) (by rw [hpre, hsize]) hsized
    (by rwa [← hbytes])]

theorem olsrInputHna_bytes {size : Nat} {seqno : UInt16} {pairs : List (IpAddr × IpAddr)}
    (horig : cnf.mainAddr.length = cnf.ipsize) (hsized : PairsSized cnf pairs)
    (hsize : size = hnaHdrsize cnf + (hnaPairsBytes pairs).length) (hsmall : size < 65536)
    (h : Holds msg (hnaBytes cnf vtime size seqno (hnaPairsBytes pairs))) :
    (olsrInputHna cnf true msg).1 = some pairs :=
  (olsrInputHna_relayed horig hsized hsize hsmall h).1

/-! ## The round trip -/

/-- The message with these pairs. -/
def hnaPart (cnf : Cnf) (vtime : UInt8) (seqno : UInt16) (pairs : List (IpAddr × IpAddr)) : List UInt8 :=
  hnaBytes cnf vtime (hnaHdrsize cnf + (hnaPairsBytes pairs).length) seqno (hnaPairsBytes pairs)

theorem length_hnaPart (horig : cnf.mainAddr.length = cnf.ipsize) (pairs : List (IpAddr × IpAddr)) (seqno : UInt16) :
    (hnaPart cnf vtime seqno pairs).length = hnaHdrsize cnf + (hnaPairsBytes pairs).length := by
  simp [hnaPart, hnaBytes, hnaHdrsize, u16Bytes, horig]
  omega

theorem hnaPairsBytes_append (pairs pairs' : List (IpAddr × IpAddr)) :
    hnaPairsBytes (pairs ++ pairs') = hnaPairsBytes pairs ++ hnaPairsBytes pairs' := List.flatMap_append

/-- What a receiver reads of all messages is what all of them hold. -/
theorem receivedHna_parts (horig : cnf.mainAddr.length = cnf.ipsize) : ∀ (parts : List (List (IpAddr × IpAddr)))
    (seqno : UInt16) {msgs : List Mem}, (∀ pairs ∈ parts, hnaHdrsize cnf + (hnaPairsBytes pairs).length < 65536) →
    (∀ pairs ∈ parts, PairsSized cnf pairs) → List.Forall₂ Holds msgs (numbered (hnaPart cnf vtime) seqno parts) →
    receivedHna cnf msgs = parts.flatten.map fun pair => (pair.1, netmaskToPrefix pair.2)
  | [], _, msgs, _, _, h => by
    cases h
    rfl
  | pairs :: parts, seqno, msgs, hfits, hsized, h => by
    rw [numbered] at h
    cases h with
    | cons hmsg hmsgs =>
      have hdec := olsrInputHna_bytes horig (hsized pairs (List.mem_cons_self ..)) rfl
        (hfits pairs (List.mem_cons_self ..)) hmsg
      have hrest := receivedHna_parts horig parts (seqno + 1) (fun p hp => hfits p (List.mem_cons_of_mem _ hp))
        (fun p hp => hsized p (List.mem_cons_of_mem _ hp)) hmsgs
      rw [receivedHna, List.flatMap_cons, hdec, ← receivedHna, hrest, List.flatten_cons, List.map_append]
      rfl

/-- The messages pushed between `st` and `st'` fit the buffer, none of them was dropped, and whoever reads them,
whatever lies behind them in memory, finds the networks `expected`, in their order. -/
structure HnaRoundTrip (cnf : Cnf) (st st' : Sender) (expected : List (IpAddr × UInt8)) : Prop
    extends AllFit st st' where
  networks : ∀ msgs, List.Forall₂ Holds msgs (newMessages st st') → receivedHna cnf msgs = expected

/-- The state of the loop when the entries `done` have been written, to the messages `parts` and the pairs in the
buffer. -/
structure HnaBuild.Inv (cnf : Cnf) (vtime : UInt8) (st₀ : Sender) (w : HnaBuild) (done : List HnaEntry)
    (parts : List (List (IpAddr × IpAddr))) (pairs : List (IpAddr × IpAddr)) : Prop where
  pushed : Pushed (hnaPart cnf vtime) st₀ w.st parts
  left : w.remainsize + w.st.pending ≤ w.st.maxsize
  room : w.currSize cnf ≤ w.remainsize
  inBuffer : w.currSize cnf ≤ msgBufferSize
  small : ∀ pairs ∈ parts, hnaHdrsize cnf + (hnaPairsBytes pairs).length ≤ msgBufferSize
  buff : w.buff = hnaPairsBytes pairs
  written : parts.flatten ++ pairs = done.map (HnaEntry.pair cnf)

/-! ### The messages as containers -/

def HnaBuild.level (cnf : Cnf) (w : HnaBuild) : Filling.Level := ⟨w.remainsize, w.currSize cnf⟩

/-- A message in an emptied output buffer of that size. -/
def hnaFresh (cnf : Cnf) (maxsize : Nat) : Filling.Level := ⟨maxsize % 65536, hnaHdrsize cnf⟩

def hnaItem (cnf : Cnf) : Filling.Item := ⟨2 * cnf.ipsize, 2 * cnf.ipsize⟩

section

variable {st₀ : Sender} {w : HnaBuild} {done : List HnaEntry} {parts : List (List (IpAddr × IpAddr))}
  {pairs : List (IpAddr × IpAddr)}

theorem HnaBuild.Inv.put (horig : cnf.mainAddr.length = cnf.ipsize) (h : w.Inv cnf vtime st₀ done parts pairs) :
    Pushed (hnaPart cnf vtime) st₀ (w.put cnf vtime) (parts ++ [pairs]) ∧
      ∀ pairs' ∈ parts ++ [pairs], hnaHdrsize cnf + (hnaPairsBytes pairs').length ≤ msgBufferSize := by
  have hroom := h.room
  have hleft := h.left
  have hsmall := h.inBuffer
  rw [HnaBuild.currSize, h.buff] at hroom hsmall
  refine ⟨(h.pushed.put (fun seqno => ?_) (length_hnaPart horig pairs) (by omega)).1, fun pairs' hpairs' => ?_⟩
  · rw [HnaBuild.currSize, h.buff]
    rfl
  · obtain hpairs' | hpairs' := List.mem_append.1 hpairs'
    · exact h.small pairs' hpairs'
    · rwa [List.mem_singleton.1 hpairs']

theorem pairsSized_entries (hdone : ∀ h ∈ done, h.pfx.length = cnf.ipsize) :
    PairsSized cnf (done.map (HnaEntry.pair cnf)) := by
  intro pair hpair
  obtain ⟨h, hh, rfl⟩ := List.mem_map.1 hpair
  exact ⟨hdone h hh, length_prefixToNetmask ..⟩

theorem HnaBuild.Inv.pairs_eq_nil (h : w.Inv cnf vtime st₀ done parts pairs)
    (hdone : ∀ h ∈ done, h.pfx.length = cnf.ipsize) (hnil : w.buff = []) : pairs = [] := by
  have hsized : PairsSized cnf pairs := fun pair hpair => pairsSized_entries hdone pair (by
    rw [← h.written]
    exact List.mem_append_right _ hpair)
  have hlen := length_hnaPairsBytes hsized
  have hpos := cnf.ipsize_pos
  rw [← h.buff, hnil, List.length_nil] at hlen
  obtain hzero | hzero := Nat.mul_eq_zero.1 hlen.symm
  · exact List.length_eq_zero_iff.1 hzero
  · omega

theorem HnaBuild.buff_eq_nil (h : ¬w.currSize cnf > hnaHdrsize cnf) : w.buff = [] := by
  rw [HnaBuild.currSize] at h
  exact List.length_eq_zero_iff.1 (by omega)

theorem HnaBuild.flush_buff (w : HnaBuild) : (w.flush cnf vtime).buff = [] := by
  unfold HnaBuild.flush
  split
  · rfl
  · exact HnaBuild.buff_eq_nil (by assumption)

theorem HnaBuild.flush_level (w : HnaBuild) : (w.flush cnf vtime).level cnf = hnaFresh cnf w.st.maxsize := by
  have hcurr : (w.flush cnf vtime).currSize cnf = hnaHdrsize cnf := by
    rw [HnaBuild.currSize, HnaBuild.flush_buff, List.length_nil, Nat.add_zero]
  have hrem : (w.flush cnf vtime).remainsize = w.st.maxsize % 65536 := by
    unfold HnaBuild.flush
    split
    · exact (remainsize16_netOutput _).trans (congrArg (· % 65536) (pushNumbered_maxsize ..))
    · exact remainsize16_netOutput _
  rw [HnaBuild.level, hcurr, hrem]
  rfl

theorem HnaBuild.Inv.flush (horig : cnf.mainAddr.length = cnf.ipsize) (hhdr : hnaHdrsize cnf ≤ st₀.maxsize % 65536)
    (hdone : ∀ h ∈ done, h.pfx.length = cnf.ipsize) (h : w.Inv cnf vtime st₀ done parts pairs) :
    ∃ parts', (w.flush cnf vtime).Inv cnf vtime st₀ done parts' [] := by
  have hlevel : (w.flush cnf vtime).level cnf = hnaFresh cnf w.st.maxsize := w.flush_level
  rw [h.pushed.maxsize] at hlevel
  have hrem : (w.flush cnf vtime).remainsize = st₀.maxsize % 65536 := congrArg Filling.Level.room hlevel
  have hcurr : (w.flush cnf vtime).currSize cnf = hnaHdrsize cnf := congrArg Filling.Level.used hlevel
  have hsmall : hnaHdrsize cnf ≤ msgBufferSize := le_trans (Nat.le_add_right ..) h.inBuffer
  -- an emptied output buffer
  have hemptied : ∀ {parts' : List (List (IpAddr × IpAddr))},
      Pushed (hnaPart cnf vtime) st₀ (w.flush cnf vtime).st parts' →
        (w.flush cnf vtime).st.pending = 0 →
        (∀ pairs ∈ parts', hnaHdrsize cnf + (hnaPairsBytes pairs).length ≤ msgBufferSize) →
        parts'.flatten = done.map (HnaEntry.pair cnf) → (w.flush cnf vtime).Inv cnf vtime st₀ done parts' [] := by
    intro parts' hpushed hpending hparts hwritten
    have hst := hpushed.maxsize
    have hmod := Nat.mod_le st₀.maxsize 65536
    exact ⟨hpushed, by omega, by omega, by omega, hparts, w.flush_buff, by rw [List.append_nil, hwritten]⟩
  by_cases hdata : w.currSize cnf > hnaHdrsize cnf
  · obtain ⟨hpushed, hparts⟩ := h.put horig
    have hflush : (w.flush cnf vtime).st = (w.put cnf vtime).netOutput := by
      unfold HnaBuild.flush
      rw [if_pos hdata]
    refine ⟨parts ++ [pairs], hemptied (hflush ▸ hpushed.output) (by rw [hflush]; rfl) hparts ?_⟩
    rw [List.flatten_append, List.flatten_singleton, h.written]
  · have hflush : (w.flush cnf vtime).st = w.st.netOutput := by
      unfold HnaBuild.flush
      rw [if_neg hdata]
    obtain rfl := h.pairs_eq_nil hdone (HnaBuild.buff_eq_nil hdata)
    have hwritten : parts.flatten = done.map (HnaEntry.pair cnf) := by rw [← h.written, List.append_nil]
    exact ⟨parts, hemptied (hflush ▸ h.pushed.output) (by rw [hflush]; rfl) h.small hwritten⟩

theorem HnaBuild.add_currSize {e : HnaEntry} (he : e.pfx.length = cnf.ipsize) :
    (w.add cnf e).currSize cnf = w.currSize cnf + 2 * cnf.ipsize := by
  have hlen : ((e.pair cnf).1 ++ (e.pair cnf).2).length = 2 * cnf.ipsize := by
    rw [List.length_append, HnaEntry.pair, length_prefixToNetmask, he]
    omega
  show hnaHdrsize cnf + (w.buff ++ ((e.pair cnf).1 ++ (e.pair cnf).2)).length = _
  rw [List.length_append, hlen, ← Nat.add_assoc]
  rfl

theorem HnaBuild.Inv.add {e : HnaEntry} (he : e.pfx.length = cnf.ipsize)
    (hfits : w.currSize cnf + 2 * cnf.ipsize ≤ w.remainsize) (hsmall : w.currSize cnf + 2 * cnf.ipsize ≤ msgBufferSize)
    (h : w.Inv cnf vtime st₀ done parts pairs) :
    (w.add cnf e).Inv cnf vtime st₀ (done ++ [e]) parts (pairs ++ [e.pair cnf]) := by
  have hcurr := w.add_currSize he
  refine ⟨h.pushed, h.left, hcurr.trans_le hfits, hcurr.trans_le hsmall, h.small, ?_, ?_⟩
  · rw [hnaPairsBytes_append, ← h.buff]
    simp [HnaBuild.add, hnaPairsBytes]
  · rw [← List.append_assoc, h.written, List.map_append, List.map_singleton]

/-- An entry is written, once and behind the earlier ones, if and only if it is within its bounds. -/
theorem hnaStep_spec (horig : cnf.mainAddr.length = cnf.ipsize) (hdone : ∀ h ∈ done, h.pfx.length = cnf.ipsize)
    {e : HnaEntry} (he : e.pfx.length = cnf.ipsize) (h : w.Inv cnf vtime st₀ done parts pairs) :
    (Filling.Bounded msgBufferSize (hnaFresh cnf st₀.maxsize) (w.level cnf) (hnaItem cnf) →
      ∃ w' parts' pairs', hnaStep cnf vtime w e = some w' ∧ w'.Inv cnf vtime st₀ (done ++ [e]) parts' pairs' ∧
        w'.level cnf = Filling.next (hnaFresh cnf st₀.maxsize) (w.level cnf) (hnaItem cnf)) ∧
    (¬Filling.Bounded msgBufferSize (hnaFresh cnf st₀.maxsize) (w.level cnf) (hnaItem cnf) →
      hnaStep cnf vtime w e = none) := by
  have hlevel : (w.flush cnf vtime).level cnf = hnaFresh cnf w.st.maxsize := w.flush_level
  rw [h.pushed.maxsize] at hlevel
  have hrem : (w.flush cnf vtime).remainsize = (hnaFresh cnf st₀.maxsize).room := congrArg Filling.Level.room hlevel
  have hcurr : (w.flush cnf vtime).currSize cnf = (hnaFresh cnf st₀.maxsize).used := congrArg Filling.Level.used hlevel
  unfold hnaStep HnaBuild.write Filling.Bounded
  dsimp only
  by_cases hfull : (w.level cnf).Full (hnaItem cnf)
  · rw [Filling.next_of_full hfull, if_pos (show w.currSize cnf + 2 * cnf.ipsize > w.remainsize from hfull)]
    constructor
    · rintro ⟨hnew, hbound⟩
      have hhdr : hnaHdrsize cnf ≤ st₀.maxsize % 65536 := le_trans (Nat.le_add_right _ _) (hnew hfull)
      have hroom : (w.flush cnf vtime).currSize cnf + 2 * cnf.ipsize ≤ (w.flush cnf vtime).remainsize := by
        rw [hcurr, hrem]
        exact hnew hfull
      have hsmall : (w.flush cnf vtime).currSize cnf + 2 * cnf.ipsize ≤ msgBufferSize := by
        rw [hcurr]
        exact hbound
      obtain ⟨parts', hinv⟩ := h.flush horig hhdr hdone
      refine ⟨_, _, _, by rw [if_neg (Nat.not_lt.2 hroom), if_neg (Nat.not_lt.2 hsmall)], hinv.add he hroom hsmall, ?_⟩
      rw [HnaBuild.level, HnaBuild.add_currSize he, hcurr]
      exact congrArg₂ Filling.Level.mk hrem rfl
    · intro hok
      by_cases hroom : (w.flush cnf vtime).currSize cnf + 2 * cnf.ipsize > (w.flush cnf vtime).remainsize
      · rw [if_pos hroom]
      · rw [if_neg hroom, if_pos]
        rw [hcurr, hrem] at hroom
        rw [hcurr]
        exact Nat.lt_of_not_le fun hsmall => hok ⟨fun _ => Nat.le_of_not_lt hroom, hsmall⟩
  · rw [Filling.next_of_not_full hfull, if_neg (show ¬w.currSize cnf + 2 * cnf.ipsize > w.remainsize from hfull)]
    constructor
    · rintro ⟨-, hsmall⟩
      refine ⟨_, _, _, if_neg (Nat.not_lt.2 hsmall), h.add he (Nat.le_of_not_lt hfull) hsmall, ?_⟩
      rw [HnaBuild.level, HnaBuild.add_currSize he]
      rfl
    · exact fun hok => if_pos (Nat.lt_of_not_le fun hsmall => hok ⟨fun h => absurd h hfull, hsmall⟩)

theorem hnaSteps_spec (horig : cnf.mainAddr.length = cnf.ipsize) : ∀ (l : List HnaEntry) {w : HnaBuild}
    {done : List HnaEntry} {parts : List (List (IpAddr × IpAddr))} {pairs : List (IpAddr × IpAddr)},
    (∀ e ∈ done ++ l, e.pfx.length = cnf.ipsize) → w.Inv cnf vtime st₀ done parts pairs →
    (Filling.Steps (hnaFresh cnf st₀.maxsize) (Filling.Bounded msgBufferSize (hnaFresh cnf st₀.maxsize)) (w.level cnf)
        (List.replicate l.length (hnaItem cnf)) →
      ∃ w' parts' pairs', Run.forEach (hnaStep cnf vtime) l w = some w' ∧
        w'.Inv cnf vtime st₀ (done ++ l) parts' pairs') ∧
    (¬Filling.Steps (hnaFresh cnf st₀.maxsize) (Filling.Bounded msgBufferSize (hnaFresh cnf st₀.maxsize)) (w.level cnf)
        (List.replicate l.length (hnaItem cnf)) → Run.forEach (hnaStep cnf vtime) l w = none)
  | [], w, done, parts, pairs, _, h =>
    ⟨fun _ => ⟨w, parts, pairs, rfl, by rwa [List.append_nil]⟩, fun hsteps => absurd trivial hsteps⟩
  | e :: l, w, done, parts, pairs, hsized, h => by
    obtain ⟨hsome, hnone⟩ := hnaStep_spec horig (fun e' he' => hsized e' (List.mem_append_left _ he'))
      (hsized e (by simp)) h
    rw [List.length_cons, List.replicate_succ, Filling.Steps, Run.forEach]
    by_cases hok : Filling.Bounded msgBufferSize (hnaFresh cnf st₀.maxsize) (w.level cnf) (hnaItem cnf)
    · obtain ⟨w₁, parts₁, pairs₁, hw₁, h₁, hlevel⟩ := hsome hok
      obtain ⟨hrest, hstop⟩ := hnaSteps_spec horig l (by rwa [List.append_assoc]) h₁
      rw [← hlevel, hw₁, Option.bind_some]
      refine ⟨fun hsteps => ?_, fun hsteps => hstop fun h' => hsteps ⟨hok, h'⟩⟩
      obtain ⟨w', parts', pairs', hw', h'⟩ := hrest hsteps.2
      rw [List.append_assoc] at h'
      exact ⟨w', parts', pairs', hw', h'⟩
    · rw [hnone hok]
      exact ⟨fun hsteps => absurd hsteps.1 hok, fun _ => rfl⟩

end

/-- The configured networks. -/
def hnaNetworks (hna : List HnaEntry) : List (IpAddr × UInt8) := hna.map fun h => (h.pfx, h.prefixLen)

/-- The prefix lengths come back from the netmasks. -/
theorem networks_of_pairs {hna : List HnaEntry} (hlen : ∀ h ∈ hna, h.prefixLen.toNat ≤ 8 * cnf.ipsize) :
    ((hna.map (HnaEntry.pair cnf)).map fun pair => (pair.1, netmaskToPrefix pair.2)) = hnaNetworks hna := by
  rw [List.map_map]
  refine List.map_congr_left fun h hh => ?_
  show (h.pfx, netmaskToPrefix (prefixToNetmask cnf.ipsize h.prefixLen.toNat)) = (h.pfx, h.prefixLen)
  rw [netmaskToPrefix_netmask (hlen h hh), UInt8.ofNat_toNat]

theorem Pushed.hnaRoundTrip {st st' : Sender} {parts : List (List (IpAddr × IpAddr))} {hna : List HnaEntry}
    (horig : cnf.mainAddr.length = cnf.ipsize)
    (hsmall : ∀ pairs ∈ parts, hnaHdrsize cnf + (hnaPairsBytes pairs).length ≤ msgBufferSize)
    (hsized : ∀ h ∈ hna, h.pfx.length = cnf.ipsize ∧ h.prefixLen.toNat ≤ 8 * cnf.ipsize)
    (h : Pushed (hnaPart cnf vtime) st st' parts) (hparts : parts.flatten = hna.map (HnaEntry.pair cnf)) :
    HnaRoundTrip cnf st st' (hnaNetworks hna) := by
  refine ⟨h.allFit, fun msgs hmsgs => ?_⟩
  rw [h.newMessages] at hmsgs
  rw [receivedHna_parts horig parts _ (fun pairs hpairs => lt_of_le_of_lt (hsmall pairs hpairs) (by decide))
    (fun pairs hpairs pair hpair => ?_) hmsgs, hparts, networks_of_pairs fun e he => (hsized e he).2]
  · refine pairsSized_entries (fun e he => (hsized e he).1) pair ?_
    rw [← hparts]
    exact List.mem_flatten_of_mem hpairs hpair

/-- The networks find room: what is left of the output buffer, or the emptied buffer if `needsize` is more than that,
has room for the header, no message takes more than `msg_buffer`, and if it takes a second message, the emptied buffer
has room for a network. -/
def HnaRoom (cnf : Cnf) (n : Nat) (st : Sender) : Prop :=
  n = 0 ∨ hnaHdrsize cnf ≤ remainsize16 (sendPending (hnaNeedsize cnf n) st) ∧
    Filling.Uniform msgBufferSize (2 * cnf.ipsize) n (hnaFresh cnf st.maxsize)
      ⟨remainsize16 (sendPending (hnaNeedsize cnf n) st), hnaHdrsize cnf⟩

instance (cnf : Cnf) (n : Nat) (st : Sender) : Decidable (HnaRoom cnf n st) := inferInstanceAs (Decidable (_ ∨ _ ∧ _))

theorem hnaHdrsize_le (cnf : Cnf) : hnaHdrsize cnf ≤ msgBufferSize := by
  cases hversion : cnf.ipVersion <;> simp [hnaHdrsize, msgBufferSize, Cnf.ipsize, IpVersion.ipsize, hversion]

/-- The entries go out if and only if they find room. -/
theorem serializeHna_spec {hna : List HnaEntry} {st : Sender} (horig : cnf.mainAddr.length = cnf.ipsize)
    (hsized : ∀ h ∈ hna, h.pfx.length = cnf.ipsize) (hpending : st.pending ≤ st.maxsize) :
    (HnaRoom cnf hna.length st → ∃ st' parts, serializeHna cnf vtime hna st = some st' ∧
      Pushed (hnaPart cnf vtime) st st' parts ∧
      (∀ pairs ∈ parts, hnaHdrsize cnf + (hnaPairsBytes pairs).length ≤ msgBufferSize) ∧
      parts.flatten = hna.map (HnaEntry.pair cnf)) ∧
    (¬HnaRoom cnf hna.length st → serializeHna cnf vtime hna st = none) := by
  unfold serializeHna
  by_cases hempty : hna = []
  · subst hempty
    exact ⟨fun _ => ⟨st, [], rfl, .refl hpending, by simp, rfl⟩, fun hroom => absurd (.inl rfl) hroom⟩
  rw [if_neg hempty]
  dsimp only
  by_cases hhdr : hnaHdrsize cnf > remainsize16 (sendPending (hnaNeedsize cnf hna.length) st)
  · rw [if_pos hhdr]
    refine ⟨?_, fun _ => rfl⟩
    rintro (hzero | ⟨hle, -⟩)
    · exact absurd (List.length_eq_zero_iff.1 hzero) hempty
    · exact absurd hle (Nat.not_le.2 hhdr)
  · have hpushed : Pushed (hnaPart cnf vtime) st (sendPending (hnaNeedsize cnf hna.length) st) [] :=
      (Pushed.refl hpending).sendPending _
    have hinv : (HnaBuild.mk (sendPending (hnaNeedsize cnf hna.length) st)
        (remainsize16 (sendPending (hnaNeedsize cnf hna.length) st)) []).Inv cnf vtime st [] [] [] :=
      ⟨hpushed, remainsize16_add_pending_le hpushed.pending, Nat.le_of_not_lt hhdr,
        hnaHdrsize_le cnf, by simp, rfl, rfl⟩
    obtain ⟨hsome, hnone⟩ := hnaSteps_spec horig hna hsized hinv
    have hroom := @Filling.steps_replicate_iff (hnaFresh cnf st.maxsize) msgBufferSize (2 * cnf.ipsize)
      (Nat.mul_pos Nat.two_pos cnf.ipsize_pos) hna.length
      ⟨remainsize16 (sendPending (hnaNeedsize cnf hna.length) st), hnaHdrsize cnf⟩ (Nat.le_of_not_lt hhdr)
      (hnaHdrsize_le cnf)
    rw [if_neg hhdr]
    constructor
    · intro hfits
      obtain hzero | ⟨-, huniform⟩ := hfits
      · exact absurd (List.length_eq_zero_iff.1 hzero) hempty
      · obtain ⟨w, parts, pairs, hw, hdone⟩ := hsome (hroom.2 huniform)
        obtain ⟨hput, hsmall⟩ := hdone.put horig
        refine ⟨_, _, by rw [hw]; rfl, hput, hsmall, ?_⟩
        rw [List.flatten_append, List.flatten_singleton, hdone.written, List.nil_append]
    · intro hfits
      rw [hnone fun hsteps => hfits (.inr ⟨Nat.le_of_not_lt hhdr, hroom.1 hsteps⟩)]
      rfl

/-- Whatever goes out, the entries do. -/
theorem serializeHna_pushed {hna : List HnaEntry} {st st' : Sender} (horig : cnf.mainAddr.length = cnf.ipsize)
    (hsized : ∀ h ∈ hna, h.pfx.length = cnf.ipsize) (hpending : st.pending ≤ st.maxsize)
    (h : serializeHna cnf vtime hna st = some st') :
    HnaRoom cnf hna.length st ∧ ∃ parts, Pushed (hnaPart cnf vtime) st st' parts ∧
      (∀ pairs ∈ parts, hnaHdrsize cnf + (hnaPairsBytes pairs).length ≤ msgBufferSize) ∧
      parts.flatten = hna.map (HnaEntry.pair cnf) := by
  obtain ⟨hsome, hnone⟩ := @serializeHna_spec cnf vtime hna st horig hsized hpending
  by_cases hroom : HnaRoom cnf hna.length st
  · obtain ⟨st₁, parts, hst₁, hpushed⟩ := hsome hroom
    obtain rfl := Option.some.inj (h.symm.trans hst₁)
    exact ⟨hroom, parts, hpushed⟩
  · rw [hnone hroom] at h
    cases h

/-- The sanity check fails when `needsize` wraps to less than the header, which only the 12 bytes of IPv4 allow. -/
theorem needsize_wraps_iff (cnf : Cnf) (n left : Nat) :
    ((hnaHdrsize cnf + n * (2 * cnf.ipsize)) % 65536 ≤ left ∧ left < hnaHdrsize cnf) ↔
      (cnf.ipVersion = .inet ∧ n % 8192 = 8191 ∧ 4 ≤ left ∧ left < 12) := by
  cases hversion : cnf.ipVersion with
  | inet =>
    have hsize : cnf.ipsize = 4 := by rw [Cnf.ipsize, hversion]; rfl
    rw [hnaHdrsize, hsize]
    simp only [true_and]
    omega
  | inet6 =>
    have hsize : cnf.ipsize = 16 := by rw [Cnf.ipsize, hversion]; rfl
    rw [hnaHdrsize, hsize]
    refine iff_of_false ?_ (fun h => by cases h.1)
    omega

theorem queueHna_eq (cnf : Cnf) (vtime : UInt8) (hna : List HnaEntry) (st : Sender) :
    queueHna cnf vtime hna st = serializeHna cnf vtime hna st := by
  cases hversion : cnf.ipVersion with
  | inet => simp [queueHna, serializeHna4, hversion]
  | inet6 => simp [queueHna, serializeHna6, hversion]

/-- Only the 16 bits of `needsize` let the header find no room: they wrap to 4 in IPv4 while 4 to 11 bytes are left. -/
theorem hnaHeader_fits_iff {n : Nat} {st : Sender} (hpending : st.pending ≤ st.maxsize)
    (hroom : hnaHdrsize cnf ≤ st.maxsize) (hmax : st.maxsize < 65536) :
    hnaHdrsize cnf ≤ remainsize16 (sendPending (hnaNeedsize cnf n) st) ↔
      ¬(cnf.ipVersion = .inet ∧ n % 8192 = 8191 ∧ 4 ≤ st.maxsize - st.pending ∧ st.maxsize - st.pending < 12) := by
  have hleft : remainsize16 st = st.maxsize - st.pending := by
    rw [remainsize16, Sender.netOutbufferBytesLeft]
    omega
  have hempty := (remainsize16_netOutput st).trans (Nat.mod_eq_of_lt hmax)
  rw [← needsize_wraps_iff, sendPending, hnaNeedsize]
  split
  · omega
  · omega

/-- In an output buffer that is no larger than `msg_buffer` and has room for a network, nothing else is in the way. -/
theorem hnaRoom_iff_of_small {n : Nat} {st : Sender} (hpending : st.pending ≤ st.maxsize)
    (hroom : hnaHdrsize cnf + 2 * cnf.ipsize ≤ st.maxsize) (hmax : st.maxsize ≤ msgBufferSize) :
    HnaRoom cnf n st ↔ ¬(cnf.ipVersion = .inet ∧ n % 8192 = 8191 ∧ 4 ≤ st.maxsize - st.pending ∧
      st.maxsize - st.pending < 12) := by
  have hsmall : st.maxsize < 65536 := lt_of_le_of_lt hmax (show msgBufferSize < 65536 by decide)
  have hmod : st.maxsize % 65536 = st.maxsize := Nat.mod_eq_of_lt hsmall
  have hpushed : Pushed (hnaPart cnf 0) st st [] := .refl hpending
  have hle := remainsize16_add_pending_le (hpushed.sendPending (hnaNeedsize cnf n)).pending
  rw [sendPending_maxsize] at hle
  rw [← hnaHeader_fits_iff hpending (le_trans (Nat.le_add_right _ _) hroom) hsmall]
  constructor
  · rintro (rfl | ⟨hhdr, -⟩)
    · -- without networks nothing is needed but the header
      refine (hnaHeader_fits_iff hpending (le_trans (Nat.le_add_right _ _) hroom) hsmall).2 ?_
      rintro ⟨-, hn, -⟩
      cases hn
    · exact hhdr
  · intro hhdr
    exact .inr ⟨hhdr, Filling.uniform_of_room hhdr (le_trans (le_trans (Nat.le_add_right _ _) hle) hmax)
      (hroom.trans_eq hmod.symm) (hmod.trans_le hmax)⟩

/-- For every list of networks, output buffer and fill level: receivers find the networks in their order, if and only
if these find room. Every prefix length comes back from its netmask. -/
theorem queueHna_roundTrip_iff {hna : List HnaEntry} {st : Sender} (horig : cnf.mainAddr.length = cnf.ipsize)
    (hsized : ∀ h ∈ hna, h.pfx.length = cnf.ipsize ∧ h.prefixLen.toNat ≤ 8 * cnf.ipsize)
    (hpending : st.pending ≤ st.maxsize) :
    (∀ len ≤ 8 * cnf.ipsize, netmaskToPrefix (prefixToNetmask cnf.ipsize len) = UInt8.ofNat len) ∧
    ((∃ st', queueHna cnf vtime hna st = some st' ∧ HnaRoundTrip cnf st st' (hnaNetworks hna)) ↔
      HnaRoom cnf hna.length st) := by
  refine ⟨fun len hlen => netmaskToPrefix_netmask hlen, ?_⟩
  rw [queueHna_eq]
  constructor
  · rintro ⟨st', hst', -⟩
    exact (serializeHna_pushed horig (fun e he => (hsized e he).1) hpending hst').1
  · intro hroom
    obtain ⟨st', parts, hst', hpushed, hsmall, hparts⟩ :=
      (serializeHna_spec horig (fun e he => (hsized e he).1) hpending).1 hroom
    exact ⟨st', hst', hpushed.hnaRoundTrip horig hsmall hsized hparts⟩

end

/-- Three networks in a buffer with room for two. -/
theorem queueHna_roundTrip_fragmented :
    (∀ len ≤ 32, netmaskToPrefix (prefixToNetmask 4 len) = UInt8.ofNat len) ∧
    ∃ st', queueHna ipv4Cnf 0x86 [⟨[10, 1, 0, 0], 16⟩, ⟨[0, 0, 0, 0], 0⟩, ⟨[10, 2, 3, 4], 32⟩]
        ⟨9, 30, 5, []⟩ = some st' ∧
      HnaRoundTrip ipv4Cnf ⟨9, 30, 5, []⟩ st' [([10, 1, 0, 0], 16), ([0, 0, 0, 0], 0), ([10, 2, 3, 4], 32)] := by
  obtain ⟨hmask, hiff⟩ := @queueHna_roundTrip_iff ipv4Cnf 0x86
    [⟨[10, 1, 0, 0], 16⟩, ⟨[0, 0, 0, 0], 0⟩, ⟨[10, 2, 3, 4], 32⟩] ⟨9, 30, 5, []⟩ rfl (by decide) (by decide)
  exact ⟨hmask, hiff.2 (by decide)⟩

/-- With 8191 networks and 10 bytes left, IPv4 flushes nothing and ends the program. With 187 networks and an output
buffer that has room for all of them in one message, the last one is written behind the end of `msg_buffer`. -/
theorem queueHna_wrapped :
    (¬ ∃ st', queueHna ipv4Cnf 0x86 (List.replicate 8191 ⟨[10, 1, 0, 0], 16⟩) ⟨1490, 1500, 5, []⟩ = some st' ∧
      HnaRoundTrip ipv4Cnf ⟨1490, 1500, 5, []⟩ st' (hnaNetworks (List.replicate 8191 ⟨[10, 1, 0, 0], 16⟩))) ∧
    ¬ ∃ st', queueHna ipv4Cnf 0x86 (List.replicate 187 ⟨[10, 1, 0, 0], 16⟩) ⟨0, 8968, 5, []⟩ = some st' ∧
      HnaRoundTrip ipv4Cnf ⟨0, 8968, 5, []⟩ st' (hnaNetworks (List.replicate 187 ⟨[10, 1, 0, 0], 16⟩)) := by
  have hnone : ∀ {n : Nat} {st : Sender}, st.pending ≤ st.maxsize → ¬HnaRoom ipv4Cnf n st →
      queueHna ipv4Cnf 0x86 (List.replicate n ⟨[10, 1, 0, 0], 16⟩) st = none := by
    intro n st hpending hroom
    rw [← @List.length_replicate _ n (HnaEntry.mk [10, 1, 0, 0] 16)] at hroom
    refine (queueHna_eq ..).trans ((serializeHna_spec rfl (fun e he => ?_) hpending).2 hroom)
    rw [List.eq_of_mem_replicate he]
    rfl
  constructor
  · rintro ⟨st', hst', -⟩
    rw [hnone (by decide) (by decide)] at hst'
    cases hst'
  · rintro ⟨st', hst', -⟩
    rw [hnone (by decide) (by decide)] at hst'
    cases hst'

end Olsrd.Message
