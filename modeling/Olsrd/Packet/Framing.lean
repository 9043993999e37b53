/-
Packet framing: where the messages lie that `parse_packet` hands out. The loop itself never leaves
the `count` bytes it is given. `count`, however, is computed as the unsigned `size - 4` before the
minimum size is tested, so a packet of fewer than four bytes starts the loop with almost `2^32`
bytes left, in the stale bytes of the input buffer.
-/
import Olsrd.Packet.Parser

namespace Olsrd

open Bytes

/-! ## The property -/

/-- Everything handed out lies in the packet's `size` bytes at `packet`; the messages the loop comes
to are consecutive, so any two of them are disjoint and in packet order. -/
structure WellFramed (packet size : Nat) (visits : List Visit) : Prop where
  inside : ∀ v ∈ visits, v.handed ≠ [] → packet ≤ v.off ∧ v.off + v.msgsize ≤ packet + size
  consecutive : visits.IsChain fun a b => b.off = a.off + a.msgsize
  disjoint : visits.Pairwise fun a b => a.off + a.msgsize ≤ b.off

/-- The checks a message header at `m` has to pass with `count` bytes left. -/
def HeaderOk (cnf : Cnf) (mem : Mem) (m count : Nat) : Prop :=
  minMsgsize cnf ≤ count ∧ minMsgsize cnf ≤ mem.u16 (m + 2) ∧ mem.u16 (m + 2) % 4 = 0 ∧
    mem.u16 (m + 2) ≤ count

/-- A chain of well-formed headers from `m` on that leads to a message of another, not denied
originator. -/
inductive LeadsToMessage (cnf : Cnf) (mem : Mem) : Nat → Nat → Prop
  | here {m count : Nat} : HeaderOk cnf mem m count → skipsOriginator cnf mem m = false →
      LeadsToMessage cnf mem m count
  | skip {m count : Nat} : HeaderOk cnf mem m count → skipsOriginator cnf mem m = true →
      LeadsToMessage cnf mem (m + mem.u16 (m + 2)) (count - mem.u16 (m + 2)) →
      LeadsToMessage cnf mem m count

/-- A packet too short for its own header whose length field agrees with its size, in front of bytes
that look like messages. -/
def ShortPacketBeforeMessages (cnf : Cnf) (mem : Mem) (packet size : Nat) : Prop :=
  size < 4 ∧ mem.u16 packet = size ∧ LeadsToMessage cnf mem (packet + 4) (bytesAfterHeader size)

/-! ## One message -/

/-- A message that no parse function asked for is still to be forwarded. -/
theorem callParseFunctions_nil (m : Nat) : ∀ (fs : List ParseFunctionEntry) (mem : Mem) (fwd : Bool),
    (callParseFunctions m fs mem fwd).2.2 = [] → (callParseFunctions m fs mem fwd).2.1 = fwd
  | [], mem, fwd, _ => rfl
  | f :: fs, mem, fwd, h => by
    unfold callParseFunctions at h ⊢
    split at h
    · simp at h
    · rename_i hf
      rw [if_neg hf]
      exact callParseFunctions_nil m fs mem fwd h

theorem handed_ne_nil (env : ParserEnv) (mem : Mem) (m : Nat) :
    (if (callParseFunctions m env.parseFunctions mem true).2.1 then
        (callParseFunctions m env.parseFunctions mem true).2.2 ++ [Sink.forward]
      else (callParseFunctions m env.parseFunctions mem true).2.2) ≠ [] := by
  split
  · simp
  · rename_i hf
    intro h
    exact hf (callParseFunctions_nil m _ _ _ h)

/-- The header checks of the message loop, as one condition. -/
theorem headerOk_of_not {cnf : Cnf} {mem : Mem} {m count : Nat} (h1 : ¬ count < minMsgsize cnf)
    (h2 : ¬ mem.u16 (m + 2) < minMsgsize cnf) (h3 : ¬ mem.u16 (m + 2) % 4 ≠ 0)
    (h4 : ¬ mem.u16 (m + 2) > count) : HeaderOk cnf mem m count :=
  ⟨by omega, by omega, by omega, by omega⟩

theorem leadsToMessage_header {cnf : Cnf} {mem : Mem} {m count : Nat}
    (h : LeadsToMessage cnf mem m count) : HeaderOk cnf mem m count := by
  cases h with
  | here h _ => exact h
  | skip h _ _ => exact h

/-! ## The message loop -/

/-- What holds of the messages of a loop from `m` on with `count` bytes left. -/
structure ChainFrom (m count : Nat) (visits : List Visit) : Prop where
  bounds : ∀ v ∈ visits, m ≤ v.off ∧ v.off + v.msgsize ≤ m + count
  head : ∀ v ∈ visits.head?, v.off = m
  chain : visits.IsChain fun a b => b.off = a.off + a.msgsize
  pairwise : visits.Pairwise fun a b => a.off + a.msgsize ≤ b.off

theorem chainFrom_nil (m count : Nat) : ChainFrom m count [] :=
  ⟨by simp, by simp, List.isChain_nil, List.Pairwise.nil⟩

theorem chainFrom_cons {m count sz : Nat} {rest : List Visit} (handed : List Sink) (hsz : sz ≤ count)
    (h : ChainFrom (m + sz) (count - sz) rest) : ChainFrom m count (⟨m, sz, handed⟩ :: rest) := by
  refine ⟨?_, ?_, ?_, ?_⟩
  · intro v hv
    rcases List.mem_cons.1 hv with rfl | hv
    · exact ⟨le_refl _, by simp only; omega⟩
    · have := h.bounds v hv; omega
  · intro v hv
    simp only [List.head?_cons, Option.mem_def, Option.some.injEq] at hv
    subst hv; rfl
  · exact List.isChain_cons.2 ⟨h.head, h.chain⟩
  · exact List.pairwise_cons.2 ⟨fun v hv => (h.bounds v hv).1, h.pairwise⟩

/-- The loop stays in its `count` bytes and visits one message right after the other. -/
theorem parseMessages_chain (env : ParserEnv) (mem : Mem) (m count : Nat) :
    ChainFrom m count (parseMessages env mem m count).2 := by
  fun_induction parseMessages env mem m count with
  | case1 | case2 | case3 | case4 | case5 => exact chainFrom_nil _ _
  | case6 mem m count h0 h1 h2 h3 h4 ho next ih => exact chainFrom_cons _ (by omega) ih
  | case7 mem m count h0 h1 h2 h3 h4 ho called mem' handed next ih => exact chainFrom_cons _ (by omega) ih

/-- Something is handed out exactly when the headers from `m` on lead to an acceptable message. -/
theorem parseMessages_handed_iff (env : ParserEnv) (mem : Mem) (m count : Nat) :
    (∃ v ∈ (parseMessages env mem m count).2, v.handed ≠ []) ↔ LeadsToMessage env.cnf mem m count := by
  fun_induction parseMessages env mem m count with
  | case1 mem m =>
    simp only [List.not_mem_nil, false_and, exists_false, false_iff]
    intro h
    have := (leadsToMessage_header h).1
    simp only [minMsgsize] at this; omega
  | case2 mem m count h0 h1 =>
    simp only [List.not_mem_nil, false_and, exists_false, false_iff]
    intro h; have := (leadsToMessage_header h).1; omega
  | case3 mem m count h0 h1 h2 =>
    simp only [List.not_mem_nil, false_and, exists_false, false_iff]
    intro h; have := (leadsToMessage_header h).2.1; omega
  | case4 mem m count h0 h1 h2 h3 =>
    simp only [List.not_mem_nil, false_and, exists_false, false_iff]
    intro h; exact h3 (leadsToMessage_header h).2.2.1
  | case5 mem m count h0 h1 h2 h3 h4 =>
    simp only [List.not_mem_nil, false_and, exists_false, false_iff]
    intro h; have := (leadsToMessage_header h).2.2.2; omega
  | case6 mem m count h0 h1 h2 h3 h4 ho next ih =>
    have hh := headerOk_of_not h1 h2 h3 h4
    simp only [List.mem_cons, exists_eq_or_imp, ne_eq, not_true_eq_false, false_or]
    constructor
    · intro h; exact .skip hh ho (ih.1 h)
    · intro h
      cases h with
      | here _ h' => rw [ho] at h'; cases h'
      | skip _ _ h' => exact ih.2 h'
  | case7 mem m count h0 h1 h2 h3 h4 ho called mem' handed next ih =>
    have hne := handed_ne_nil env mem m
    constructor
    · intro _; exact .here (headerOk_of_not h1 h2 h3 h4) (by simpa using ho)
    · intro _; exact ⟨_, List.mem_cons_self .., hne⟩

/-! ## `parse_packet` -/

/-- The sequence number lies before the first message. -/
theorem seqnoToHost_ge (p : Platform) (mem : Mem) (packet i : Nat) (h : packet + 4 ≤ i) :
    seqnoToHost p mem packet i = mem i := by
  unfold seqnoToHost
  split
  · show (if packet + 2 ≤ i then List.getD _ (i - (packet + 2)) (mem i) else mem i) = mem i
    rw [if_pos (by omega), List.getD_eq_getElem?_getD, List.getElem?_eq_none (by simp; omega)]
    rfl
  · rfl

theorem u16_congr {mem mem' : Mem} {off lo : Nat} (h : ∀ i, lo ≤ i → mem' i = mem i) (hoff : lo ≤ off) :
    mem'.u16 off = mem.u16 off := by
  unfold Mem.u16; rw [h off hoff, h (off + 1) (by omega)]

theorem skipsOriginator_congr {cnf : Cnf} {mem mem' : Mem} {m lo : Nat} (h : ∀ i, lo ≤ i → mem' i = mem i)
    (hm : lo ≤ m) : skipsOriginator cnf mem' m = skipsOriginator cnf mem m := by
  have : originatorAt cnf mem' m = originatorAt cnf mem m := by
    unfold originatorAt Mem.slice
    exact List.map_congr_left fun i _ => h _ (by omega)
  unfold skipsOriginator; rw [this]

/-- Where the headers lead depends only on the bytes from `m` on. -/
theorem leadsToMessage_congr {cnf : Cnf} {mem mem' : Mem} {lo m count : Nat}
    (h : ∀ i, lo ≤ i → mem' i = mem i) (hm : lo ≤ m) (hl : LeadsToMessage cnf mem m count) :
    LeadsToMessage cnf mem' m count := by
  induction hl with
  | @here m count hh ho =>
    refine .here ?_ (by rw [skipsOriginator_congr h hm]; exact ho)
    unfold HeaderOk at hh ⊢; rwa [u16_congr h (by omega)]
  | @skip m count hh ho _ ih =>
    refine .skip ?_ (by rw [skipsOriginator_congr h hm]; exact ho) ?_
    · unfold HeaderOk at hh ⊢; rwa [u16_congr h (by omega)]
    · rw [u16_congr h (by omega)]; exact ih (by omega)

theorem leadsToMessage_seqnoToHost (p : Platform) (cnf : Cnf) (mem : Mem) (packet count : Nat) :
    LeadsToMessage cnf (seqnoToHost p mem packet) (packet + 4) count ↔
      LeadsToMessage cnf mem (packet + 4) count := by
  have h : ∀ i, packet + 4 ≤ i → seqnoToHost p mem packet i = mem i := fun i => seqnoToHost_ge p mem packet i
  exact ⟨leadsToMessage_congr (fun i hi => (h i hi).symm) (le_refl _), leadsToMessage_congr h (le_refl _)⟩

theorem wellFramed_nil (packet size : Nat) : WellFramed packet size [] :=
  ⟨by simp, List.isChain_nil, List.Pairwise.nil⟩

theorem bytesAfterHeader_le {size : Nat} (h : 4 ≤ size) : bytesAfterHeader size ≤ size - 4 := by
  unfold bytesAfterHeader
  rw [show 2 ^ 32 + size - 4 = (size - 4) + 2 ^ 32 by omega, Nat.add_mod_right]
  exact Nat.mod_le _ _

theorem bytesAfterHeader_short {size : Nat} (h : size < 4) : 4 ≤ bytesAfterHeader size := by
  unfold bytesAfterHeader
  rw [Nat.mod_eq_of_lt (by omega)]
  omega

/-- A packet with at least a packet header is framed well. -/
theorem parsePacket_framed_of_le (env : ParserEnv) (mem : Mem) (packet size : Nat) (h : 4 ≤ size) :
    WellFramed packet size (parsePacket env mem packet size).2 := by
  unfold parsePacket
  split
  · exact wellFramed_nil _ _
  split
  · exact wellFramed_nil _ _
  have hc := parseMessages_chain env (seqnoToHost env.platform mem packet) (packet + 4) (bytesAfterHeader size)
  refine ⟨fun v hv _ => ?_, hc.chain, hc.pairwise⟩
  have := bytesAfterHeader_le h
  have := hc.bounds v hv
  omega

/-- A packet of fewer than four bytes is framed well exactly when nothing is handed out. -/
theorem parsePacket_framed_of_lt (env : ParserEnv) (mem : Mem) (packet size : Nat) (h : size < 4) :
    WellFramed packet size (parsePacket env mem packet size).2 ↔
      ¬ ShortPacketBeforeMessages env.cnf mem packet size := by
  have hcount := bytesAfterHeader_short h
  have hsize : size % 2 ^ 16 = size := Nat.mod_eq_of_lt (by omega)
  unfold parsePacket ShortPacketBeforeMessages
  rw [if_neg (by omega), hsize]
  by_cases hp : mem.u16 packet = size
  · simp only [hp, ne_eq, not_true_eq_false, if_false, h, true_and]
    have hc := parseMessages_chain env (seqnoToHost env.platform mem packet) (packet + 4) (bytesAfterHeader size)
    have hh := parseMessages_handed_iff env (seqnoToHost env.platform mem packet) (packet + 4)
      (bytesAfterHeader size)
    rw [leadsToMessage_seqnoToHost] at hh
    rw [← hh]
    constructor
    · rintro hw ⟨v, hv, hne⟩
      have h1 := hw.inside v hv hne
      have h2 := hc.bounds v hv
      omega
    · intro hn
      exact ⟨fun v hv hne => absurd ⟨v, hv, hne⟩ hn, hc.chain, hc.pairwise⟩
  · simp only [hp, ne_eq, not_false_eq_true, if_true, false_and, and_false, iff_true]
    exact wellFramed_nil _ _

/-- `parse_packet` frames a packet well unless it is a short packet in front of messages. -/
theorem parsePacket_framed_iff (env : ParserEnv) (mem : Mem) (packet size : Nat) :
    WellFramed packet size (parsePacket env mem packet size).2 ↔
      ¬ ShortPacketBeforeMessages env.cnf mem packet size := by
  by_cases h : 4 ≤ size
  · refine iff_of_true (parsePacket_framed_of_le env mem packet size h) ?_
    rintro ⟨hlt, -⟩; omega
  · exact parsePacket_framed_of_lt env mem packet size (by omega)

/-! ## `olsr_input` -/

/-- Each call of `parse_packet` that `olsr_input` makes records what that call did. -/
theorem olsrInput_visits (env : ParserEnv) : ∀ (ds : List Datagram) (n : Nat) (mem : Mem),
    ∀ c ∈ (olsrInput env ds n mem).2, c.visits = (parsePacket env c.mem c.packet c.size).2
  | [], _, _, c, hc => by simp [olsrInput] at hc
  | d :: ds, n, mem, c, hc => by
    unfold olsrInput at hc
    split at hc
    · simp at hc
    simp only at hc
    split_ifs at hc
    all_goals try (simp at hc; done)
    split at hc
    · simp at hc
    · rcases List.mem_cons.1 hc with rfl | hc
      · simp only
      · exact olsrInput_visits env ds (n + 1) _ c hc

/-- For every buffer content and every sequence of received datagrams, a call of `parse_packet`
frames its packet well exactly when it is not given a packet of fewer than four bytes that carries
its own size as length and is followed, in the stale bytes of the buffer, by headers that lead to a
message of another node. -/
theorem olsrInput_framed_iff (env : ParserEnv) (mem : Mem) (ds : List Datagram) (n : Nat)
    (c : ParseCall) (hc : c ∈ (olsrInput env ds n mem).2) :
    WellFramed c.packet c.size c.visits ↔ ¬ ShortPacketBeforeMessages env.cnf c.mem c.packet c.size := by
  rw [olsrInput_visits env ds n mem c hc]
  exact parsePacket_framed_iff env c.mem c.packet c.size

/-! ## A short packet -/

/-- An IPv4 node without plugins that forwards every message. -/
def plainParserEnv : ParserEnv where
  platform := ⟨true, 8⟩
  cnf := ⟨.inet, [10, 0, 0, 1], 2, denyIpv4Defaults⟩
  parseFunctions := []
  preprocessorFunctions := []
  olsrForwardMessage := fun mem _ => mem
  ifWithAddr := fun _ => false
  ifWithSock := true

/-- The input buffer after a packet with one 12-byte message of 10.0.0.2. -/
def usedInbuf : Mem :=
  fun i => [0, 16, 0, 1, 1, 0, 0, 12, 10, 0, 0, 2, 1, 0, 0, 7].getD i 0

/-- Two bytes that give their own number as the packet length. -/
def twoByteDatagram : Datagram := ⟨[0, 2], [10, 0, 0, 3], true⟩

/-- The call of `parse_packet` for `twoByteDatagram`. -/
def twoByteCall : ParseCall :=
  let mem := usedInbuf.write 0 [0, 2]
  ⟨mem, 0, 2, (parsePacket plainParserEnv mem 0 2).2⟩

theorem twoByteCall_mem : twoByteCall ∈ (olsrInput plainParserEnv [twoByteDatagram] 0 usedInbuf).2 :=
  List.mem_singleton.2 rfl

/-- The stale message is long enough, short enough and from another node. -/
theorem twoByteCall_shortPacket :
    ShortPacketBeforeMessages plainParserEnv.cnf twoByteCall.mem twoByteCall.packet twoByteCall.size := by
  refine ⟨by decide, by decide, .here ⟨?_, by decide, by decide, ?_⟩ (by decide)⟩
  · decide
  · decide

/-- After one ordinary packet a datagram of the two bytes `00 02` has the old message handed out
again, outside the two bytes received. -/
theorem olsrInput_twoByteDatagram_not_framed :
    ¬ ∀ (env : ParserEnv) (mem : Mem) (ds : List Datagram) (n : Nat),
      ∀ c ∈ (olsrInput env ds n mem).2, WellFramed c.packet c.size c.visits := by
  intro h
  have hw := h plainParserEnv usedInbuf [twoByteDatagram] 0 twoByteCall twoByteCall_mem
  rw [olsrInput_visits plainParserEnv [twoByteDatagram] 0 usedInbuf _ twoByteCall_mem] at hw
  exact (parsePacket_framed_iff _ _ _ _).1 hw twoByteCall_shortPacket

/-- The call for the two bytes meets the equivalence, with both sides false. -/
theorem olsrInput_framed_iff_twoByteDatagram :
    ¬ WellFramed twoByteCall.packet twoByteCall.size twoByteCall.visits := by
  rw [olsrInput_framed_iff plainParserEnv usedInbuf [twoByteDatagram] 0 twoByteCall twoByteCall_mem, not_not]
  exact twoByteCall_shortPacket

end Olsrd
