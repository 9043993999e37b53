/-
What a serializer leaves behind: messages that are numbered one after the other and pushed to the output buffer,
where each of them has to fit. The parts they are made of stay abstract here.
-/
import Olsrd.Topology.TcSend

namespace Olsrd.Message

open Bytes
open Olsrd.Topology (Holds Sender remainsize16)

/-! ## Buffers -/

/-- The bytes of `msg_buffer`, `(MAXMESSAGESIZE - OLSR_HEADERSIZE) / sizeof(uint32_t) + 1` words. -/
def msgBufferSize : Nat := ((1500 - 4) / 4 + 1) * 4

/-- The pending packet is sent if there is less left in the output buffer than `needsize`, a `uint16_t`. -/
def sendPending (needsize : Nat) (st : Sender) : Sender :=
  if needsize % 65536 > remainsize16 st then st.netOutput else st

theorem remainsize16_lt (st : Sender) : remainsize16 st < 65536 := by
  rw [remainsize16]
  omega

/-- However large the output buffer is, there is as much left in it as the 16 bits of `remainsize` tell. -/
theorem remainsize16_add_pending_le {st : Sender} (hpending : st.pending ≤ st.maxsize) :
    remainsize16 st + st.pending ≤ st.maxsize := by
  rw [remainsize16, Sender.netOutbufferBytesLeft]
  omega

theorem remainsize16_netOutput (st : Sender) : remainsize16 st.netOutput = st.maxsize % 65536 := by
  rw [remainsize16, Sender.netOutbufferBytesLeft, Sender.netOutput]
  dsimp only
  omega

theorem sendPending_maxsize (needsize : Nat) (st : Sender) : (sendPending needsize st).maxsize = st.maxsize := by
  unfold sendPending
  split <;> rfl

section

variable {P : Type} (bytes : UInt16 → P → List UInt8)

/-! ## Numbering -/

/-- The messages of the parts, each with a number of its own. -/
def numbered : UInt16 → List P → List (List UInt8)
  | _, [] => []
  | seqno, p :: parts => bytes seqno p :: numbered (seqno + 1) parts

theorem numbered_append : ∀ (seqno : UInt16) (parts parts' : List P), numbered bytes seqno (parts ++ parts') =
    numbered bytes seqno parts ++ numbered bytes (seqno + UInt16.ofNat parts.length) parts'
  | seqno, [], parts' => by simp [numbered]
  | seqno, p :: parts, parts' => by
    have hseqno : seqno + 1 + UInt16.ofNat parts.length = seqno + UInt16.ofNat (parts.length + 1) := by
      rw [UInt16.ofNat_add, UInt16.add_assoc, UInt16.add_comm 1]
      rfl
    rw [List.cons_append, numbered, numbered, numbered_append, hseqno]
    rfl

theorem length_numbered : ∀ (seqno : UInt16) (parts : List P), (numbered bytes seqno parts).length = parts.length
  | _, [] => rfl
  | seqno, _ :: parts => congrArg (· + 1) (length_numbered (seqno + 1) parts)

variable {bytes}

theorem mem_numbered {msg : List UInt8} : ∀ {seqno : UInt16} {parts : List P}, msg ∈ numbered bytes seqno parts →
    ∃ seqno' p, p ∈ parts ∧ msg = bytes seqno' p
  | seqno, p :: parts, h => by
    obtain rfl | h := List.mem_cons.1 h
    · exact ⟨seqno, p, List.mem_cons_self .., rfl⟩
    · obtain ⟨seqno', p', hp', hmsg⟩ := mem_numbered h
      exact ⟨seqno', p', List.mem_cons_of_mem _ hp', hmsg⟩

/-! ## Pushing -/

/-- `get_msg_seqno` for the message that is pushed. -/
def pushNumbered (st : Sender) (message : UInt16 → List UInt8) : Sender :=
  { st with messageSeqno := st.messageSeqno + 1 }.netOutbufferPush (message st.messageSeqno)

theorem pushNumbered_maxsize (st : Sender) (message : UInt16 → List UInt8) :
    (pushNumbered st message).maxsize = st.maxsize := by
  rw [pushNumbered, Sender.netOutbufferPush]
  split <;> rfl

variable (bytes) in
/-- From `st` on the messages of the parts have been pushed, and all of them fitted. -/
structure Pushed (st st' : Sender) (parts : List P) : Prop where
  sent : st'.sent = st.sent ++ numbered bytes st.messageSeqno parts
  seqno : st'.messageSeqno = st.messageSeqno + UInt16.ofNat parts.length
  maxsize : st'.maxsize = st.maxsize
  pending : st'.pending ≤ st'.maxsize
  fits : ∀ p ∈ parts, ∀ seqno, (bytes seqno p).length ≤ st.maxsize

theorem Pushed.refl {st : Sender} (hpending : st.pending ≤ st.maxsize) : Pushed bytes st st [] :=
  ⟨(List.append_nil _).symm, (UInt16.add_zero _).symm, rfl, hpending, fun _ hp => (List.not_mem_nil hp).elim⟩

variable {st st' : Sender} {parts : List P}

theorem Pushed.output (h : Pushed bytes st st' parts) : Pushed bytes st st'.netOutput parts :=
  ⟨h.sent, h.seqno, h.maxsize, Nat.zero_le _, h.fits⟩

theorem Pushed.sendPending (h : Pushed bytes st st' parts) (needsize : Nat) :
    Pushed bytes st (sendPending needsize st') parts := by
  unfold Message.sendPending
  split
  · exact h.output
  · exact h

/-- A message that fits is pushed, whatever its number. -/
theorem Pushed.put (h : Pushed bytes st st' parts) {message : UInt16 → List UInt8} {p : P} {size : Nat}
    (hmessage : ∀ seqno, message seqno = bytes seqno p) (hsize : ∀ seqno, (bytes seqno p).length = size)
    (hfits : st'.pending + size ≤ st'.maxsize) :
    Pushed bytes st (pushNumbered st' message) (parts ++ [p]) ∧
      (pushNumbered st' message).pending = st'.pending + size := by
  have hput : pushNumbered st' message = { st' with
      pending := st'.pending + size, messageSeqno := st'.messageSeqno + 1,
      sent := st'.sent ++ [bytes st'.messageSeqno p] } := by
    unfold pushNumbered Sender.netOutbufferPush
    rw [hmessage, hsize, if_neg (by simpa using hfits)]
  rw [hput]
  refine ⟨⟨?_, ?_, h.maxsize, hfits, fun p' hp' seqno => ?_⟩, rfl⟩
  · dsimp only
    rw [h.sent, numbered_append, ← h.seqno, List.append_assoc]
    rfl
  · dsimp only
    rw [h.seqno, List.length_append, UInt16.ofNat_add, UInt16.add_assoc]
    rfl
  · obtain hp' | hp' := List.mem_append.1 hp'
    · exact h.fits p' hp' seqno
    · rw [List.mem_singleton.1 hp', hsize, ← h.maxsize]
      omega

/-! ## What goes out -/

def newMessages (st st' : Sender) : List (List UInt8) := st'.sent.drop st.sent.length

/-- The messages pushed between `st` and `st'` fit the buffer, and none of them was dropped. -/
structure AllFit (st st' : Sender) : Prop where
  earlier : st.sent <+: st'.sent
  seqno : st'.messageSeqno = st.messageSeqno + UInt16.ofNat (newMessages st st').length
  fits : ∀ msg ∈ newMessages st st', msg.length ≤ st.maxsize

theorem Pushed.newMessages (h : Pushed bytes st st' parts) :
    newMessages st st' = numbered bytes st.messageSeqno parts := by
  rw [Message.newMessages, h.sent, List.drop_left]

theorem Pushed.allFit (h : Pushed bytes st st' parts) : AllFit st st' := by
  refine ⟨⟨_, h.sent.symm⟩, ?_, fun msg hmsg => ?_⟩
  · rw [h.newMessages, length_numbered, h.seqno]
  · rw [h.newMessages] at hmsg
    obtain ⟨seqno, p, hp, rfl⟩ := mem_numbered hmsg
    exact h.fits p hp seqno

end

/-! ## A node for examples -/

def ipv4Cnf : Cnf := { ipVersion := .inet, mainAddr := [10, 0, 0, 1], lqLevel := 2, denyEntries := denyIpv4Defaults }

end Olsrd.Message
