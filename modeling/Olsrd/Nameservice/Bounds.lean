/-
Which NAME messages make the decoder read outside of them: the records that begin before `end_pos`, which lies behind
the end of the message, and the strings of their names.
-/
import Olsrd.Nameservice.Message

namespace Olsrd.Nameservice

open Bytes

variable {v : IpVersion} {checks : Checks} {platform : Platform} {m : Mem}

/-! ## Records -/

/-- The positions of the records that the loop of `update_name_entry` looks at. -/
def recordPositions (m : Mem) (endPos : Nat) : Nat → Nat → List Nat
  | 0, _ => []
  | i + 1, pos => if pos < endPos then pos :: recordPositions m endPos i (pos + recordStride m pos) else []

/-- The loop ends after at most as many rounds as the message announces records. -/
theorem length_recordPositions_le (endPos : Nat) : ∀ i pos, (recordPositions m endPos i pos).length ≤ i
  | 0, _ => Nat.le_refl 0
  | i + 1, pos => by
    unfold recordPositions
    split
    · exact Nat.succ_le_succ (length_recordPositions_le endPos i _)
    · exact Nat.zero_le _

/-- The string of the record is looked at. -/
def StringRead (m : Mem) (pos : Nat) : Prop :=
  ∃ type, recordType m pos = some type ∧ ¬ (type = .forwarder ∧ recordLen m pos > maxName)

/-- The record begins in the message, and a string that is looked at ends in it. -/
structure RecordClosed (m : Mem) (size pos : Nat) : Prop where
  fields : pos + 4 ≤ size
  string : StringRead m pos → m.TerminatedBefore size (pos + sizeofName)

theorem decapAccesses_inside (v : IpVersion) (checks : Checks) (size : Nat) {pos : Nat} {type : NameType}
    (names : List NameEntry) (htype : recordType m pos = some type) :
    (∀ a ∈ decapAccesses v checks m pos type names, a.Inside m size) ↔
      (StringRead m pos → m.TerminatedBefore size (pos + sizeofName)) := by
  have hread : StringRead m pos ↔ ¬ (type = .forwarder ∧ recordLen m pos > maxName) := by
    constructor
    · rintro ⟨type', htype', hread⟩
      obtain rfl : type' = type := Option.some.inj (htype'.symm.trans htype)
      exact hread
    · exact fun h => ⟨type, htype, h⟩
  rw [hread]
  unfold decapAccesses
  by_cases hlong : type = .forwarder ∧ recordLen m pos > maxName
  · rw [if_pos hlong, List.nil_append]
    -- a name that is too long is not valid, either
    have hinvalid : recordValid checks m pos type = false := by
      simp [recordValid, Nat.not_le.2 hlong.2]
    rw [hinvalid]
    exact iff_of_true (fun a ha => by cases ha) fun h => absurd hlong h
  · rw [if_neg hlong]
    constructor
    · intro h _
      exact h (.string (pos + sizeofName)) (by simp)
    · intro h a ha
      obtain ⟨n, hn, hzero⟩ := h hlong
      rcases List.mem_append.1 ha with ha | ha
      · obtain rfl := List.mem_singleton.1 ha
        exact ⟨n, hn, hzero⟩
      · -- the address lies before the name
        have haddr : a = .bytes (pos + 4) 16 := by
          split at ha
          · split at ha
            · cases ha
            · exact List.mem_singleton.1 ha
          · cases ha
        subst haddr
        show pos + 4 + 16 ≤ size
        simp only [sizeofName] at hn
        omega

/-- The accesses of the loop stay inside exactly if all its records are closed. -/
theorem updateLoop_inside_iff (size endPos : Nat) : ∀ (i pos : Nat) (lists : NameLists),
    (∀ a ∈ (updateLoop v checks m endPos i pos lists).2, a.Inside m size) ↔
      ∀ p ∈ recordPositions m endPos i pos, RecordClosed m size p
  | 0, _, _ => by simp [updateLoop, recordPositions]
  | i + 1, pos, lists => by
    unfold updateLoop recordPositions
    by_cases hpos : pos < endPos
    · rw [if_pos hpos, if_pos hpos, List.forall_mem_cons]
      cases htype : recordType m pos with
      | some type =>
        have hdecap := decapAccesses_inside v checks size (lists type) htype
        have hrest := updateLoop_inside_iff size endPos i (pos + recordStride m pos)
          (Function.update lists type (decapNamemsg v checks m pos type (lists type)))
        simp only [List.cons_append, List.forall_mem_cons, List.forall_mem_append]
        rw [hdecap, hrest]
        constructor
        · rintro ⟨hfields, hstring, h⟩
          exact ⟨⟨hfields, hstring⟩, h⟩
        · rintro ⟨⟨hfields, hstring⟩, h⟩
          exact ⟨hfields, hstring, h⟩
      | none =>
        have hrest := updateLoop_inside_iff size endPos i (pos + recordStride m pos) lists
        simp only [List.forall_mem_cons]
        rw [hrest]
        constructor
        · rintro ⟨hfields, h⟩
          refine ⟨⟨hfields, ?_⟩, h⟩
          rintro ⟨type, htype', -⟩
          rw [htype] at htype'
          nomatch htype'
        · rintro ⟨⟨hfields, -⟩, h⟩
          exact ⟨hfields, h⟩
    · rw [if_neg hpos, if_neg hpos]
      simp

/-! ## Messages -/

/-- The positions of the records of a message. -/
def messageRecords (v : IpVersion) (platform : Platform) (m : Mem) (msgSize : Nat) : List Nat :=
  recordPositions m (endPos v platform.sizeofPtr msgSize) (m.u16 (headerSize v + 2)) (headerSize v + sizeofNamemsg)

/-- The two fields before the records lie in the message, and the records are closed. Of a message of another version
only the first field is read. -/
def MessageClosed (v : IpVersion) (platform : Platform) (m : Mem) (msgSize : Nat) : Prop :=
  if m.u16 (headerSize v) = 1 then
    headerSize v + sizeofNamemsg ≤ msgSize ∧ ∀ pos ∈ messageRecords v platform m msgSize, RecordClosed m msgSize pos
  else headerSize v + 2 ≤ msgSize

/-- The decoder ends, and all it reads lies in the message. -/
structure DecodesInside (v : IpVersion) (checks : Checks) (platform : Platform) (m : Mem) (msgSize : Nat)
    (lists : NameLists) : Prop where
  rounds : (messageRecords v platform m msgSize).length ≤ m.u16 (headerSize v + 2)
  inside : ∀ a ∈ (updateNameEntry v checks platform m msgSize lists).2, a.Inside m msgSize

theorem updateNameEntry_inside_iff (checks : Checks) (lists : NameLists) (msgSize : Nat) :
    DecodesInside v checks platform m msgSize lists ↔ MessageClosed v platform m msgSize := by
  have hinside : (∀ a ∈ (updateNameEntry v checks platform m msgSize lists).2, a.Inside m msgSize) ↔
      MessageClosed v platform m msgSize := by
    unfold updateNameEntry MessageClosed
    by_cases hversion : m.u16 (headerSize v) = 1
    · rw [if_pos hversion, if_neg (not_not.2 hversion)]
      simp only [List.forall_mem_cons]
      rw [updateLoop_inside_iff, messageRecords]
      simp only [Access.Inside, sizeofNamemsg]
      constructor
      · rintro ⟨-, hcount, h⟩
        exact ⟨by omega, h⟩
      · rintro ⟨hcount, h⟩
        exact ⟨by omega, by omega, h⟩
    · rw [if_neg hversion, if_pos hversion]
      simp [Access.Inside]
  exact ⟨fun h => hinside.1 h.inside, fun h => ⟨length_recordPositions_le _ _ _, hinside.2 h⟩⟩

/-! ### A name that fills its message -/

/-- One host name of eight letters, and no zero behind the message of 44 bytes. -/
def unterminatedMessage : Mem :=
  Mem.write (fun _ => 1) 0 (
    [130, 0x86, 0, 44, 10, 0, 0, 1, 255, 0, 0, 1] ++ [0, 1, 0, 1] ++ [0, 0, 0, 8] ++
    [10, 0, 0, 1] ++ List.replicate 12 0 ++ List.replicate 8 0x61)

theorem unterminatedMessage_not_inside :
    ¬ DecodesInside .inet anyChecks ⟨true, 8⟩ unterminatedMessage 44 fun _ => [] := by
  intro h
  have hstring : Access.string 36 ∈
      (updateNameEntry .inet anyChecks ⟨true, 8⟩ unterminatedMessage 44 fun _ => []).2 := by
    decide +kernel
  obtain ⟨n, hn, hzero⟩ := h.inside _ hstring
  have hname : ∀ n < 8, unterminatedMessage (36 + n) ≠ 0 := by decide
  exact hname n (by omega) hzero

end Olsrd.Nameservice
