/-
What the HELLO encoders have in common, on link blocks instead of bytes: entries are written to blocks, and when
an entry does not fit, the blocks so far go out as a message of their own. Every entry is sent, once and in order.
-/
import Olsrd.Message.HelloBlocks
import Mathlib.Data.List.ModifyLast

namespace Olsrd.Message

open Olsrd.Topology (Sender)

/-! ## The writer -/

/-- The blocks of the message that is being written, behind the messages `parts`. The message may get as long as
`room`, and as long as `empty` in an emptied output buffer. The next entry begins a block if `fresh` is set. -/
structure BlockWriter where
  st : Sender
  room : Nat
  empty : Nat
  parts : List (List LinkBlock)
  blocks : List LinkBlock
  fresh : Bool

namespace BlockWriter

def size (cnf : Cnf) (a : BlockWriter) : Nat := 12 + cnf.ipsize + (blocksBytes a.blocks).length

/-- Send the blocks, if there are any, and then the packet. -/
def flush (cnf : Cnf) (hd : HelloHead) (a : BlockWriter) : BlockWriter :=
  if a.blocks = [] then { a with st := a.st.netOutput, room := a.empty }
  else
    { st := (putHello a.st hd (a.size cnf) (blocksBytes a.blocks)).netOutput
      room := a.empty
      empty := a.empty
      parts := a.parts ++ [a.blocks]
      blocks := []
      fresh := true }

def add (code : UInt8) (entry : List UInt8) (a : BlockWriter) : BlockWriter :=
  { a with
    blocks := if a.fresh then a.blocks ++ [⟨code, [entry]⟩]
      else a.blocks.modifyLast fun B => { B with entries := B.entries ++ [entry] }
    fresh := false }

/-- The next entry does not fit. -/
def Full (cnf : Cnf) (lq : Bool) (a : BlockWriter) : Prop :=
  a.room < a.size cnf + (entrySize cnf lq + if a.fresh then 4 else 0)

instance (cnf : Cnf) (lq : Bool) (a : BlockWriter) : Decidable (a.Full cnf lq) := inferInstanceAs (Decidable (_ < _))

def write (cnf : Cnf) (lq : Bool) (hd : HelloHead) (code : UInt8) (a : BlockWriter) (entry : List UInt8) :
    BlockWriter :=
  (if a.Full cnf lq then a.flush cnf hd else a).add code entry

/-- The entries of a group are written to blocks of their own. -/
def writeGroup (cnf : Cnf) (lq : Bool) (hd : HelloHead) (a : BlockWriter) (g : UInt8 × List (List UInt8)) :
    BlockWriter :=
  g.2.foldl (write cnf lq hd g.1) { a with fresh := true }

/-! ## Nothing is lost -/

/-- The writer has written the neighbours `ns`, and is in a group with link code `code`. -/
structure Inv (cnf : Cnf) (lq : Bool) (hd : HelloHead) (st₀ : Sender) (code : UInt8) (a : BlockWriter)
    (ns : List HelloNeighbor) : Prop where
  sent : Sent cnf lq hd st₀ a.st a.parts
  left : a.room + a.st.pending ≤ st₀.maxsize
  empty : a.empty ≤ st₀.maxsize
  small : a.room < 65536 ∧ a.empty < 65536
  room : a.size cnf ≤ a.room
  sized : ∀ B ∈ a.blocks, B.Sized cnf lq
  opened : a.fresh = false → ∃ Bs B, a.blocks = Bs ++ [B] ∧ B.linkCode = code
  neighbors : a.parts.flatMap (blocksNeighbors cnf lq) ++ blocksNeighbors cnf lq a.blocks = ns

section

variable {cnf : Cnf} {lq : Bool} {hd : HelloHead} {st₀ : Sender} {code : UInt8} {a : BlockWriter}
  {ns : List HelloNeighbor}

theorem flush_blocks (a : BlockWriter) : (a.flush cnf hd).blocks = [] := by
  rw [flush]
  split
  · assumption
  · rfl

theorem flush_size (a : BlockWriter) : (a.flush cnf hd).size cnf = 12 + cnf.ipsize := by
  rw [size, flush_blocks]
  rfl

theorem flush_pending (a : BlockWriter) : (a.flush cnf hd).st.pending = 0 := by
  rw [flush]
  split <;> rfl

theorem flush_maxsize (a : BlockWriter) : (a.flush cnf hd).st.maxsize = a.st.maxsize := by
  rw [flush]
  split
  · rfl
  · exact pushNumbered_maxsize ..

theorem flush_room (a : BlockWriter) : (a.flush cnf hd).room = a.empty := by
  rw [flush]
  split <;> rfl

theorem flush_empty (a : BlockWriter) : (a.flush cnf hd).empty = a.empty := by
  rw [flush]
  split <;> rfl

theorem Inv.put (horig : hd.originator.length = cnf.ipsize) (h : a.Inv cnf lq hd st₀ code ns) {size : Nat}
    (hsize : size = 12 + cnf.ipsize + (blocksBytes a.blocks).length) :
    Sent cnf lq hd st₀ (putHello a.st hd size (blocksBytes a.blocks)) (a.parts ++ [a.blocks]) := by
  have hroom := h.room
  have hleft := h.left
  have hsmall := h.small
  have hmax := h.sent.maxsize
  rw [BlockWriter.size, ← hsize] at hroom
  exact h.sent.put horig h.sized hsize (by omega) (by omega)

theorem Inv.flush (horig : hd.originator.length = cnf.ipsize)
    (hroom : 12 + cnf.ipsize + (entrySize cnf lq + 4) ≤ a.empty)
    (h : a.Inv cnf lq hd st₀ code ns) : (a.flush cnf hd).Inv cnf lq hd st₀ code ns ∧
    ¬ (a.flush cnf hd).Full cnf lq := by
  have hleft : (a.flush cnf hd).room + (a.flush cnf hd).st.pending ≤ st₀.maxsize := by
    rw [flush_room, flush_pending]
    exact h.empty
  have hsmall : (a.flush cnf hd).room < 65536 ∧ (a.flush cnf hd).empty < 65536 := by
    rw [flush_room, flush_empty]
    exact ⟨h.small.2, h.small.2⟩
  have hsize : (a.flush cnf hd).size cnf ≤ (a.flush cnf hd).room := by
    rw [flush_size, flush_room]
    omega
  constructor
  · by_cases hblocks : a.blocks = []
    · rw [BlockWriter.flush, if_pos hblocks] at hleft hsmall hsize ⊢
      exact ⟨h.sent.output, hleft, h.empty, hsmall, hsize, h.sized, h.opened, h.neighbors⟩
    · rw [BlockWriter.flush, if_neg hblocks] at hleft hsmall hsize ⊢
      refine ⟨(h.put horig rfl).output, hleft, h.empty, hsmall, hsize, by simp, fun hf => (by cases hf), ?_⟩
      rw [List.flatMap_append, List.flatMap_singleton, h.neighbors]
      exact List.append_nil _
  · rw [Full, flush_size, flush_room]
    split <;> omega

theorem length_add_blocks {entry : List UInt8} (h : a.Inv cnf lq hd st₀ code ns) :
    (blocksBytes (a.add code entry).blocks).length =
      (blocksBytes a.blocks).length + (entry.length + if a.fresh then 4 else 0) := by
  by_cases hfresh : a.fresh = true
  · simp only [add, if_pos hfresh, blocksBytes_append, blocksBytes_singleton, List.length_append, length_linkBlock]
    simp [LinkBlock.size]
    omega
  · have hfresh := Bool.eq_false_iff.2 hfresh
    obtain ⟨Bs, B, hblocks, -⟩ := h.opened hfresh
    simp only [add, hfresh, hblocks, Bool.false_eq_true, if_false, List.modifyLast_concat, blocksBytes_append,
      blocksBytes_singleton, List.length_append, length_linkBlock]
    simp [LinkBlock.size]
    omega

theorem Inv.add {entry : List UInt8} (hentry : entry.length = entrySize cnf lq) (h : a.Inv cnf lq hd st₀ code ns)
    (hfits : ¬ a.Full cnf lq) :
    (a.add code entry).Inv cnf lq hd st₀ code (ns ++ [entryNeighbor cnf lq code entry]) := by
  have hlen := @length_add_blocks _ _ _ _ _ _ _ entry h
  have hroom : (a.add code entry).size cnf ≤ (a.add code entry).room := by
    rw [Full, size] at hfits
    rw [size, hlen, hentry]
    simp only [BlockWriter.add]
    omega
  by_cases hfresh : a.fresh = true
  · have hblocks : (a.add code entry).blocks = a.blocks ++ [⟨code, [entry]⟩] := by rw [BlockWriter.add, if_pos hfresh]
    refine ⟨h.sent, h.left, h.empty, h.small, hroom, fun B hB => ?_, fun _ => ⟨_, _, hblocks, rfl⟩, ?_⟩
    · rw [hblocks] at hB
      obtain hB | hB := List.mem_append.1 hB
      · exact h.sized B hB
      · rw [List.mem_singleton.1 hB]
        intro e he
        rw [List.mem_singleton.1 he, hentry]
    · rw [hblocks, blocksNeighbors_append, blocksNeighbors_singleton, ← List.append_assoc]
      exact congrArg (· ++ _) h.neighbors
  · have hfresh := Bool.eq_false_iff.2 hfresh
    obtain ⟨Bs, B, hold, hcode⟩ := h.opened hfresh
    have hblocks : (a.add code entry).blocks = Bs ++ [{ B with entries := B.entries ++ [entry] }] := by
      rw [BlockWriter.add, hfresh, hold]
      exact List.modifyLast_concat ..
    have hsized := h.sized
    have hneigh := h.neighbors
    rw [hold] at hsized hneigh
    refine ⟨h.sent, h.left, h.empty, h.small, hroom, fun B₁ hB₁ => ?_, fun _ => ⟨_, _, hblocks, hcode⟩, ?_⟩
    · rw [hblocks] at hB₁
      obtain hB₁ | hB₁ := List.mem_append.1 hB₁
      · exact hsized B₁ (List.mem_append_left _ hB₁)
      · rw [List.mem_singleton.1 hB₁]
        intro e he
        obtain he | he := List.mem_append.1 he
        · exact hsized B (by simp) e he
        · rw [List.mem_singleton.1 he, hentry]
    · rw [hblocks, ← hneigh, blocksNeighbors_append, blocksNeighbors_append, blocksNeighbors_singleton, ← hcode]
      simp [blocksNeighbors, LinkBlock.neighbors, BlockWriter.add]

/-- Only a message that is full needs room for the entry in an emptied output buffer. -/
theorem Inv.write (horig : hd.originator.length = cnf.ipsize)
    (hroom : a.Full cnf lq → 12 + cnf.ipsize + (entrySize cnf lq + 4) ≤ a.empty) {entry : List UInt8}
    (hentry : entry.length = entrySize cnf lq) (h : a.Inv cnf lq hd st₀ code ns) :
    (a.write cnf lq hd code entry).Inv cnf lq hd st₀ code (ns ++ [entryNeighbor cnf lq code entry]) := by
  unfold BlockWriter.write
  by_cases hfull : a.Full cnf lq
  · rw [if_pos hfull]
    obtain ⟨hflush, hfits⟩ := h.flush horig (hroom hfull)
    exact hflush.add hentry hfits
  · rw [if_neg hfull]
    exact h.add hentry hfull

theorem write_empty (a : BlockWriter) (entry : List UInt8) : (a.write cnf lq hd code entry).empty = a.empty := by
  unfold BlockWriter.write
  split
  · exact flush_empty a
  · rfl

theorem writes_empty : ∀ (entries : List (List UInt8)) (a : BlockWriter),
    (entries.foldl (BlockWriter.write cnf lq hd code) a).empty = a.empty
  | [], _ => rfl
  | e :: entries, a => (writes_empty entries _).trans (write_empty a e)

/-- What a receiver finds of a group. -/
def groupNeighbors (cnf : Cnf) (lq : Bool) (g : UInt8 × List (List UInt8)) : List HelloNeighbor :=
  g.2.map (entryNeighbor cnf lq g.1)

theorem Inv.writes (horig : hd.originator.length = cnf.ipsize) : ∀ (entries : List (List UInt8)) {a : BlockWriter}
    {ns : List HelloNeighbor}, 12 + cnf.ipsize + (entrySize cnf lq + 4) ≤ a.empty →
    (∀ e ∈ entries, e.length = entrySize cnf lq) → a.Inv cnf lq hd st₀ code ns →
    (entries.foldl (BlockWriter.write cnf lq hd code) a).Inv cnf lq hd st₀ code
      (ns ++ entries.map (entryNeighbor cnf lq code))
  | [], a, ns, _, _, h => by simpa using h
  | e :: entries, a, ns, hroom, hentries, h => by
    have hnext := Inv.writes horig entries (hroom.trans_eq (a.write_empty e).symm)
      (fun e' he' => hentries e' (List.mem_cons_of_mem _ he'))
      (h.write horig (fun _ => hroom) (hentries e (List.mem_cons_self ..)))
    rwa [List.append_assoc] at hnext

theorem Inv.fresh (h : a.Inv cnf lq hd st₀ code ns) (code' : UInt8) :
    { a with fresh := true }.Inv cnf lq hd st₀ code' ns :=
  ⟨h.sent, h.left, h.empty, h.small, h.room, h.sized, fun hf => (Bool.true_eq_false.mp hf).elim, h.neighbors⟩

/-- Whatever the groups, everything in them is written. -/
theorem Inv.writeGroups (horig : hd.originator.length = cnf.ipsize) : ∀ (groups : List (UInt8 × List (List UInt8)))
    {a : BlockWriter} {code : UInt8} {ns : List HelloNeighbor}, 12 + cnf.ipsize + (entrySize cnf lq + 4) ≤ a.empty →
    (∀ g ∈ groups, ∀ e ∈ g.2, e.length = entrySize cnf lq) →
    a.Inv cnf lq hd st₀ code ns → ∃ code', (groups.foldl (BlockWriter.writeGroup cnf lq hd) a).Inv cnf lq hd st₀ code'
      (ns ++ groups.flatMap (groupNeighbors cnf lq))
  | [], a, code, ns, _, _, h => ⟨code, by simpa using h⟩
  | g :: groups, a, code, ns, hroom, hgroups, h => by
    have hempty : 12 + cnf.ipsize + (entrySize cnf lq + 4) ≤ { a with fresh := true }.empty := hroom
    have hg := (h.fresh g.1).writes horig g.2 hempty (hgroups g (List.mem_cons_self ..))
    obtain ⟨code', hrest⟩ := Inv.writeGroups horig groups
      (hempty.trans_eq (writes_empty g.2 _).symm)
      (fun g' hg' => hgroups g' (List.mem_cons_of_mem _ hg')) hg
    refine ⟨code', ?_⟩
    rwa [List.flatMap_cons, ← List.append_assoc]

/-- The message that the writer has begun is the last one. -/
theorem Inv.roundTrip (h : a.Inv cnf lq hd st₀ code ns) (pair : PairReads) (horig : hd.originator.length = cnf.ipsize)
    (htype : hd.type.toNat = if lq then lqHelloMessage else helloMessage) {size : Nat}
    (hsize : size = 12 + cnf.ipsize + (blocksBytes a.blocks).length) {expected : List HelloNeighbor}
    (hexpected : ns.Perm expected) :
    RoundTrip cnf pair hd st₀ (putHello a.st hd size (blocksBytes a.blocks)) expected := by
  refine (h.put horig hsize).roundTrip pair horig htype ?_
  rwa [List.flatMap_append, List.flatMap_singleton, h.neighbors]

end

end BlockWriter

end Olsrd.Message
