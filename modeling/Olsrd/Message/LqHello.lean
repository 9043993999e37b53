/-
`serialize_lq_hello` of `lq_packet.c`: one pass over the neighbours for every neighbour type and link type, with
the sizes of the link blocks set afterwards and a new message whenever the output buffer is too small.
-/
import Olsrd.Lib.Run
import Olsrd.Message.BlockWriter

namespace Olsrd.Message

open Bytes
open Olsrd.Topology (Holds Sender)

/-! ## The serializer -/

/-- `struct lq_hello_neighbor`; the link quality as the plugin serializes it. -/
structure LqHelloNeighbor where
  addr : IpAddr
  linkType : LinkType
  neighType : NeighType
  linkquality : List UInt8
  deriving DecidableEq, Repr

/-- `LINK_ORDER` -/
def linkOrder : List LinkType := [.sym, .unspec, .asym, .lost]

/-- The neighbour types and link types in the order of the two outer loops. -/
def lqHelloGroups : List (NeighType × LinkType) :=
  [NeighType.notNeigh, .symNeigh, .mprNeigh].flatMap fun i => linkOrder.map fun j => (i, j)

def LqHelloNeighbor.isIn (neigh : LqHelloNeighbor) (g : NeighType × LinkType) : Bool :=
  neigh.neighType = g.1 ∧ neigh.linkType = g.2

/-- The loop state: `buff` is the message behind its headers and `size` its length, `infoHead` the offset of the
current info header, `none` for a null pointer. -/
structure LqHelloBuild where
  st : Sender
  rem : Int
  buff : List UInt8
  infoHead : Option Nat
  isFirst : Bool

/-- `common_size() + sizeof(struct lq_hello_header)` -/
def lqHelloOff (cnf : Cnf) : Nat := 8 + cnf.ipsize + 4

def lqHelloRem (cnf : Cnf) (st : Sender) : Int := st.netOutbufferBytesLeft - (lqHelloOff cnf : Nat)

/-- The size of the whole LQ_HELLO, which is computed if there are bytes in the output buffer. -/
def lqHelloExpectedSize (cnf : Cnf) (neighs : List LqHelloNeighbor) : Nat :=
  neighs.length * (cnf.ipsize + 4) + (lqHelloGroups.countP fun g => neighs.any (·.isIn g)) * 4

/-- Finalize the info header. There is no result when it is a null pointer. -/
def LqHelloBuild.finalizeInfo (w : LqHelloBuild) : Option LqHelloBuild :=
  w.infoHead.map fun off => { w with buff := setU16 w.buff (off + 2) (w.buff.length - off) }

/-- Output what the buffer holds and go on with an empty one. -/
def LqHelloBuild.flush (cnf : Cnf) (hd : HelloHead) (w : LqHelloBuild) : Option LqHelloBuild :=
  w.finalizeInfo.map fun w =>
    let st := (putHello w.st hd (w.buff.length + lqHelloOff cnf) w.buff).netOutput
    { w with st, buff := [], rem := lqHelloRem cnf st, isFirst := true }

/-- Add a neighbour, behind a new info header if it is the first of its block. -/
def LqHelloBuild.add (g : NeighType × LinkType) (w : LqHelloBuild) (neigh : LqHelloNeighbor) : LqHelloBuild :=
  let w := if w.isFirst
    then { w with infoHead := some w.buff.length, buff := w.buff ++ [createLinkCode g.1 g.2, 0, 0, 0] } else w
  { w with buff := w.buff ++ (neigh.addr ++ neigh.linkquality), isFirst := false }

/-- One round of the innermost loop. -/
def lqHelloStep (cnf : Cnf) (hd : HelloHead) (g : NeighType × LinkType) (w : LqHelloBuild) (neigh : LqHelloNeighbor) :
    Option LqHelloBuild :=
  if neigh.isIn g then
    let req := cnf.ipsize + 4 + if w.isFirst then 4 else 0
    (if ((w.buff.length + req : Nat) : Int) > w.rem then w.flush cnf hd else some w).map (·.add g neigh)
  else some w

/-- The neighbours of one neighbour type and link type. -/
def lqHelloGroup (cnf : Cnf) (hd : HelloHead) (neighs : List LqHelloNeighbor) (w : LqHelloBuild)
    (g : NeighType × LinkType) : Option LqHelloBuild :=
  (Run.forEach (lqHelloStep cnf hd g) neighs { w with isFirst := true }).bind fun w =>
    if w.isFirst then some w else w.finalizeInfo

/-- The output buffer is flushed if the whole LQ_HELLO does not fit behind what is in it. -/
def lqHelloStart (cnf : Cnf) (st : Sender) (neighs : List LqHelloNeighbor) : Sender :=
  let expectedSize := if 0 < st.pending then lqHelloExpectedSize cnf neighs else 0
  if lqHelloRem cnf st < expectedSize then st.netOutput else st

def serializeLqHello (cnf : Cnf) (hd : HelloHead) (st : Sender) (neighs : List LqHelloNeighbor) : Option Sender :=
  let st := lqHelloStart cnf st neighs
  (Run.forEach (lqHelloGroup cnf hd neighs) lqHelloGroups ⟨st, lqHelloRem cnf st, [], none, true⟩).map fun w =>
    putHello w.st hd (w.buff.length + lqHelloOff cnf) w.buff

/-! ## The serializer as a block writer -/

/-- What a receiver should make of a neighbour. -/
def LqHelloNeighbor.received (neigh : LqHelloNeighbor) : HelloNeighbor where
  address := neigh.addr
  link := neigh.linkType.code
  status := neigh.neighType.code
  linkquality := some neigh.linkquality

def LqHelloNeighbor.Sized (cnf : Cnf) (neigh : LqHelloNeighbor) : Prop :=
  neigh.addr.length = cnf.ipsize ∧ neigh.linkquality.length = 4

instance (cnf : Cnf) (neigh : LqHelloNeighbor) : Decidable (neigh.Sized cnf) := inferInstanceAs (Decidable (_ ∧ _))

def LqHelloNeighbor.entry (neigh : LqHelloNeighbor) : List UInt8 := neigh.addr ++ neigh.linkquality

/-- What is written for a neighbour type and a link type. -/
def lqHelloEntries (neighs : List LqHelloNeighbor) (g : NeighType × LinkType) : UInt8 × List (List UInt8) :=
  (createLinkCode g.1 g.2, (neighs.filter (·.isIn g)).map LqHelloNeighbor.entry)

/-- The buffer holds the blocks; the info header is that of the last one, which is closed if a new one is next. -/
inductive InfoHead (buff : List UInt8) (infoHead : Option Nat) (fresh : Bool) : List LinkBlock → Prop
  | empty : buff = [] → fresh = true → InfoHead buff infoHead fresh []
  | last {off : Nat} {Bs : List LinkBlock} {B : LinkBlock} : infoHead = some off → OpenAt buff off Bs B →
      (fresh = true → buff = blocksBytes (Bs ++ [B])) → InfoHead buff infoHead fresh (Bs ++ [B])

section

variable {buff : List UInt8} {infoHead : Option Nat} {fresh : Bool} {Bs : List LinkBlock}

theorem InfoHead.length (h : InfoHead buff infoHead fresh Bs) : buff.length = (blocksBytes Bs).length := by
  cases h with
  | empty hbuff _ => rw [hbuff]; rfl
  | last _ hopen _ =>
    rw [hopen.length, hopen.off_eq, blocksBytes_append, blocksBytes_singleton, List.length_append, length_linkBlock]

theorem InfoHead.fresh_of_nil (h : InfoHead buff infoHead fresh Bs) (hBs : Bs = []) : fresh = true := by
  cases h with
  | empty _ hfresh => exact hfresh
  | last => exact absurd hBs (List.append_ne_nil_of_right_ne_nil _ (List.cons_ne_nil _ _))

theorem InfoHead.closed (h : InfoHead buff infoHead fresh Bs) (hfresh : fresh = true) : buff = blocksBytes Bs := by
  cases h with
  | empty hbuff _ => exact hbuff
  | last _ _ hclosed => exact hclosed hfresh

/-- Setting its size closes the last block. -/
theorem InfoHead.close (h : InfoHead buff infoHead fresh Bs) (hne : Bs ≠ []) : ∃ off, infoHead = some off ∧
    setU16 buff (off + 2) (buff.length - off) = blocksBytes Bs ∧ InfoHead (blocksBytes Bs) infoHead fresh Bs := by
  cases h with
  | empty => exact absurd rfl hne
  | last hinfo hopen _ =>
    refine ⟨_, hinfo, by rw [hopen.length, Nat.add_sub_cancel_left, hopen.close], ?_⟩
    rw [hopen.off_eq] at hinfo
    exact .last hinfo (openAt_closed _ _) (fun _ => rfl)

theorem InfoHead.reopen (h : InfoHead buff infoHead fresh Bs) (hclosed : buff = blocksBytes Bs) :
    InfoHead buff infoHead true Bs := by
  cases h with
  | empty hbuff _ => exact .empty hbuff rfl
  | last hinfo hopen _ => exact .last hinfo hopen (fun _ => hclosed)

theorem InfoHead.begin (h : InfoHead buff infoHead fresh Bs) (hfresh : fresh = true) (code : UInt8)
    (entry : List UInt8) :
    InfoHead (buff ++ [code, 0, 0, 0] ++ entry) (some buff.length) false (Bs ++ [⟨code, [entry]⟩]) := by
  rw [h.closed hfresh]
  exact .last rfl ((openAt_new Bs code).add entry) (fun hf => (by cases hf))

theorem InfoHead.append (h : InfoHead buff infoHead fresh Bs) (hfresh : fresh = false) (entry : List UInt8) :
    InfoHead (buff ++ entry) infoHead false (Bs.modifyLast fun B => { B with entries := B.entries ++ [entry] }) := by
  cases h with
  | empty _ htrue => exact absurd (htrue.symm.trans hfresh) (by decide)
  | last hinfo hopen _ =>
    rw [List.modifyLast_concat]
    exact .last hinfo (hopen.add entry) (fun hf => (by cases hf))

end

/-- The loop state does what the block writer does. The first entry of all fits, so that no null pointer is used. -/
structure LqHelloBuild.Sim (cnf : Cnf) (neighs : List LqHelloNeighbor) (w : LqHelloBuild) (a : BlockWriter) : Prop where
  st : w.st = a.st
  rem : w.rem = lqHelloRem cnf a.st
  room : (a.room : Int) = a.st.netOutbufferBytesLeft
  empty : a.empty = a.st.maxsize
  first : w.isFirst = a.fresh
  layout : InfoHead w.buff w.infoHead a.fresh a.blocks
  firstFits : (∃ n ∈ neighs, n.linkType ≠ .hide) → a.blocks = [] → ¬ a.Full cnf true

section

variable {cnf : Cnf} {hd : HelloHead} {st₀ : Sender} {neighs : List LqHelloNeighbor} {code : UInt8}
  {w : LqHelloBuild} {a : BlockWriter} {ns : List HelloNeighbor}

theorem LqHelloBuild.Sim.full_iff (h : w.Sim cnf neighs a) :
    ((w.buff.length + (cnf.ipsize + 4 + if w.isFirst then 4 else 0) : Nat) : Int) > w.rem ↔ a.Full cnf true := by
  rw [h.rem, h.first, h.layout.length, lqHelloRem, ← h.room, lqHelloOff, BlockWriter.Full, BlockWriter.size, entrySize,
    if_pos rfl]
  omega

/-- Finalizing the info header closes the last block. -/
theorem LqHelloBuild.Sim.finalizeInfo (h : w.Sim cnf neighs a) (hne : a.blocks ≠ []) :
    w.finalizeInfo = some { w with buff := blocksBytes a.blocks } ∧
      { w with buff := blocksBytes a.blocks }.Sim cnf neighs a := by
  obtain ⟨off, hinfo, hset, hlayout⟩ := h.layout.close hne
  refine ⟨?_, h.st, h.rem, h.room, h.empty, h.first, hlayout, h.firstFits⟩
  rw [LqHelloBuild.finalizeInfo, hinfo, ← hset]
  rfl

theorem LqHelloBuild.Sim.flush (h : w.Sim cnf neighs a) (hne : a.blocks ≠ [])
    (hfits : ¬ (a.flush cnf hd).Full cnf true) :
    ∃ w', w.flush cnf hd = some w' ∧ w'.Sim cnf neighs (a.flush cnf hd) := by
  obtain ⟨hfin, -⟩ := h.finalizeInfo hne
  have hst : (putHello w.st hd ((blocksBytes a.blocks).length + lqHelloOff cnf) (blocksBytes a.blocks)).netOutput =
      (a.flush cnf hd).st := by
    rw [BlockWriter.flush, if_neg hne, h.st, BlockWriter.size, lqHelloOff]
    congr 2
    omega
  have hblocks : (a.flush cnf hd).blocks = [] := by rw [BlockWriter.flush, if_neg hne]
  have hfresh : (a.flush cnf hd).fresh = true := by rw [BlockWriter.flush, if_neg hne]
  refine ⟨_, by rw [LqHelloBuild.flush, hfin]; rfl, hst, congrArg (lqHelloRem cnf) hst, ?_, ?_, hfresh.symm, ?_,
    fun _ _ => hfits⟩
  · rw [BlockWriter.flush_room, h.empty, Sender.netOutbufferBytesLeft, BlockWriter.flush_maxsize,
      BlockWriter.flush_pending]
    omega
  · rw [BlockWriter.flush_empty, h.empty, BlockWriter.flush_maxsize]
  · rw [hblocks]
    exact .empty rfl hfresh

theorem LqHelloBuild.Sim.add (h : w.Sim cnf neighs a) (g : NeighType × LinkType) (neigh : LqHelloNeighbor) :
    (w.add g neigh).Sim cnf neighs (a.add (createLinkCode g.1 g.2) neigh.entry) := by
  have hlayout : InfoHead (w.add g neigh).buff (w.add g neigh).infoHead false
      (a.add (createLinkCode g.1 g.2) neigh.entry).blocks := by
    by_cases hfresh : a.fresh = true
    · simp only [LqHelloBuild.add, BlockWriter.add, h.first, hfresh, if_true]
      exact h.layout.begin hfresh _ _
    · have hfresh := Bool.eq_false_iff.2 hfresh
      simp only [LqHelloBuild.add, BlockWriter.add, h.first, hfresh, Bool.false_eq_true, if_false]
      exact h.layout.append hfresh _
  have hkeep : (w.add g neigh).st = w.st ∧ (w.add g neigh).rem = w.rem := by
    rw [LqHelloBuild.add]
    split <;> exact ⟨rfl, rfl⟩
  refine ⟨hkeep.1.trans h.st, hkeep.2.trans h.rem, h.room, h.empty, rfl, hlayout, fun _ hnil => ?_⟩
  exact absurd (hlayout.fresh_of_nil hnil) Bool.false_ne_true

theorem LqHelloNeighbor.Sized.entry {neigh : LqHelloNeighbor} (h : neigh.Sized cnf) :
    neigh.entry.length = entrySize cnf true := by
  rw [LqHelloNeighbor.entry, List.length_append, h.1, h.2]
  rfl

theorem lqHelloEntries_sized (hsized : ∀ n ∈ neighs, n.Sized cnf) (g : NeighType × LinkType) :
    ∀ e ∈ (lqHelloEntries neighs g).2, e.length = entrySize cnf true := by
  intro e he
  obtain ⟨n, hn, rfl⟩ := List.mem_map.1 he
  exact (hsized n (List.mem_of_mem_filter hn)).entry

theorem LqHelloBuild.Sim.entryRoom (h : w.Sim cnf neighs a) (hinv : a.Inv cnf true hd st₀ code ns)
    (hroom : 12 + cnf.ipsize + (entrySize cnf true + 4) ≤ st₀.maxsize) :
    12 + cnf.ipsize + (entrySize cnf true + 4) ≤ a.empty := by
  rw [h.empty, hinv.sent.maxsize]
  exact hroom

theorem LqHelloBuild.Sim.step (horig : hd.originator.length = cnf.ipsize)
    (hroom : 12 + cnf.ipsize + (entrySize cnf true + 4) ≤ st₀.maxsize) {g : NeighType × LinkType} (hg : g.2 ≠ .hide)
    {neigh : LqHelloNeighbor} (hmem : neigh ∈ neighs) (hin : neigh.isIn g = true)
    (hinv : a.Inv cnf true hd st₀ (createLinkCode g.1 g.2) ns) (h : w.Sim cnf neighs a) :
    ∃ w', lqHelloStep cnf hd g w neigh = some w' ∧
      w'.Sim cnf neighs (a.write cnf true hd (createLinkCode g.1 g.2) neigh.entry) := by
  have hlink : neigh.linkType ≠ .hide := by
    have hin : neigh.neighType = g.1 ∧ neigh.linkType = g.2 := by simpa [LqHelloNeighbor.isIn] using hin
    rwa [hin.2]
  unfold lqHelloStep BlockWriter.write
  rw [if_pos hin]
  dsimp only
  by_cases hfull : a.Full cnf true
  · have hne : a.blocks ≠ [] := fun hnil => h.firstFits ⟨neigh, hmem, hlink⟩ hnil hfull
    obtain ⟨w', hw', hsim⟩ := h.flush hne (hinv.flush horig (h.entryRoom hinv hroom)).2
    rw [if_pos (h.full_iff.2 hfull), if_pos hfull, hw']
    exact ⟨_, rfl, hsim.add g neigh⟩
  · rw [if_neg (mt h.full_iff.1 hfull), if_neg hfull]
    exact ⟨_, rfl, h.add g neigh⟩

/-- The innermost loop writes the neighbours of the group. -/
theorem LqHelloBuild.Sim.steps (horig : hd.originator.length = cnf.ipsize)
    (hroom : 12 + cnf.ipsize + (entrySize cnf true + 4) ≤ st₀.maxsize) {g : NeighType × LinkType} (hg : g.2 ≠ .hide)
    (hsized : ∀ n ∈ neighs, n.Sized cnf) : ∀ (l : List LqHelloNeighbor), (∀ n ∈ l, n ∈ neighs) →
    ∀ {w : LqHelloBuild} {a : BlockWriter} {ns : List HelloNeighbor},
    a.Inv cnf true hd st₀ (createLinkCode g.1 g.2) ns → w.Sim cnf neighs a →
    ∃ w', Run.forEach (lqHelloStep cnf hd g) l w = some w' ∧ w'.Sim cnf neighs
      ((lqHelloEntries l g).2.foldl (BlockWriter.write cnf true hd (createLinkCode g.1 g.2)) a)
  | [], _, w, a, ns, _, h => ⟨w, rfl, h⟩
  | n :: l, hl, w, a, ns, hinv, h => by
    have hmem := hl n (List.mem_cons_self ..)
    have hrest := fun n' hn' => hl n' (List.mem_cons_of_mem n hn')
    by_cases hin : n.isIn g = true
    · obtain ⟨w₁, hw₁, h₁⟩ := h.step horig hroom hg hmem hin hinv
      have hinv₁ := hinv.write horig (fun _ => h.entryRoom hinv hroom) (hsized n hmem).entry
      obtain ⟨w', hw', h'⟩ := LqHelloBuild.Sim.steps horig hroom hg hsized l hrest hinv₁ h₁
      refine ⟨w', Run.forEach_cons.2 ⟨w₁, hw₁, hw'⟩, ?_⟩
      rw [lqHelloEntries, List.filter_cons, if_pos hin]
      exact h'
    · obtain ⟨w', hw', h'⟩ := LqHelloBuild.Sim.steps horig hroom hg hsized l hrest hinv h
      refine ⟨w', Run.forEach_cons.2 ⟨w, by rw [lqHelloStep, if_neg hin], hw'⟩, ?_⟩
      rw [lqHelloEntries, List.filter_cons, if_neg hin]
      exact h'

/-- With all blocks closed, the next group begins a block of its own. -/
theorem LqHelloBuild.Sim.nextGroup (h : w.Sim cnf neighs a) (hclosed : w.buff = blocksBytes a.blocks) :
    { w with isFirst := true }.Sim cnf neighs { a with fresh := true } := by
  refine ⟨h.st, h.rem, h.room, h.empty, rfl, h.layout.reopen hclosed, fun hn hnil => ?_⟩
  have hfresh := h.layout.fresh_of_nil hnil
  have ha : { a with fresh := true } = a := by rw [← hfresh]
  rw [ha]
  exact h.firstFits hn hnil

theorem LqHelloBuild.Sim.group (horig : hd.originator.length = cnf.ipsize)
    (hroom : 12 + cnf.ipsize + (entrySize cnf true + 4) ≤ st₀.maxsize) (hsized : ∀ n ∈ neighs, n.Sized cnf)
    {g : NeighType × LinkType} (hg : g.2 ≠ .hide) (hinv : a.Inv cnf true hd st₀ code ns) (h : w.Sim cnf neighs a)
    (hclosed : w.buff = blocksBytes a.blocks) :
    ∃ w', lqHelloGroup cnf hd neighs w g = some w' ∧
      w'.Sim cnf neighs (a.writeGroup cnf true hd (lqHelloEntries neighs g)) ∧
      w'.buff = blocksBytes (a.writeGroup cnf true hd (lqHelloEntries neighs g)).blocks := by
  obtain ⟨w₁, hw₁, h₁⟩ := LqHelloBuild.Sim.steps horig hroom hg hsized neighs (fun _ hn => hn)
    (hinv.fresh (createLinkCode g.1 g.2)) (h.nextGroup hclosed)
  unfold lqHelloGroup
  rw [hw₁, Option.bind_some]
  by_cases hfirst : w₁.isFirst = true
  · rw [if_pos hfirst]
    exact ⟨w₁, rfl, h₁, h₁.layout.closed (h₁.first.symm.trans hfirst)⟩
  · rw [if_neg hfirst]
    have hne : (a.writeGroup cnf true hd (lqHelloEntries neighs g)).blocks ≠ [] :=
      fun hnil => hfirst (h₁.first.trans (h₁.layout.fresh_of_nil hnil))
    obtain ⟨hfin, hsim⟩ := h₁.finalizeInfo hne
    exact ⟨_, hfin, hsim, rfl⟩

/-- The loops do what the block writer does with the groups. -/
theorem LqHelloBuild.Sim.groups (horig : hd.originator.length = cnf.ipsize)
    (hroom : 12 + cnf.ipsize + (entrySize cnf true + 4) ≤ st₀.maxsize) (hsized : ∀ n ∈ neighs, n.Sized cnf) :
    ∀ (groups : List (NeighType × LinkType)), (∀ g ∈ groups, g.2 ≠ .hide) →
    ∀ {w : LqHelloBuild} {a : BlockWriter} {code : UInt8} {ns : List HelloNeighbor}, a.Inv cnf true hd st₀ code ns →
    w.Sim cnf neighs a → w.buff = blocksBytes a.blocks →
    ∃ w', Run.forEach (lqHelloGroup cnf hd neighs) groups w = some w' ∧
      w'.Sim cnf neighs ((groups.map (lqHelloEntries neighs)).foldl (BlockWriter.writeGroup cnf true hd) a) ∧
      w'.buff = blocksBytes ((groups.map (lqHelloEntries neighs)).foldl (BlockWriter.writeGroup cnf true hd) a).blocks
  | [], _, w, a, code, ns, _, h, hclosed => ⟨w, rfl, h, hclosed⟩
  | g :: groups, hgroups, w, a, code, ns, hinv, h, hclosed => by
    obtain ⟨w₁, hw₁, h₁, hclosed₁⟩ := h.group horig hroom hsized (hgroups g (List.mem_cons_self ..)) hinv hclosed
    have hempty : 12 + cnf.ipsize + (entrySize cnf true + 4) ≤ { a with fresh := true }.empty := h.entryRoom hinv hroom
    have hinv₁ := (hinv.fresh (createLinkCode g.1 g.2)).writes horig (lqHelloEntries neighs g).2 hempty
      (lqHelloEntries_sized hsized g)
    obtain ⟨w', hw', h'⟩ := LqHelloBuild.Sim.groups horig hroom hsized groups
      (fun g' hg' => hgroups g' (List.mem_cons_of_mem _ hg')) hinv₁ h₁ hclosed₁
    exact ⟨w', Run.forEach_cons.2 ⟨w₁, hw₁, hw'⟩, h'⟩

end

/-! ## The round trip -/

theorem isIn_eq (neigh : LqHelloNeighbor) (g : NeighType × LinkType) :
    neigh.isIn g = decide ((neigh.neighType, neigh.linkType) = g) := by
  rw [LqHelloNeighbor.isIn]
  refine decide_eq_decide.2 ⟨fun h => Prod.ext h.1 h.2, ?_⟩
  rintro rfl
  exact ⟨rfl, rfl⟩

theorem mem_lqHelloGroups (i : NeighType) (j : LinkType) : (i, j) ∈ lqHelloGroups ↔ j ≠ .hide := by
  cases i <;> cases j <;> decide

theorem LqHelloNeighbor.received_eq {cnf : Cnf} {g : NeighType × LinkType} {neigh : LqHelloNeighbor}
    (hin : neigh.isIn g = true) (hg : g.2 ≠ .hide) (hsized : neigh.Sized cnf) :
    entryNeighbor cnf true (createLinkCode g.1 g.2) neigh.entry = neigh.received := by
  obtain ⟨hstatus, hlink⟩ : neigh.neighType = g.1 ∧ neigh.linkType = g.2 := by simpa [isIn] using hin
  obtain ⟨hl, hs⟩ := createLinkCode_extract g.1 hg
  rw [entryNeighbor, hl, hs, received, hstatus, hlink, entry, ← hsized.1, List.take_left, List.drop_left]
  rfl

/-- The groups cover every neighbour whose link is not hidden, once. -/
theorem lqHelloEntries_perm {cnf : Cnf} {neighs : List LqHelloNeighbor} (hsized : ∀ n ∈ neighs, n.Sized cnf) :
    ((lqHelloGroups.map (lqHelloEntries neighs)).flatMap (BlockWriter.groupNeighbors cnf true)).Perm
      ((neighs.filter fun n => n.linkType ≠ .hide).map LqHelloNeighbor.received) := by
  rw [List.flatMap_map]
  refine (grouped_map_perm (fun n : LqHelloNeighbor => (n.neighType, n.linkType)) LqHelloNeighbor.received neighs
    (show lqHelloGroups.Nodup by decide) fun g hg => ?_).trans (List.Perm.of_eq (congrArg _ ?_))
  · have hfilter : neighs.filter (fun n => decide ((n.neighType, n.linkType) = g)) = neighs.filter (·.isIn g) :=
      List.filter_congr fun n _ => (isIn_eq n g).symm
    rw [BlockWriter.groupNeighbors, lqHelloEntries, List.map_map, hfilter]
    refine List.map_congr_left fun n hn => ?_
    obtain ⟨hmem, hin⟩ := List.mem_filter.1 hn
    exact n.received_eq hin ((mem_lqHelloGroups g.1 g.2).1 hg) (hsized n hmem)
  · exact List.filter_congr fun n _ => decide_eq_decide.2 (mem_lqHelloGroups _ _)

theorem le_lqHelloExpectedSize (cnf : Cnf) {neighs : List LqHelloNeighbor} {n : LqHelloNeighbor} (hn : n ∈ neighs)
    (hlink : n.linkType ≠ .hide) : cnf.ipsize + 8 ≤ lqHelloExpectedSize cnf neighs := by
  have hlen : 1 ≤ neighs.length := List.length_pos_of_mem hn
  have hcount : 0 < lqHelloGroups.countP fun g => neighs.any (·.isIn g) := by
    rw [List.countP_pos_iff]
    refine ⟨(n.neighType, n.linkType), (mem_lqHelloGroups _ _).2 hlink, List.any_eq_true.2 ⟨n, hn, ?_⟩⟩
    rw [isIn_eq]
    exact decide_eq_true rfl
  have hmul := Nat.mul_le_mul_right (cnf.ipsize + 4) hlen
  rw [lqHelloExpectedSize]
  omega

theorem lqHelloStart_spec (cnf : Cnf) (hd : HelloHead) {st : Sender} (neighs : List LqHelloNeighbor)
    (hpending : st.pending ≤ st.maxsize) (hroom : lqHelloOff cnf + cnf.ipsize + 8 ≤ st.maxsize) :
    Sent cnf true hd st (lqHelloStart cnf st neighs) [] ∧ 0 ≤ lqHelloRem cnf (lqHelloStart cnf st neighs) ∧
      ((∃ n ∈ neighs, n.linkType ≠ .hide) →
        ((cnf.ipsize + 8 : Nat) : Int) ≤ lqHelloRem cnf (lqHelloStart cnf st neighs)) := by
  have hsent : Sent cnf true hd st st [] := .refl hpending
  have hempty : ∀ st' : Sender, st'.maxsize = st.maxsize → st'.pending = 0 →
      ((cnf.ipsize + 8 : Nat) : Int) ≤ lqHelloRem cnf st' := by
    intro st' hmax hzero
    rw [lqHelloRem, Sender.netOutbufferBytesLeft, hmax, hzero]
    omega
  unfold lqHelloStart
  dsimp only
  by_cases hfull : lqHelloRem cnf st < (if 0 < st.pending then lqHelloExpectedSize cnf neighs else 0 : Nat)
  · rw [if_pos hfull]
    have hrem := hempty st.netOutput rfl rfl
    exact ⟨hsent.output, by omega, fun _ => hrem⟩
  · rw [if_neg hfull]
    refine ⟨hsent, by omega, ?_⟩
    rintro ⟨n, hn, hlink⟩
    by_cases hp : 0 < st.pending
    · rw [if_pos hp] at hfull
      have hexpected := le_lqHelloExpectedSize cnf hn hlink
      omega
    · exact hempty st rfl (by omega)

/-- For every neighbour list, output buffer and fill level: the messages that `serialize_lq_hello` pushes fit, have
the right sizes, and tell every receiver exactly the neighbours whose links have one of the four types. -/
theorem serializeLqHello_roundTrip (cnf : Cnf) (pair : PairReads) {hd : HelloHead} {st : Sender}
    {neighs : List LqHelloNeighbor} (horig : hd.originator.length = cnf.ipsize) (htype : hd.type.toNat = lqHelloMessage)
    (hsized : ∀ n ∈ neighs, n.Sized cnf) (hpending : st.pending ≤ st.maxsize)
    (hroom : lqHelloOff cnf + cnf.ipsize + 8 ≤ st.maxsize) (hmax : st.maxsize ≤ 1500) :
    ∃ st', serializeLqHello cnf hd st neighs = some st' ∧
      RoundTrip cnf pair hd st st' ((neighs.filter fun n => n.linkType ≠ .hide).map LqHelloNeighbor.received) := by
  obtain ⟨hsent₁, hrem₁, hfirst₁⟩ := lqHelloStart_spec cnf hd neighs hpending hroom
  have hroom' : 12 + cnf.ipsize + (entrySize cnf true + 4) ≤ st.maxsize := by
    rw [lqHelloOff] at hroom
    rw [entrySize, if_pos rfl]
    omega
  have hmaxsize := hsent₁.maxsize
  have hpending₁ := hsent₁.pending
  -- the number of bytes that are left
  obtain ⟨room, hleft⟩ : ∃ room : Nat, (room : Int) = (lqHelloStart cnf st neighs).netOutbufferBytesLeft :=
    ⟨(lqHelloStart cnf st neighs).maxsize - (lqHelloStart cnf st neighs).pending, by
      rw [Sender.netOutbufferBytesLeft]
      omega⟩
  rw [lqHelloRem, ← hleft, lqHelloOff] at hrem₁
  have hleft' := hleft
  rw [Sender.netOutbufferBytesLeft] at hleft'
  have hinv : (BlockWriter.mk (lqHelloStart cnf st neighs) room st.maxsize [] [] true).Inv cnf true hd st 0 [] := by
    refine ⟨hsent₁, ?_, le_rfl, ?_, ?_, by simp, fun hf => (by cases hf), rfl⟩
    · dsimp only
      omega
    · dsimp only
      omega
    · simp only [BlockWriter.size, blocksBytes, List.flatMap_nil, List.length_nil]
      omega
  have hsim : (LqHelloBuild.mk (lqHelloStart cnf st neighs) (lqHelloRem cnf (lqHelloStart cnf st neighs)) [] none
      true).Sim cnf neighs ⟨lqHelloStart cnf st neighs, room, st.maxsize, [], [], true⟩ := by
    refine ⟨rfl, rfl, hleft, hmaxsize.symm, rfl, .empty rfl rfl, fun hn _ => ?_⟩
    have hrem := hfirst₁ hn
    rw [lqHelloRem, ← hleft, lqHelloOff] at hrem
    simp only [BlockWriter.Full, BlockWriter.size, blocksBytes, List.flatMap_nil, List.length_nil, entrySize, if_true]
    omega
  obtain ⟨w, hw, hdone, hclosed⟩ := hsim.groups horig hroom' hsized lqHelloGroups
    (fun g hg => (mem_lqHelloGroups g.1 g.2).1 hg) hinv rfl
  obtain ⟨code, hinv'⟩ := hinv.writeGroups horig (lqHelloGroups.map (lqHelloEntries neighs)) hroom'
    (fun g' hg' => by
      obtain ⟨g, -, rfl⟩ := List.mem_map.1 hg'
      exact lqHelloEntries_sized hsized g)
  refine ⟨putHello w.st hd (w.buff.length + lqHelloOff cnf) w.buff, ?_, ?_⟩
  · rw [serializeLqHello, hw, Option.map_some]
  · rw [hclosed, hdone.st]
    exact hinv'.roundTrip pair horig htype (by rw [lqHelloOff]; omega) (lqHelloEntries_perm hsized)

/-! ### An example -/

def exampleHead (type : UInt8) : HelloHead :=
  { type, vtime := 0x86, originator := [10, 0, 0, 1], ttl := 1, hops := 0, htime := 0x05, willingness := 3 }

def fourNeighbors : List LqHelloNeighbor :=
  [⟨[10, 0, 0, 2], .sym, .mprNeigh, [255, 255, 0, 0]⟩, ⟨[10, 0, 0, 3], .hide, .symNeigh, [9, 9, 0, 0]⟩,
    ⟨[10, 0, 0, 4], .sym, .mprNeigh, [200, 190, 0, 0]⟩, ⟨[10, 0, 0, 5], .asym, .notNeigh, [1, 2, 0, 0]⟩]

/-- The buffer has room for two neighbours, so that the last one goes into a message of its own. -/
theorem serializeLqHello_roundTrip_fragmented :
    ∃ st', serializeLqHello ipv4Cnf (exampleHead 201) ⟨7, 40, 5, []⟩ fourNeighbors = some st' ∧ st'.sent.length = 2 ∧
      RoundTrip ipv4Cnf .firstTwo (exampleHead 201) ⟨7, 40, 5, []⟩ st'
        [⟨[10, 0, 0, 2], 2, 2, some [255, 255, 0, 0]⟩, ⟨[10, 0, 0, 4], 2, 2, some [200, 190, 0, 0]⟩,
          ⟨[10, 0, 0, 5], 1, 0, some [1, 2, 0, 0]⟩] := by
  obtain ⟨st', hst', hround⟩ := @serializeLqHello_roundTrip ipv4Cnf .firstTwo (exampleHead 201) ⟨7, 40, 5, []⟩
    fourNeighbors rfl rfl (by decide) (by decide) (by decide) (by decide)
  have hlen : (serializeLqHello ipv4Cnf (exampleHead 201) ⟨7, 40, 5, []⟩ fourNeighbors).map
      (fun st' => st'.sent.length) = some 2 := by decide +kernel
  rw [hst'] at hlen
  exact ⟨st', hst', Option.some.inj hlen, hround⟩

end Olsrd.Message
