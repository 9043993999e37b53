/-
`serialize_hello4` and `serialize_hello6` of `build_msg.c`, which build the HELLO of RFC 3626. They are two copies
of the same loops, which differ in the hidden links and in the room they check for.
-/
import Olsrd.Lib.Filling
import Olsrd.Lib.Run
import Olsrd.Message.LqHello

namespace Olsrd.Message

open Bytes
open Olsrd.Topology (Holds Sender remainsize16)

/-! ## The serializers -/

/-- `struct hello_neighbor` -/
structure HelloNb where
  address : IpAddr
  status : NeighType
  link : LinkType
  deriving DecidableEq, Repr

/-- `struct hello_message`, and the times of the interface as they are encoded. -/
structure HelloInfo where
  ttl : UInt8
  willingness : UInt8
  vtime : UInt8
  htime : UInt8
  neighbors : List HelloNb

/-- The message and HELLO headers that are filled in. -/
def helloHead (cnf : Cnf) (message : HelloInfo) : HelloHead where
  type := 1
  vtime := message.vtime
  originator := cnf.mainAddr
  ttl := message.ttl
  hops := 0
  htime := message.htime
  willingness := message.willingness

/-- `OLSR_HELLO_IPV4_HDRSIZE`, `OLSR_HELLO_IPV6_HDRSIZE` -/
def helloHdrsize (cnf : Cnf) : Nat := 12 + cnf.ipsize

/-- The state of the loops: `buff` is the message behind its headers, `hinfo` and `haddr` are offsets in it. -/
structure HelloBuild where
  st : Sender
  remainsize : Nat
  buff : List UInt8
  hinfo : Nat
  haddr : Nat
  firstEntry : Bool

def HelloBuild.currSize (cnf : Cnf) (w : HelloBuild) : Nat := helloHdrsize cnf + w.buff.length

/-- `hinfo->size = htons(haddr - hinfo)`, which is behind the message if the group has no entry yet. -/
def HelloBuild.setSize (w : HelloBuild) : HelloBuild :=
  { w with buff := setU16 w.buff (w.hinfo + 2) (w.haddr - w.hinfo) }

/-- Send a partial HELLO, if it contains data, and the packet. There is no result when the size of the group is written
behind the end of `msg_buffer`. -/
def HelloBuild.flush (cnf : Cnf) (hd : HelloHead) (w : HelloBuild) : Option HelloBuild :=
  if w.currSize cnf > helloHdrsize cnf then
    if helloHdrsize cnf + w.hinfo + 4 > msgBufferSize then none
    else
      let st := (putHello w.st hd (w.currSize cnf) w.setSize.buff).netOutput
      some { st, remainsize := remainsize16 st, buff := [], hinfo := 0, haddr := 4, firstEntry := true }
  else some { w with st := w.st.netOutput, remainsize := remainsize16 w.st.netOutput }

/-- Add a neighbour, behind the link code of the group if it is the first. -/
def HelloBuild.add (g : NeighType × LinkType) (w : HelloBuild) (nb : HelloNb) : HelloBuild :=
  let w := if w.firstEntry then { w with buff := w.buff ++ [createLinkCode g.1 g.2, 0, 0, 0] } else w
  { w with buff := w.buff ++ nb.address, haddr := w.haddr + nb.address.length, firstEntry := false }

/-- `sizeof(union olsr_ip_addr)` -/
def ipAddrSize : Nat := 16

/-- The whole of `union olsr_ip_addr` is copied, for which there has to be room in `msg_buffer`. -/
def HelloBuild.write (cnf : Cnf) (g : NeighType × LinkType) (w : HelloBuild) (nb : HelloNb) : Option HelloBuild :=
  if (w.currSize cnf + if w.firstEntry then 4 else 0) + ipAddrSize > msgBufferSize then none else some (w.add g nb)

def HelloNb.isIn (nb : HelloNb) (g : NeighType × LinkType) : Bool := nb.status = g.1 ∧ nb.link = g.2

/-- One round of the innermost loop. There is no result when `check_buffspace` ends the program or something is written
behind the end of `msg_buffer`. -/
def helloStep (cnf : Cnf) (hd : HelloHead) (g : NeighType × LinkType) (w : HelloBuild) (nb : HelloNb) :
    Option HelloBuild :=
  if nb.isIn g then
    if (w.currSize cnf + cnf.ipsize + if w.firstEntry then 4 else 0) > w.remainsize then
      (w.flush cnf hd).bind fun w =>
        if w.currSize cnf + cnf.ipsize + 4 > w.remainsize then none else w.write cnf g nb
    else w.write cnf g nb
  else some w

/-- The neighbours of one status and link type. -/
def helloGroup (cnf : Cnf) (hd : HelloHead) (nbs : List HelloNb) (w : HelloBuild) (g : NeighType × LinkType) :
    Option HelloBuild :=
  (Run.forEach (helloStep cnf hd g) nbs { w with firstEntry := true }).map fun w =>
    if w.firstEntry then w else { w.setSize with hinfo := w.haddr, haddr := w.haddr + 4 }

def statuses : List NeighType := [.notNeigh, .symNeigh, .mprNeigh]

def links : List LinkType := [.unspec, .asym, .sym, .lost, .hide]

/-- What both functions do: `groups` are the rounds of the outer loops, and `size` is what the sanity check asks
room for. -/
def serializeHello (cnf : Cnf) (size : Nat) (groups : List (NeighType × LinkType)) (message : HelloInfo) (st : Sender) :
    Option Sender :=
  let hd := helloHead cnf message
  let st := sendPending (helloHdrsize cnf) st
  if size > remainsize16 st then none
  else
    (Run.forEach (helloGroup cnf hd message.neighbors) groups ⟨st, remainsize16 st, [], 0, 4, true⟩).map fun w =>
      putHello w.st hd (w.currSize cnf) w.buff

/-- The outer loops of `serialize_hello4`, which go past the hidden links. -/
def helloGroups4 : List (NeighType × LinkType) :=
  statuses.flatMap fun i => (links.filter fun j => j ≠ .hide).map fun j => (i, j)

/-- The outer loops of `serialize_hello6`, which go through all links. -/
def helloGroups6 : List (NeighType × LinkType) := statuses.flatMap fun i => links.map fun j => (i, j)

def serializeHello4 (cnf : Cnf) (message : HelloInfo) (st : Sender) : Option Sender :=
  if cnf.ipVersion ≠ .inet then some st else serializeHello cnf (helloHdrsize cnf) helloGroups4 message st

def serializeHello6 (cnf : Cnf) (message : HelloInfo) (st : Sender) : Option Sender :=
  if cnf.ipVersion ≠ .inet6 then some st
  else serializeHello cnf (helloHdrsize cnf + cnf.ipsize + 4) helloGroups6 message st

/-- `queue_hello` -/
def queueHello (cnf : Cnf) : HelloInfo → Sender → Option Sender :=
  match cnf.ipVersion with
  | .inet => serializeHello4 cnf
  | .inet6 => serializeHello6 cnf

/-! ## The serializers as block writers -/

/-- What a receiver should make of a neighbour. -/
def HelloNb.received (nb : HelloNb) : HelloNeighbor where
  address := nb.address
  link := nb.link.code
  status := nb.status.code
  linkquality := none

/-- What is written for a status and a link type. -/
def helloEntries (nbs : List HelloNb) (g : NeighType × LinkType) : UInt8 × List (List UInt8) :=
  (createLinkCode g.1 g.2, (nbs.filter (·.isIn g)).map HelloNb.address)

/-- The buffer holds the blocks. In a group, `hinfo` and `haddr` are the ends of the last block, and between
groups those of the header of the next one. -/
inductive HelloLayout (buff : List UInt8) (hinfo haddr : Nat) (fresh : Bool) : List LinkBlock → Prop
  | closed {Bs : List LinkBlock} : fresh = true → buff = blocksBytes Bs → hinfo = buff.length → haddr = hinfo + 4 →
      HelloLayout buff hinfo haddr fresh Bs
  | opened {Bs : List LinkBlock} {B : LinkBlock} : fresh = false → OpenAt buff hinfo Bs B → haddr = buff.length →
      HelloLayout buff hinfo haddr fresh (Bs ++ [B])

section

variable {buff : List UInt8} {hinfo haddr : Nat} {fresh : Bool} {Bs : List LinkBlock}

theorem HelloLayout.length (h : HelloLayout buff hinfo haddr fresh Bs) : buff.length = (blocksBytes Bs).length := by
  cases h with
  | closed _ hbuff _ _ => rw [hbuff]
  | opened _ hopen _ =>
    rw [hopen.length, hopen.off_eq, blocksBytes_append, blocksBytes_singleton, List.length_append, length_linkBlock]

theorem HelloLayout.of_fresh (h : HelloLayout buff hinfo haddr fresh Bs) (hfresh : fresh = true) :
    buff = blocksBytes Bs ∧ hinfo = buff.length ∧ haddr = hinfo + 4 := by
  cases h with
  | closed _ hbuff hinfo haddr => exact ⟨hbuff, hinfo, haddr⟩
  | opened hopen _ _ => exact absurd (hopen.symm.trans hfresh) (by decide)

theorem HelloLayout.fresh_of_nil (h : HelloLayout buff hinfo haddr fresh Bs) (hBs : Bs = []) : fresh = true := by
  cases h with
  | closed hfresh _ _ _ => exact hfresh
  | opened => exact absurd hBs (List.append_ne_nil_of_right_ne_nil _ (List.cons_ne_nil _ _))

/-- Behind the last byte there is nothing to set. -/
theorem setU16_length (buff : List UInt8) (n k : Nat) : setU16 buff (buff.length + k) n = buff := by
  rw [setU16, List.set_eq_of_length_le (by rw [List.length_set]; omega), List.set_eq_of_length_le (by omega)]

/-- Setting the size closes the last block, if it is open. -/
theorem HelloLayout.setSize (h : HelloLayout buff hinfo haddr fresh Bs) :
    setU16 buff (hinfo + 2) (haddr - hinfo) = blocksBytes Bs := by
  cases h with
  | closed _ hbuff hinfo _ => rw [hinfo, setU16_length, hbuff]
  | opened _ hopen haddr => rw [haddr, hopen.length, Nat.add_sub_cancel_left, hopen.close]

theorem HelloLayout.end_eq (h : HelloLayout buff hinfo haddr fresh Bs) (hfresh : fresh = false) :
    haddr = buff.length := by
  cases h with
  | closed htrue _ _ _ => exact absurd (htrue.symm.trans hfresh) (by decide)
  | opened _ _ haddr => exact haddr

/-- A group that has begun has a header. -/
theorem HelloLayout.hinfo_lt (h : HelloLayout buff hinfo haddr fresh Bs) (hfresh : fresh = false) :
    hinfo + 4 ≤ buff.length := by
  cases h with
  | closed htrue _ _ _ => exact absurd (htrue.symm.trans hfresh) (by decide)
  | opened _ hopen _ =>
    rw [hopen.length, LinkBlock.size]
    omega

theorem HelloLayout.begin (h : HelloLayout buff hinfo haddr fresh Bs) (hfresh : fresh = true) (code : UInt8)
    (entry : List UInt8) : HelloLayout (buff ++ [code, 0, 0, 0] ++ entry) hinfo (haddr + entry.length) false
      (Bs ++ [⟨code, [entry]⟩]) := by
  obtain ⟨rfl, rfl, rfl⟩ := h.of_fresh hfresh
  refine .opened rfl ((openAt_new Bs code).add entry) ?_
  simp only [List.length_append, List.length_cons, List.length_nil]

theorem HelloLayout.append (h : HelloLayout buff hinfo haddr fresh Bs) (hfresh : fresh = false) (entry : List UInt8) :
    HelloLayout (buff ++ entry) hinfo (haddr + entry.length) false
      (Bs.modifyLast fun B => { B with entries := B.entries ++ [entry] }) := by
  cases h with
  | closed htrue _ _ _ => exact absurd (htrue.symm.trans hfresh) (by decide)
  | opened _ hopen haddr =>
    rw [List.modifyLast_concat]
    exact .opened rfl (hopen.add entry) (by rw [List.length_append, haddr])

end

/-! ### The messages as containers -/

def HelloBuild.level (cnf : Cnf) (w : HelloBuild) : Filling.Level := ⟨w.remainsize, w.currSize cnf⟩

/-- A message in an emptied output buffer of that size. -/
def helloFresh (cnf : Cnf) (maxsize : Nat) : Filling.Level := ⟨maxsize % 65536, helloHdrsize cnf⟩

/-- A neighbour needs a link code in front of it if it is the first one of its group or of its message. -/
def helloItem (cnf : Cnf) (first : Bool) : Filling.Item := ⟨cnf.ipsize + if first then 4 else 0, cnf.ipsize + 4⟩

/-- The next neighbours of a group, of which there are that many. -/
def helloItems (cnf : Cnf) : Bool → Nat → List Filling.Item
  | _, 0 => []
  | first, n + 1 => helloItem cnf first :: helloItems cnf false n

/-- A neighbour stays within its bounds: an emptied output buffer has room for it if it has to begin a message, there is
room in `msg_buffer` for the `union olsr_ip_addr`, and for the size of its group if it would have been the first one of
that behind others. -/
structure HelloOk (cnf : Cnf) (maxsize : Nat) (p : Filling.Level) (i : Filling.Item) : Prop where
  bounded : Filling.Bounded (msgBufferSize - (ipAddrSize - cnf.ipsize)) (helloFresh cnf maxsize) p i
  size : p.Full i → i.behind = i.first → p.used = helloHdrsize cnf ∨ p.used + 4 ≤ msgBufferSize

instance (cnf : Cnf) (maxsize : Nat) (p : Filling.Level) (i : Filling.Item) : Decidable (HelloOk cnf maxsize p i) :=
  decidable_of_iff (Filling.Bounded (msgBufferSize - (ipAddrSize - cnf.ipsize)) (helloFresh cnf maxsize) p i ∧
    (p.Full i → i.behind = i.first → p.used = helloHdrsize cnf ∨ p.used + 4 ≤ msgBufferSize))
    ⟨fun h => ⟨h.1, h.2⟩, fun h => ⟨h.bounded, h.size⟩⟩

/-- The loop state does what the block writer does. -/
structure HelloBuild.Sim (cnf : Cnf) (w : HelloBuild) (a : BlockWriter) : Prop where
  st : w.st = a.st
  remainsize : w.remainsize = a.room
  empty : a.empty = a.st.maxsize % 65536
  first : w.firstEntry = a.fresh
  layout : HelloLayout w.buff w.hinfo w.haddr a.fresh a.blocks
  inBuffer : w.currSize cnf ≤ msgBufferSize

section

variable {cnf : Cnf} {hd : HelloHead} {st₀ : Sender} {nbs : List HelloNb} {code : UInt8} {w : HelloBuild}
  {a : BlockWriter} {ns : List HelloNeighbor} {g : NeighType × LinkType} {nb : HelloNb}

theorem helloItem_first_iff (first : Bool) :
    (helloItem cnf first).behind = (helloItem cnf first).first ↔ first = true := by
  cases first <;> simp [helloItem]

theorem ipsize_le_ipAddrSize (cnf : Cnf) : cnf.ipsize ≤ ipAddrSize := by
  cases hversion : cnf.ipVersion <;> simp [ipAddrSize, Cnf.ipsize, IpVersion.ipsize, hversion]

theorem helloHdrsize_le (cnf : Cnf) : helloHdrsize cnf ≤ msgBufferSize := by
  cases hversion : cnf.ipVersion <;> simp [helloHdrsize, msgBufferSize, Cnf.ipsize, IpVersion.ipsize, hversion]

theorem HelloBuild.Sim.currSize (h : w.Sim cnf a) : w.currSize cnf = a.size cnf := by
  rw [HelloBuild.currSize, h.layout.length]
  rfl

theorem HelloBuild.full_iff (w : HelloBuild) :
    (w.currSize cnf + cnf.ipsize + if w.firstEntry then 4 else 0) > w.remainsize ↔
      (w.level cnf).Full (helloItem cnf w.firstEntry) := by
  rw [Filling.Level.Full, HelloBuild.level, helloItem]
  dsimp only
  omega

theorem HelloBuild.Sim.full_iff (h : w.Sim cnf a) :
    (w.level cnf).Full (helloItem cnf w.firstEntry) ↔ a.Full cnf false := by
  rw [Filling.Level.Full, HelloBuild.level, helloItem, BlockWriter.Full, entrySize, if_neg Bool.false_ne_true, h.first,
    h.currSize, h.remainsize]
  rfl

theorem blocksBytes_pos (hne : a.blocks ≠ []) : 0 < (blocksBytes a.blocks).length := by
  obtain ⟨B, hB⟩ := List.exists_mem_of_ne_nil _ hne
  have hle := size_le_blocksBytes hB
  have hpos : 0 < B.size := by
    rw [LinkBlock.size]
    omega
  omega

theorem HelloBuild.Sim.currSize_gt_iff (h : w.Sim cnf a) : w.currSize cnf > helloHdrsize cnf ↔ a.blocks ≠ [] := by
  rw [h.currSize, BlockWriter.size, helloHdrsize]
  constructor
  · intro hgt hnil
    rw [hnil] at hgt
    simp [blocksBytes] at hgt
  · intro hne
    have hpos := blocksBytes_pos hne
    omega

/-- The size of a group that has begun is in `msg_buffer`. -/
theorem HelloBuild.Sim.size_iff (h : w.Sim cnf a) (hne : a.blocks ≠ []) :
    helloHdrsize cnf + w.hinfo + 4 > msgBufferSize ↔ w.firstEntry = true ∧
      ¬(w.currSize cnf = helloHdrsize cnf ∨ w.currSize cnf + 4 ≤ msgBufferSize) := by
  have hgt := h.currSize_gt_iff.2 hne
  have hlayout := h.layout
  have hbuffer := h.inBuffer
  rw [HelloBuild.currSize] at hgt hbuffer ⊢
  cases hfresh : a.fresh with
  | true =>
    obtain ⟨-, hinfo, -⟩ := hlayout.of_fresh hfresh
    rw [hinfo, h.first, hfresh]
    simp only [true_and]
    omega
  | false =>
    have hopen := hlayout.hinfo_lt hfresh
    rw [h.first, hfresh]
    simp only [Bool.false_eq_true, false_and, iff_false]
    omega

/-- A partial HELLO goes out, if the size of its last group is in `msg_buffer`. -/
theorem HelloBuild.Sim.flush (h : w.Sim cnf a)
    (hsize : w.firstEntry = true → w.currSize cnf = helloHdrsize cnf ∨ w.currSize cnf + 4 ≤ msgBufferSize) :
    ∃ w', w.flush cnf hd = some w' ∧ w'.Sim cnf (a.flush cnf hd) ∧ w'.firstEntry = true ∧
      w'.level cnf = helloFresh cnf a.st.maxsize := by
  have hbytes := h.layout.setSize
  have hcurr := h.currSize
  have hsmall : helloHdrsize cnf ≤ msgBufferSize := le_trans (Nat.le_add_right _ _) h.inBuffer
  unfold HelloBuild.flush BlockWriter.flush
  by_cases hempty : a.blocks = []
  · have hgt := mt h.currSize_gt_iff.1 (not_not.2 hempty)
    have hfirst := h.first.trans (h.layout.fresh_of_nil hempty)
    have hrem : remainsize16 w.st.netOutput = a.st.maxsize % 65536 := by rw [remainsize16_netOutput, h.st]
    have hhdr : w.currSize cnf = helloHdrsize cnf := le_antisymm (Nat.le_of_not_lt hgt) (Nat.le_add_right _ _)
    rw [if_neg hgt, if_pos hempty]
    refine ⟨_, rfl, ⟨congrArg Sender.netOutput h.st, hrem.trans h.empty.symm, h.empty, h.first, h.layout, h.inBuffer⟩,
      hfirst, ?_⟩
    exact congrArg₂ Filling.Level.mk hrem hhdr
  · have hgt := h.currSize_gt_iff.2 hempty
    have hin : ¬helloHdrsize cnf + w.hinfo + 4 > msgBufferSize := fun hout =>
      absurd (hsize ((h.size_iff hempty).1 hout).1) ((h.size_iff hempty).1 hout).2
    have hst : putHello w.st hd (w.currSize cnf) w.setSize.buff =
        putHello a.st hd (a.size cnf) (blocksBytes a.blocks) := by
      rw [h.st, hcurr, HelloBuild.setSize, hbytes]
    have hmaxsize : (putHello a.st hd (a.size cnf) (blocksBytes a.blocks)).maxsize = a.st.maxsize :=
      pushNumbered_maxsize a.st _
    have hrem : remainsize16 (putHello a.st hd (a.size cnf) (blocksBytes a.blocks)).netOutput =
        a.st.maxsize % 65536 := by
      rw [remainsize16_netOutput, hmaxsize]
    rw [if_pos hgt, if_neg hin, if_neg hempty]
    dsimp only
    rw [hst]
    refine ⟨_, rfl, ⟨rfl, hrem.trans h.empty.symm, ?_, rfl, .closed rfl rfl rfl rfl, hsmall⟩, rfl, ?_⟩
    · rw [h.empty, ← hmaxsize]
      rfl
    · exact congrArg₂ Filling.Level.mk hrem rfl

theorem HelloBuild.Sim.flush_none (h : w.Sim cnf a) (hfirst : w.firstEntry = true)
    (hsize : ¬(w.currSize cnf = helloHdrsize cnf ∨ w.currSize cnf + 4 ≤ msgBufferSize)) : w.flush cnf hd = none := by
  have hgt : w.currSize cnf > helloHdrsize cnf :=
    Nat.lt_of_le_of_ne (Nat.le_add_right _ _) fun heq => hsize (.inl heq.symm)
  unfold HelloBuild.flush
  rw [if_pos hgt, if_pos ((h.size_iff (h.currSize_gt_iff.1 hgt)).2 ⟨hfirst, hsize⟩)]

theorem HelloBuild.add_currSize (hsized : nb.address.length = cnf.ipsize) :
    (w.add g nb).currSize cnf = w.currSize cnf + (helloItem cnf w.firstEntry).behind := by
  rw [HelloBuild.currSize, HelloBuild.currSize, HelloBuild.add, helloItem, ← hsized]
  cases w.firstEntry <;> simp <;> omega

theorem HelloBuild.Sim.add (h : w.Sim cnf a) (hsized : nb.address.length = cnf.ipsize)
    (hin : w.currSize cnf + (helloItem cnf w.firstEntry).behind ≤ msgBufferSize) :
    (w.add g nb).Sim cnf (a.add (createLinkCode g.1 g.2) nb.address) ∧ (w.add g nb).firstEntry = false ∧
      (w.add g nb).level cnf = ⟨w.remainsize, w.currSize cnf + (helloItem cnf w.firstEntry).behind⟩ := by
  have hlayout : HelloLayout (w.add g nb).buff (w.add g nb).hinfo (w.add g nb).haddr false
      (a.add (createLinkCode g.1 g.2) nb.address).blocks := by
    by_cases hfresh : a.fresh = true
    · simp only [HelloBuild.add, BlockWriter.add, h.first, hfresh, if_true]
      exact h.layout.begin hfresh _ _
    · have hfresh := Bool.eq_false_iff.2 hfresh
      simp only [HelloBuild.add, BlockWriter.add, h.first, hfresh, Bool.false_eq_true, if_false]
      exact h.layout.append hfresh _
  have hkeep : (w.add g nb).st = w.st ∧ (w.add g nb).remainsize = w.remainsize := by
    rw [HelloBuild.add]
    split <;> exact ⟨rfl, rfl⟩
  have hcurr : (w.add g nb).currSize cnf = _ := HelloBuild.add_currSize hsized
  exact ⟨⟨hkeep.1.trans h.st, hkeep.2.trans h.remainsize, h.empty, rfl, hlayout, hcurr.trans_le hin⟩, rfl,
    congrArg₂ Filling.Level.mk hkeep.2 hcurr⟩

/-- Room for the `union olsr_ip_addr` is room for the address. -/
theorem HelloBuild.write_eq (hbound : w.currSize cnf + (helloItem cnf w.firstEntry).behind ≤
    msgBufferSize - (ipAddrSize - cnf.ipsize)) : w.write cnf g nb = some (w.add g nb) := by
  have hle := ipsize_le_ipAddrSize cnf
  rw [helloItem] at hbound
  dsimp only at hbound
  rw [HelloBuild.write, if_neg]
  rw [msgBufferSize, ipAddrSize] at *
  omega

theorem HelloBuild.write_none (hbound : ¬w.currSize cnf + (helloItem cnf w.firstEntry).behind ≤
    msgBufferSize - (ipAddrSize - cnf.ipsize)) : w.write cnf g nb = none := by
  have hle := ipsize_le_ipAddrSize cnf
  rw [helloItem] at hbound
  dsimp only at hbound
  rw [HelloBuild.write, if_pos]
  rw [msgBufferSize, ipAddrSize] at *
  omega

/-- A neighbour of the group has been written. -/
structure HelloBuild.Wrote (cnf : Cnf) (hd : HelloHead) (st₀ : Sender) (g : NeighType × LinkType)
    (ns : List HelloNeighbor) (a : BlockWriter) (nb : HelloNb) (w w' : HelloBuild) : Prop where
  sim : w'.Sim cnf (a.write cnf false hd (createLinkCode g.1 g.2) nb.address)
  inv : (a.write cnf false hd (createLinkCode g.1 g.2) nb.address).Inv cnf false hd st₀ (createLinkCode g.1 g.2)
    (ns ++ [entryNeighbor cnf false (createLinkCode g.1 g.2) nb.address])
  first : w'.firstEntry = false
  level : w'.level cnf = Filling.next (helloFresh cnf st₀.maxsize) (w.level cnf) (helloItem cnf w.firstEntry)

/-- A neighbour that does not fit is written behind the headers of a new message. -/
theorem HelloBuild.Sim.step_full (horig : hd.originator.length = cnf.ipsize) (hsized : nb.address.length = cnf.ipsize)
    (hin : nb.isIn g = true) (hinv : a.Inv cnf false hd st₀ (createLinkCode g.1 g.2) ns) (h : w.Sim cnf a)
    (hfull : (w.level cnf).Full (helloItem cnf w.firstEntry)) :
    (HelloOk cnf st₀.maxsize (w.level cnf) (helloItem cnf w.firstEntry) →
      ∃ w', helloStep cnf hd g w nb = some w' ∧ HelloBuild.Wrote cnf hd st₀ g ns a nb w w') ∧
    (¬HelloOk cnf st₀.maxsize (w.level cnf) (helloItem cnf w.firstEntry) → helloStep cnf hd g w nb = none) := by
  have hentry : nb.address.length = entrySize cnf false := hsized
  have hempty : a.empty = st₀.maxsize % 65536 := by rw [h.empty, hinv.sent.maxsize]
  have hfull' := h.full_iff.1 hfull
  unfold helloStep
  rw [if_pos hin, if_pos (w.full_iff.2 hfull)]
  by_cases hsize : w.firstEntry = true → w.currSize cnf = helloHdrsize cnf ∨ w.currSize cnf + 4 ≤ msgBufferSize
  · obtain ⟨w₁, hw₁, h₁, hfirst, hlevel⟩ := @HelloBuild.Sim.flush cnf hd w a h hsize
    rw [hinv.sent.maxsize] at hlevel
    have hrem : w₁.remainsize = st₀.maxsize % 65536 := congrArg Filling.Level.room hlevel
    have hcurr : w₁.currSize cnf = helloHdrsize cnf := congrArg Filling.Level.used hlevel
    have hbehind : (helloItem cnf w₁.firstEntry).behind = cnf.ipsize + 4 := by rw [hfirst, helloItem, if_pos rfl]
    have hnext : Filling.next (helloFresh cnf st₀.maxsize) (w.level cnf) (helloItem cnf w.firstEntry) =
        ⟨st₀.maxsize % 65536, helloHdrsize cnf + (cnf.ipsize + 4)⟩ := Filling.next_of_full hfull
    rw [hw₁, Option.bind_some, hcurr, hrem]
    constructor
    · rintro ⟨⟨hroom, hbound⟩, -⟩
      have hroom : helloHdrsize cnf + (cnf.ipsize + 4) ≤ st₀.maxsize % 65536 := hroom hfull
      rw [hnext] at hbound
      have hbound₁ : w₁.currSize cnf + (helloItem cnf w₁.firstEntry).behind ≤
          msgBufferSize - (ipAddrSize - cnf.ipsize) := by rwa [hcurr, hbehind]
      have hadd := @HelloBuild.Sim.add cnf w₁ _ g nb h₁ hsized (le_trans hbound₁ (Nat.sub_le _ _))
      rw [if_neg (by omega), HelloBuild.write_eq hbound₁]
      refine ⟨_, rfl, ?_, ?_, hadd.2.1, ?_⟩
      · rw [BlockWriter.write, if_pos hfull']
        exact hadd.1
      · refine hinv.write horig (fun _ => ?_) hentry
        rw [hempty, entrySize, if_neg Bool.false_ne_true]
        rw [helloHdrsize] at hroom
        omega
      · rw [hadd.2.2, hnext, hrem, hcurr, hbehind]
    · intro hok
      by_cases hroom : helloHdrsize cnf + cnf.ipsize + 4 > st₀.maxsize % 65536
      · rw [if_pos hroom]
      · rw [if_neg hroom]
        refine HelloBuild.write_none fun hbound => hok ⟨⟨fun _ => ?_, ?_⟩, fun _ hitem => ?_⟩
        · exact Nat.le_of_not_lt hroom
        · rw [hnext, ← hcurr, ← hbehind]
          exact hbound
        · exact hsize ((helloItem_first_iff _).1 hitem)
  · obtain ⟨hfirst, hsize⟩ := Classical.not_imp.1 hsize
    rw [h.flush_none hfirst hsize]
    exact ⟨fun hok => absurd (hok.size hfull ((helloItem_first_iff _).2 hfirst)) hsize, fun _ => rfl⟩

/-- A neighbour is written, if and only if it stays within its bounds. -/
theorem HelloBuild.Sim.step (horig : hd.originator.length = cnf.ipsize) (hsized : nb.address.length = cnf.ipsize)
    (hin : nb.isIn g = true) (hinv : a.Inv cnf false hd st₀ (createLinkCode g.1 g.2) ns) (h : w.Sim cnf a) :
    (HelloOk cnf st₀.maxsize (w.level cnf) (helloItem cnf w.firstEntry) →
      ∃ w', helloStep cnf hd g w nb = some w' ∧ HelloBuild.Wrote cnf hd st₀ g ns a nb w w') ∧
    (¬HelloOk cnf st₀.maxsize (w.level cnf) (helloItem cnf w.firstEntry) → helloStep cnf hd g w nb = none) := by
  by_cases hfull : (w.level cnf).Full (helloItem cnf w.firstEntry)
  · exact h.step_full horig hsized hin hinv hfull
  have hfull' := mt h.full_iff.2 hfull
  have hnext : Filling.next (helloFresh cnf st₀.maxsize) (w.level cnf) (helloItem cnf w.firstEntry) =
      ⟨w.remainsize, w.currSize cnf + (helloItem cnf w.firstEntry).behind⟩ := Filling.next_of_not_full hfull
  unfold helloStep
  rw [if_pos hin, if_neg (mt w.full_iff.1 hfull)]
  constructor
  · rintro ⟨⟨-, hbound⟩, -⟩
    rw [hnext] at hbound
    have hadd := @HelloBuild.Sim.add cnf w a g nb h hsized (le_trans hbound (Nat.sub_le _ _))
    refine ⟨_, HelloBuild.write_eq hbound, ?_, hinv.write horig (fun hf => absurd hf hfull') hsized, hadd.2.1,
      hadd.2.2.trans hnext.symm⟩
    rw [BlockWriter.write, if_neg hfull']
    exact hadd.1
  · intro hok
    refine HelloBuild.write_none fun hbound => hok ⟨⟨fun hf => absurd hf hfull, ?_⟩, fun hf => absurd hf hfull⟩
    rw [hnext]
    exact hbound

/-- The innermost loop writes the neighbours of the group. -/
theorem HelloBuild.Sim.steps (horig : hd.originator.length = cnf.ipsize) : ∀ (l : List HelloNb) {w : HelloBuild}
    {a : BlockWriter} {ns : List HelloNeighbor}, (∀ nb ∈ l, nb.address.length = cnf.ipsize) →
    a.Inv cnf false hd st₀ (createLinkCode g.1 g.2) ns → w.Sim cnf a →
    (Filling.Steps (helloFresh cnf st₀.maxsize) (HelloOk cnf st₀.maxsize) (w.level cnf)
        (helloItems cnf w.firstEntry (l.filter (·.isIn g)).length) →
      ∃ w' a', Run.forEach (helloStep cnf hd g) l w = some w' ∧ w'.Sim cnf a' ∧
        a'.Inv cnf false hd st₀ (createLinkCode g.1 g.2)
          (ns ++ (helloEntries l g).2.map (entryNeighbor cnf false (createLinkCode g.1 g.2))) ∧
        w'.level cnf = (helloItems cnf w.firstEntry (l.filter (·.isIn g)).length).foldl
          (Filling.next (helloFresh cnf st₀.maxsize)) (w.level cnf)) ∧
    (¬Filling.Steps (helloFresh cnf st₀.maxsize) (HelloOk cnf st₀.maxsize) (w.level cnf)
        (helloItems cnf w.firstEntry (l.filter (·.isIn g)).length) → Run.forEach (helloStep cnf hd g) l w = none)
  | [], w, a, ns, _, hinv, h =>
    ⟨fun _ => ⟨w, a, rfl, h, by rwa [helloEntries, List.filter_nil, List.map_nil, List.map_nil, List.append_nil], rfl⟩,
      fun hsteps => absurd trivial hsteps⟩
  | nb :: l, w, a, ns, hsized, hinv, h => by
    have hl := fun nb' hnb' => hsized nb' (List.mem_cons_of_mem nb hnb')
    rw [helloEntries, List.filter_cons, Run.forEach]
    by_cases hin : nb.isIn g = true
    · obtain ⟨hsome, hnone⟩ :=
        @HelloBuild.Sim.step cnf hd st₀ w a ns g nb horig (hsized nb List.mem_cons_self) hin hinv h
      rw [if_pos hin, List.length_cons, helloItems, Filling.Steps]
      by_cases hok : HelloOk cnf st₀.maxsize (w.level cnf) (helloItem cnf w.firstEntry)
      · obtain ⟨w₁, hw₁, h₁, hinv₁, hfirst, hlevel⟩ := hsome hok
        obtain ⟨hrest, hstop⟩ := HelloBuild.Sim.steps horig l hl hinv₁ h₁
        rw [hfirst, hlevel] at hrest hstop
        rw [hw₁, Option.bind_some]
        refine ⟨fun hsteps => ?_, fun hsteps => hstop fun h' => hsteps ⟨hok, h'⟩⟩
        obtain ⟨w', a', hw', h', hinv', hlevel'⟩ := hrest hsteps.2
        refine ⟨w', a', hw', h', ?_, hlevel'⟩
        rw [List.append_assoc] at hinv'
        exact hinv'
      · rw [hnone hok]
        exact ⟨fun hsteps => absurd hsteps.1 hok, fun _ => rfl⟩
    · have hstep : helloStep cnf hd g w nb = some w := by rw [helloStep, if_neg hin]
      rw [if_neg hin, hstep, Option.bind_some]
      exact HelloBuild.Sim.steps horig l hl hinv h

/-- Between two groups all blocks are closed. -/
theorem HelloBuild.Sim.close (h : w.Sim cnf a) (hinv : a.Inv cnf false hd st₀ code ns) (code' : UInt8) :
    ∃ w', (if w.firstEntry then w else { w.setSize with hinfo := w.haddr, haddr := w.haddr + 4 }) = w' ∧
      { w' with firstEntry := true }.Sim cnf { a with fresh := true } ∧
      { a with fresh := true }.Inv cnf false hd st₀ code' ns ∧ w'.level cnf = w.level cnf := by
  refine ⟨_, rfl, ?_, hinv.fresh code', ?_⟩
  · by_cases hfirst : w.firstEntry = true
    · obtain ⟨hbuff, hinfo, haddr⟩ := h.layout.of_fresh (h.first.symm.trans hfirst)
      rw [if_pos hfirst]
      exact ⟨h.st, h.remainsize, h.empty, rfl, .closed rfl hbuff hinfo haddr, h.inBuffer⟩
    · have hend := h.layout.end_eq (h.first.symm.trans (Bool.eq_false_iff.2 hfirst))
      have hbytes := h.layout.setSize
      have hinfo : w.haddr = w.setSize.buff.length := (hend.trans h.layout.length).trans (congrArg _ hbytes).symm
      have hbuffer : w.setSize.currSize cnf ≤ msgBufferSize := by
        rw [HelloBuild.currSize, ← hinfo, hend]
        exact h.inBuffer
      rw [if_neg hfirst]
      exact ⟨h.st, h.remainsize, h.empty, rfl, .closed rfl hbytes hinfo rfl, hbuffer⟩
  · split
    · rfl
    · rw [HelloBuild.level, HelloBuild.level, HelloBuild.currSize, HelloBuild.currSize]
      dsimp only [HelloBuild.setSize]
      rw [h.layout.setSize, ← h.layout.length]

/-- What the neighbours of the groups are in the messages. -/
def groupItems (cnf : Cnf) (nbs : List HelloNb) (groups : List (NeighType × LinkType)) : List Filling.Item :=
  groups.flatMap fun g => helloItems cnf true (nbs.filter (·.isIn g)).length

/-- The loops write the neighbours of the groups. -/
theorem HelloBuild.Sim.groups (horig : hd.originator.length = cnf.ipsize)
    (hsized : ∀ nb ∈ nbs, nb.address.length = cnf.ipsize) : ∀ (groups : List (NeighType × LinkType)) {w : HelloBuild}
    {a : BlockWriter} {code : UInt8} {ns : List HelloNeighbor}, a.Inv cnf false hd st₀ code ns →
    { w with firstEntry := true }.Sim cnf { a with fresh := true } →
    (Filling.Steps (helloFresh cnf st₀.maxsize) (HelloOk cnf st₀.maxsize) (w.level cnf) (groupItems cnf nbs groups) →
      ∃ (w' : HelloBuild) (a' : BlockWriter) (code' : UInt8), Run.forEach (helloGroup cnf hd nbs) groups w = some w' ∧
        { w' with firstEntry := true }.Sim cnf { a' with fresh := true } ∧ a'.Inv cnf false hd st₀ code'
          (ns ++ (groups.map (helloEntries nbs)).flatMap (BlockWriter.groupNeighbors cnf false))) ∧
    (¬Filling.Steps (helloFresh cnf st₀.maxsize) (HelloOk cnf st₀.maxsize) (w.level cnf) (groupItems cnf nbs groups) →
      Run.forEach (helloGroup cnf hd nbs) groups w = none)
  | [], w, a, code, ns, hinv, h =>
    ⟨fun _ => ⟨w, a, code, rfl, h, by simpa using hinv⟩, fun hsteps => absurd trivial hsteps⟩
  | g :: groups, w, a, code, ns, hinv, h => by
    obtain ⟨hsome, hnone⟩ := HelloBuild.Sim.steps horig nbs hsized (hinv.fresh (createLinkCode g.1 g.2)) h
    have hitems : groupItems cnf nbs (g :: groups) =
        helloItems cnf true (nbs.filter (·.isIn g)).length ++ groupItems cnf nbs groups := List.flatMap_cons
    rw [hitems, Filling.steps_append, Run.forEach, helloGroup]
    by_cases hok : Filling.Steps (helloFresh cnf st₀.maxsize) (HelloOk cnf st₀.maxsize) (w.level cnf)
        (helloItems cnf true (nbs.filter (·.isIn g)).length)
    · obtain ⟨w₁, a₁, hw₁, h₁, hinv₁, hlevel₁⟩ := hsome hok
      obtain ⟨w₂, hw₂, h₂, hinv₂, hlevel₂⟩ := h₁.close hinv₁ (createLinkCode g.1 g.2)
      obtain ⟨hrest, hstop⟩ := HelloBuild.Sim.groups horig hsized groups hinv₂ h₂
      rw [hlevel₂, hlevel₁] at hrest hstop
      rw [hw₁, Option.map_some, hw₂, Option.bind_some]
      refine ⟨fun hsteps => ?_, fun hsteps => hstop fun h' => hsteps ⟨hok, h'⟩⟩
      obtain ⟨w', a', code', hw', h', hinv'⟩ := hrest hsteps.2
      rw [List.append_assoc] at hinv'
      exact ⟨w', a', code', hw', h', hinv'⟩
    · rw [hnone hok]
      exact ⟨fun hsteps => absurd hsteps.1 hok, fun _ => rfl⟩

end

/-! ## The round trip -/

section

variable {cnf : Cnf} {message : HelloInfo} {st : Sender}

/-- The neighbours of the groups go out if and only if they find room, behind the headers in what is left of the output
buffer or else in an emptied one. What is in the groups comes back, under their link codes. -/
theorem serializeHello_spec (pair : PairReads) {size : Nat} (groups : List (NeighType × LinkType))
    (horig : cnf.mainAddr.length = cnf.ipsize) (hsized : ∀ nb ∈ message.neighbors, nb.address.length = cnf.ipsize)
    (hpending : st.pending ≤ st.maxsize) (hhdr : helloHdrsize cnf ≤ size) :
    (size ≤ remainsize16 (sendPending (helloHdrsize cnf) st) ∧ Filling.Steps (helloFresh cnf st.maxsize)
        (HelloOk cnf st.maxsize) ⟨remainsize16 (sendPending (helloHdrsize cnf) st), helloHdrsize cnf⟩
        (groupItems cnf message.neighbors groups) →
      ∃ st', serializeHello cnf size groups message st = some st' ∧ RoundTrip cnf pair (helloHead cnf message) st st'
        ((groups.map (helloEntries message.neighbors)).flatMap (BlockWriter.groupNeighbors cnf false))) ∧
    (¬(size ≤ remainsize16 (sendPending (helloHdrsize cnf) st) ∧ Filling.Steps (helloFresh cnf st.maxsize)
        (HelloOk cnf st.maxsize) ⟨remainsize16 (sendPending (helloHdrsize cnf) st), helloHdrsize cnf⟩
        (groupItems cnf message.neighbors groups)) → serializeHello cnf size groups message st = none) := by
  unfold serializeHello
  dsimp only
  by_cases hcheck : size > remainsize16 (sendPending (helloHdrsize cnf) st)
  · rw [if_pos hcheck]
    exact ⟨fun h => absurd h.1 (Nat.not_le.2 hcheck), fun _ => rfl⟩
  have hroom := le_trans hhdr (Nat.le_of_not_lt hcheck)
  have hsent : Sent cnf false (helloHead cnf message) st (sendPending (helloHdrsize cnf) st) [] :=
    ⟨(Pushed.refl hpending).sendPending _, fun _ hBs => (List.not_mem_nil hBs).elim,
      fun _ hBs => (List.not_mem_nil hBs).elim⟩
  have hmod : st.maxsize % 65536 ≤ st.maxsize := Nat.mod_le _ _
  have hinv : (BlockWriter.mk (sendPending (helloHdrsize cnf) st) (remainsize16 (sendPending (helloHdrsize cnf) st))
      (st.maxsize % 65536) [] [] true).Inv cnf false (helloHead cnf message) st 0 [] :=
    ⟨hsent, (remainsize16_add_pending_le hsent.pending).trans_eq hsent.maxsize, hmod,
      ⟨remainsize16_lt _, Nat.mod_lt _ (by decide)⟩, hroom, by simp, fun hf => (by cases hf), rfl⟩
  have hsim : (HelloBuild.mk (sendPending (helloHdrsize cnf) st) (remainsize16 (sendPending (helloHdrsize cnf) st)) []
      0 4 true).Sim cnf ⟨sendPending (helloHdrsize cnf) st, remainsize16 (sendPending (helloHdrsize cnf) st),
        st.maxsize % 65536, [], [], true⟩ :=
    ⟨rfl, rfl, congrArg (· % 65536) hsent.maxsize.symm, rfl, .closed rfl rfl rfl rfl, helloHdrsize_le cnf⟩
  obtain ⟨hsome, hnone⟩ := @HelloBuild.Sim.groups cnf (helloHead cnf message) st message.neighbors horig hsized groups
    ⟨sendPending (helloHdrsize cnf) st, remainsize16 (sendPending (helloHdrsize cnf) st), [], 0, 4, true⟩ _ 0
    [] hinv hsim
  rw [if_neg hcheck]
  constructor
  · rintro ⟨-, hsteps⟩
    obtain ⟨w, a, code, hw, hdone, hinv'⟩ := hsome hsteps
    obtain ⟨hbuff, -, -⟩ := hdone.layout.of_fresh rfl
    refine ⟨_, by rw [hw]; rfl, ?_⟩
    have hst : w.st = a.st := hdone.st
    have hcurr : w.currSize cnf = a.size cnf := hdone.currSize
    dsimp only
    rw [hst, hcurr, show w.buff = _ from hbuff]
    exact hinv'.roundTrip pair horig rfl rfl (List.Perm.of_eq (List.nil_append _))
  · intro hsteps
    rw [hnone fun h => hsteps ⟨Nat.le_of_not_lt hcheck, h⟩]
    rfl

/-- What a receiver makes of a neighbour. -/
def HelloNb.decoded (cnf : Cnf) (nb : HelloNb) : HelloNeighbor :=
  entryNeighbor cnf false (createLinkCode nb.status nb.link) nb.address

theorem HelloNb.decoded_eq {nb : HelloNb} (hsized : nb.address.length = cnf.ipsize) (hlink : nb.link ≠ .hide) :
    nb.decoded cnf = nb.received := by
  obtain ⟨hl, hs⟩ := createLinkCode_extract nb.status hlink
  rw [HelloNb.decoded, entryNeighbor, hl, hs, HelloNb.received, ← hsized, List.take_length]
  rfl

theorem helloNb_isIn_eq (nb : HelloNb) (g : NeighType × LinkType) : nb.isIn g = decide ((nb.status, nb.link) = g) := by
  rw [HelloNb.isIn]
  refine decide_eq_decide.2 ⟨fun h => Prod.ext h.1 h.2, ?_⟩
  rintro rfl
  exact ⟨rfl, rfl⟩

/-- Every neighbour in one of the groups is written once. -/
theorem helloEntries_perm (cnf : Cnf) (nbs : List HelloNb) {groups : List (NeighType × LinkType)} (h : groups.Nodup) :
    ((groups.map (helloEntries nbs)).flatMap (BlockWriter.groupNeighbors cnf false)).Perm
      ((nbs.filter fun nb => (nb.status, nb.link) ∈ groups).map (HelloNb.decoded cnf)) := by
  rw [List.flatMap_map]
  refine (grouped_map_perm (fun nb : HelloNb => (nb.status, nb.link)) (HelloNb.decoded cnf) nbs h fun g _ => ?_).trans
    (List.Perm.of_eq (congrArg _ (List.filter_congr fun _ _ => decide_eq_decide.2 Iff.rfl)))
  have hfilter : nbs.filter (fun nb => decide ((nb.status, nb.link) = g)) = nbs.filter (·.isIn g) :=
    List.filter_congr fun nb _ => (helloNb_isIn_eq nb g).symm
  rw [BlockWriter.groupNeighbors, helloEntries, List.map_map, hfilter]
  refine List.map_congr_left fun nb hnb => ?_
  have hin := (List.mem_filter.1 hnb).2
  rw [helloNb_isIn_eq, decide_eq_true_iff] at hin
  subst hin
  rfl

theorem mem_helloGroups4 (g : NeighType × LinkType) : g ∈ helloGroups4 ↔ g.2 ≠ .hide := by
  obtain ⟨i, j⟩ := g
  cases i <;> cases j <;> decide

theorem mem_helloGroups6 (g : NeighType × LinkType) : g ∈ helloGroups6 := by
  obtain ⟨i, j⟩ := g
  cases i <;> cases j <;> decide

theorem decoded_visible {nbs : List HelloNb} (hsized : ∀ nb ∈ nbs, nb.address.length = cnf.ipsize) :
    (nbs.filter fun nb => nb.link ≠ .hide).map (HelloNb.decoded cnf) =
      (nbs.filter fun nb => nb.link ≠ .hide).map HelloNb.received :=
  List.map_congr_left fun nb hnb => by
    obtain ⟨hmem, hlink⟩ := List.mem_filter.1 hnb
    exact nb.decoded_eq (hsized nb hmem) (of_decide_eq_true hlink)

/-- Without hidden links both functions write the same. -/
theorem groupItems_visible {nbs : List HelloNb} (h : ∀ nb ∈ nbs, nb.link ≠ .hide) :
    groupItems cnf nbs helloGroups6 = groupItems cnf nbs helloGroups4 := by
  have hhidden : ∀ i, nbs.filter (·.isIn (i, .hide)) = [] := fun i =>
    List.filter_eq_nil_iff.2 fun nb hnb hin => h nb hnb (by
      rw [helloNb_isIn_eq, decide_eq_true_iff] at hin
      exact congrArg Prod.snd hin)
  simp [groupItems, helloGroups6, helloGroups4, statuses, links, hhidden, helloItems]

/-- The neighbours whose links are not hidden find room: what is left of the output buffer, or else the emptied one, has
room for the headers, and every neighbour, in the order in which the groups are written, stays within its bounds. -/
structure HelloRoom (cnf : Cnf) (nbs : List HelloNb) (st : Sender) : Prop where
  header : helloHdrsize cnf ≤ remainsize16 (sendPending (helloHdrsize cnf) st)
  neighbors : Filling.Steps (helloFresh cnf st.maxsize) (HelloOk cnf st.maxsize)
    ⟨remainsize16 (sendPending (helloHdrsize cnf) st), helloHdrsize cnf⟩ (groupItems cnf nbs helloGroups4)

instance (cnf : Cnf) (nbs : List HelloNb) (st : Sender) : Decidable (HelloRoom cnf nbs st) :=
  decidable_of_iff (_ ∧ _) ⟨fun h => ⟨h.1, h.2⟩, fun h => ⟨h.header, h.neighbors⟩⟩

theorem mem_helloItems {i : Filling.Item} : ∀ {first : Bool} {n : Nat}, i ∈ helloItems cnf first n →
    ∃ first', i = helloItem cnf first'
  | first, n + 1, h => by
    obtain rfl | h := List.mem_cons.1 h
    · exact ⟨first, rfl⟩
    · exact mem_helloItems h

/-- An output buffer that is twelve bytes smaller than `msg_buffer` and has room for a neighbour has room for all. -/
theorem helloRoom_of_small {nbs : List HelloNb} (hpending : st.pending ≤ st.maxsize)
    (hroom : helloHdrsize cnf + cnf.ipsize + 4 ≤ st.maxsize) (hmax : st.maxsize ≤ msgBufferSize - 12) :
    HelloRoom cnf nbs st := by
  have hpushed : Pushed (helloPart cnf (helloHead cnf ⟨0, 0, 0, 0, []⟩)) st st [] := .refl hpending
  have hle := remainsize16_add_pending_le (hpushed.sendPending (helloHdrsize cnf)).pending
  rw [sendPending_maxsize] at hle
  have hipsize := cnf.ipsize_pos
  have hbound : msgBufferSize - 12 ≤ msgBufferSize - (ipAddrSize - cnf.ipsize) ∧ ipAddrSize - cnf.ipsize ≤ 12 := by
    cases hversion : cnf.ipVersion <;> simp [ipAddrSize, Cnf.ipsize, IpVersion.ipsize, hversion]
  have hsize : msgBufferSize = 1500 := rfl
  have hmod : st.maxsize % 65536 = st.maxsize := Nat.mod_eq_of_lt (by omega)
  have hheader : helloHdrsize cnf ≤ remainsize16 (sendPending (helloHdrsize cnf) st) := by
    have hempty := (remainsize16_netOutput st).trans hmod
    have hhdr := helloHdrsize_le cnf
    rw [sendPending]
    split
    · omega
    · omega
  refine ⟨hheader, Filling.Steps.of_invariant (P := fun p => helloHdrsize cnf ≤ p.used ∧ p.used ≤ p.room ∧
    p.room ≤ st.maxsize) (fun p i hi hp => ?_) ⟨le_rfl, hheader, le_trans (Nat.le_add_right _ _) hle⟩⟩
  obtain ⟨g, -, hi⟩ := List.mem_flatMap.1 hi
  obtain ⟨first, rfl⟩ := mem_helloItems hi
  obtain ⟨hused, hfits, hp⟩ := hp
  by_cases hfull : p.Full (helloItem cnf first)
  · have hnext : Filling.next (helloFresh cnf st.maxsize) p (helloItem cnf first) =
        ⟨st.maxsize % 65536, helloHdrsize cnf + (cnf.ipsize + 4)⟩ := Filling.next_of_full hfull
    refine ⟨⟨⟨fun _ => ?_, ?_⟩, fun _ _ => .inr (by omega)⟩, ?_⟩
    · show helloHdrsize cnf + (cnf.ipsize + 4) ≤ st.maxsize % 65536
      omega
    · rw [hnext]
      dsimp only
      omega
    · rw [hnext]
      dsimp only
      omega
  · have hnext : Filling.next (helloFresh cnf st.maxsize) p (helloItem cnf first) =
        ⟨p.room, p.used + (helloItem cnf first).behind⟩ := Filling.next_of_not_full hfull
    have hroom' : p.used + (helloItem cnf first).behind ≤ p.room := Nat.le_of_not_lt hfull
    refine ⟨⟨⟨fun h => absurd h hfull, ?_⟩, fun h => absurd h hfull⟩, ?_⟩
    · rw [hnext]
      dsimp only
      omega
    · rw [hnext]
      dsimp only
      omega

/-- `serialize_hello4` tells the neighbours whose links are not hidden, if these find room. -/
theorem serializeHello4_spec (pair : PairReads) (hversion : cnf.ipVersion = .inet)
    (horig : cnf.mainAddr.length = cnf.ipsize) (hsized : ∀ nb ∈ message.neighbors, nb.address.length = cnf.ipsize)
    (hpending : st.pending ≤ st.maxsize) :
    (HelloRoom cnf message.neighbors st → ∃ st', serializeHello4 cnf message st = some st' ∧
      RoundTrip cnf pair (helloHead cnf message) st st'
        ((message.neighbors.filter fun nb => nb.link ≠ .hide).map HelloNb.received)) ∧
    (¬HelloRoom cnf message.neighbors st → serializeHello4 cnf message st = none) := by
  obtain ⟨hsome, hnone⟩ := @serializeHello_spec cnf message st pair _ helloGroups4 horig hsized hpending le_rfl
  rw [serializeHello4, if_neg (not_not.2 hversion)]
  refine ⟨fun h => ?_, fun h => hnone fun h' => h ⟨h'.1, h'.2⟩⟩
  obtain ⟨st', hst', hround⟩ := hsome ⟨h.header, h.neighbors⟩
  refine ⟨st', hst', hround.perm ((helloEntries_perm cnf message.neighbors (by decide)).trans (List.Perm.of_eq ?_))⟩
  rw [← decoded_visible hsized]
  exact congrArg _ (List.filter_congr fun nb _ => decide_eq_decide.2 (mem_helloGroups4 _))

/-- `serialize_hello6` tells all neighbours, those with hidden links under another link code, if these find room and the
sanity check finds room for a neighbour in front. -/
theorem serializeHello6_spec (pair : PairReads) (hversion : cnf.ipVersion = .inet6)
    (horig : cnf.mainAddr.length = cnf.ipsize) (hsized : ∀ nb ∈ message.neighbors, nb.address.length = cnf.ipsize)
    (hpending : st.pending ≤ st.maxsize) :
    (helloHdrsize cnf + cnf.ipsize + 4 ≤ remainsize16 (sendPending (helloHdrsize cnf) st) ∧
        Filling.Steps (helloFresh cnf st.maxsize) (HelloOk cnf st.maxsize)
          ⟨remainsize16 (sendPending (helloHdrsize cnf) st), helloHdrsize cnf⟩
          (groupItems cnf message.neighbors helloGroups6) →
      ∃ st', serializeHello6 cnf message st = some st' ∧ RoundTrip cnf pair (helloHead cnf message) st st'
        (message.neighbors.map (HelloNb.decoded cnf))) ∧
    (¬(helloHdrsize cnf + cnf.ipsize + 4 ≤ remainsize16 (sendPending (helloHdrsize cnf) st) ∧
        Filling.Steps (helloFresh cnf st.maxsize) (HelloOk cnf st.maxsize)
          ⟨remainsize16 (sendPending (helloHdrsize cnf) st), helloHdrsize cnf⟩
          (groupItems cnf message.neighbors helloGroups6)) → serializeHello6 cnf message st = none) := by
  obtain ⟨hsome, hnone⟩ :=
    @serializeHello_spec cnf message st pair (helloHdrsize cnf + cnf.ipsize + 4) helloGroups6 horig
    hsized hpending (by omega)
  rw [serializeHello6, if_neg (not_not.2 hversion)]
  refine ⟨fun h => ?_, hnone⟩
  obtain ⟨st', hst', hround⟩ := hsome h
  refine ⟨st', hst', hround.perm ((helloEntries_perm cnf message.neighbors (by decide)).trans (List.Perm.of_eq ?_))⟩
  exact congrArg _ (List.filter_eq_self.2 fun nb _ => decide_eq_true (mem_helloGroups6 _))

/-- For every neighbour list, output buffer and fill level: the two serializers tell the receivers exactly the
neighbours whose links are not hidden if and only if these find room and, for IPv6, no link is hidden and the sanity
check finds room for a neighbour. -/
theorem queueHello_roundTrip_iff (pair : PairReads) (horig : cnf.mainAddr.length = cnf.ipsize)
    (hsized : ∀ nb ∈ message.neighbors, nb.address.length = cnf.ipsize) (hpending : st.pending ≤ st.maxsize) :
    (∃ st', queueHello cnf message st = some st' ∧ RoundTrip cnf pair (helloHead cnf message) st st'
      ((message.neighbors.filter fun nb => nb.link ≠ .hide).map HelloNb.received)) ↔
    HelloRoom cnf message.neighbors st ∧ (cnf.ipVersion = .inet6 → (∀ nb ∈ message.neighbors, nb.link ≠ .hide) ∧
      helloHdrsize cnf + cnf.ipsize + 4 ≤ remainsize16 (sendPending (helloHdrsize cnf) st)) := by
  cases hversion : cnf.ipVersion with
  | inet =>
    have hqueue : queueHello cnf = serializeHello4 cnf := by rw [queueHello, hversion]
    obtain ⟨hsome, hnone⟩ := @serializeHello4_spec cnf message st pair hversion horig hsized hpending
    rw [hqueue]
    constructor
    · rintro ⟨st', hst', -⟩
      refine ⟨by_contra fun hroom => ?_, fun h => (by cases h)⟩
      rw [hnone hroom] at hst'
      cases hst'
    · exact fun h => hsome h.1
  | inet6 =>
    have hqueue : queueHello cnf = serializeHello6 cnf := by rw [queueHello, hversion]
    obtain ⟨hsome, hnone⟩ := @serializeHello6_spec cnf message st pair hversion horig hsized hpending
    rw [hqueue]
    constructor
    · rintro ⟨st', hst', hround⟩
      obtain ⟨hcheck, hsteps⟩ := by_contra fun hroom => by
        rw [hnone hroom] at hst'
        cases hst'
      obtain ⟨st₁, hst₁, hround₁⟩ := hsome ⟨hcheck, hsteps⟩
      obtain rfl := Option.some.inj (hst'.symm.trans hst₁)
      have hlen := hround.length_eq hround₁
      rw [List.length_map, List.length_map, List.length_filter_eq_length_iff] at hlen
      have hvisible : ∀ nb ∈ message.neighbors, nb.link ≠ .hide := fun nb hnb => of_decide_eq_true (hlen nb hnb)
      rw [groupItems_visible hvisible] at hsteps
      exact ⟨⟨by omega, hsteps⟩, fun _ => ⟨hvisible, hcheck⟩⟩
    · rintro ⟨hroom, h⟩
      obtain ⟨hvisible, hcheck⟩ := h rfl
      obtain ⟨st', hst', hround⟩ := hsome ⟨hcheck, (groupItems_visible hvisible).symm ▸ hroom.neighbors⟩
      refine ⟨st', hst', ?_⟩
      have hall : message.neighbors.filter (fun nb => nb.link ≠ .hide) = message.neighbors :=
        List.filter_eq_self.2 fun nb hnb => decide_eq_true (hvisible nb hnb)
      rw [← decoded_visible hsized, hall]
      exact hround

end

def ipv6Addr (n : UInt8) : IpAddr := [0xfd] ++ List.replicate 14 0 ++ [n]

def ipv6Cnf : Cnf := { ipVersion := .inet6, mainAddr := ipv6Addr 1, lqLevel := 0, denyEntries := [] }

def helloInfo (neighbors : List HelloNb) : HelloInfo where
  ttl := 1
  willingness := 3
  vtime := 0x86
  htime := 0x05
  neighbors

/-- Three neighbours of two groups and one with a hidden link, in an output buffer with room for two. -/
def fourNbs : List HelloNb :=
  [⟨[10, 0, 0, 2], .symNeigh, .sym⟩, ⟨[10, 0, 0, 3], .symNeigh, .hide⟩, ⟨[10, 0, 0, 4], .mprNeigh, .sym⟩,
    ⟨[10, 0, 0, 5], .symNeigh, .sym⟩]

/-- IPv4 tells all but the hidden link, in two messages. -/
theorem queueHello_roundTrip_ipv4 :
    ∃ st', queueHello ipv4Cnf (helloInfo fourNbs) ⟨20, 40, 5, []⟩ = some st' ∧
      RoundTrip ipv4Cnf .firstTwo (helloHead ipv4Cnf (helloInfo fourNbs)) ⟨20, 40, 5, []⟩ st'
        [⟨[10, 0, 0, 2], 2, 1, none⟩, ⟨[10, 0, 0, 4], 2, 2, none⟩, ⟨[10, 0, 0, 5], 2, 1, none⟩] :=
  (@queueHello_roundTrip_iff ipv4Cnf (helloInfo fourNbs) ⟨20, 40, 5, []⟩ .firstTwo rfl (by decide) (by decide)).2
    (by decide)

/-- IPv6 tells the hidden link, as one without a type to a symmetric neighbour. In an output buffer with room for 371
neighbours in one message, IPv4 writes some of them behind the end of `msg_buffer`. -/
theorem not_queueHello_roundTrip :
    ((∃ st', queueHello ipv6Cnf (helloInfo [⟨ipv6Addr 2, .symNeigh, .hide⟩]) ⟨0, 1452, 5, []⟩ = some st' ∧
      RoundTrip ipv6Cnf .firstTwo (helloHead ipv6Cnf (helloInfo [⟨ipv6Addr 2, .symNeigh, .hide⟩])) ⟨0, 1452, 5, []⟩ st'
        [⟨ipv6Addr 2, 0, 1, none⟩]) ∧
      ¬ ∃ st', queueHello ipv6Cnf (helloInfo [⟨ipv6Addr 2, .symNeigh, .hide⟩]) ⟨0, 1452, 5, []⟩ = some st' ∧
        RoundTrip ipv6Cnf .firstTwo (helloHead ipv6Cnf (helloInfo [⟨ipv6Addr 2, .symNeigh, .hide⟩])) ⟨0, 1452, 5, []⟩
          st' []) ∧
    queueHello ipv4Cnf (helloInfo (List.replicate 371 ⟨[10, 0, 0, 2], .symNeigh, .sym⟩)) ⟨0, 8968, 5, []⟩ = none := by
  constructor
  · obtain ⟨st₁, hst₁, hround₁⟩ := (@serializeHello6_spec ipv6Cnf (helloInfo [⟨ipv6Addr 2, .symNeigh, .hide⟩])
      ⟨0, 1452, 5, []⟩ .firstTwo rfl rfl (by decide) (by decide)).1 (by decide)
    refine ⟨⟨st₁, hst₁, hround₁⟩, ?_⟩
    rintro ⟨st', hst', hround⟩
    obtain rfl := Option.some.inj (hst'.symm.trans hst₁)
    exact absurd (hround.length_eq hround₁) (by decide)
  · refine (serializeHello4_spec .firstTwo rfl rfl (fun nb hnb => ?_) (by decide)).2 (by decide +kernel)
    rw [List.eq_of_mem_replicate hnb]
    rfl

end Olsrd.Message
