/-
HELLO messages as their encoders leave them: a header and link blocks, each a link code, a reserved byte, its
size and its neighbours. `deserialize_hello` gives back the neighbours of the blocks, last one first.
-/
import Olsrd.Packet.Decoders
import Olsrd.Message.Pushed

namespace Olsrd.Message

open Bytes
open Olsrd.Topology (u16Bytes Holds Sender)

/-! ## Link codes -/

inductive LinkType
  | unspec
  | asym
  | sym
  | lost
  | hide
  deriving DecidableEq, Repr

/-- `UNSPEC_LINK` to `HIDE_LINK` -/
def LinkType.code : LinkType → Nat
  | .unspec => 0
  | .asym => 1
  | .sym => 2
  | .lost => 3
  | .hide => 4

inductive NeighType
  | notNeigh
  | symNeigh
  | mprNeigh
  deriving DecidableEq, Repr

/-- `NOT_NEIGH` to `MPR_NEIGH` -/
def NeighType.code : NeighType → Nat
  | .notNeigh => 0
  | .symNeigh => 1
  | .mprNeigh => 2

/-- `CREATE_LINK_CODE` -/
def createLinkCode (status : NeighType) (link : LinkType) : UInt8 :=
  UInt8.ofNat (link.code ||| status.code <<< 2)

/-- The link code tells link type and neighbour type apart, but for a hidden link. -/
theorem createLinkCode_extract (status : NeighType) {link : LinkType} (h : link ≠ .hide) :
    (createLinkCode status link).toNat % 4 = link.code ∧ (createLinkCode status link).toNat / 4 % 4 = status.code := by
  cases status <;> cases link <;> first | exact absurd rfl h | decide

/-! ## Headers and blocks -/

/-- What the messages of one HELLO have in common, times encoded. -/
structure HelloHead where
  type : UInt8
  vtime : UInt8
  originator : IpAddr
  ttl : UInt8
  hops : UInt8
  htime : UInt8
  willingness : UInt8

/-- A message with the size its header tells. -/
def helloBytes (hd : HelloHead) (seqno : UInt16) (size : Nat) (blocks : List UInt8) : List UInt8 :=
  [hd.type, hd.vtime] ++ u16Bytes size ++ hd.originator ++ [hd.ttl, hd.hops] ++ u16Bytes seqno.toNat ++
    [0, 0, hd.htime, hd.willingness] ++ blocks

theorem length_helloBytes (hd : HelloHead) (seqno : UInt16) (size : Nat) (blocks : List UInt8) :
    (helloBytes hd seqno size blocks).length = 12 + hd.originator.length + blocks.length := by
  simp [helloBytes, u16Bytes]
  omega

/-- A link block: the bytes of each of its neighbours. -/
structure LinkBlock where
  linkCode : UInt8
  entries : List (List UInt8)

def LinkBlock.size (B : LinkBlock) : Nat := 4 + B.entries.flatten.length

def LinkBlock.bytes (B : LinkBlock) : List UInt8 :=
  [B.linkCode, 0] ++ u16Bytes B.size ++ B.entries.flatten

def blocksBytes (Bs : List LinkBlock) : List UInt8 := Bs.flatMap LinkBlock.bytes

theorem blocksBytes_append (Bs Bs' : List LinkBlock) : blocksBytes (Bs ++ Bs') = blocksBytes Bs ++ blocksBytes Bs' :=
  List.flatMap_append

theorem blocksBytes_singleton (B : LinkBlock) : blocksBytes [B] = B.bytes := List.append_nil _

theorem length_linkBlock (B : LinkBlock) : B.bytes.length = B.size := by
  simp [LinkBlock.bytes, LinkBlock.size, u16Bytes]
  omega

/-- The neighbour that `deserialize_hello` makes of the bytes of an entry. -/
def entryNeighbor (cnf : Cnf) (lq : Bool) (linkCode : UInt8) (entry : List UInt8) : HelloNeighbor where
  address := entry.take cnf.ipsize
  link := linkCode.toNat % 4
  status := linkCode.toNat / 4 % 4
  linkquality := if lq then some (entry.drop cnf.ipsize) else none

def LinkBlock.neighbors (cnf : Cnf) (lq : Bool) (B : LinkBlock) : List HelloNeighbor :=
  B.entries.map (entryNeighbor cnf lq B.linkCode)

def blocksNeighbors (cnf : Cnf) (lq : Bool) (Bs : List LinkBlock) : List HelloNeighbor :=
  Bs.flatMap (LinkBlock.neighbors cnf lq)

theorem blocksNeighbors_append (cnf : Cnf) (lq : Bool) (Bs Bs' : List LinkBlock) :
    blocksNeighbors cnf lq (Bs ++ Bs') = blocksNeighbors cnf lq Bs ++ blocksNeighbors cnf lq Bs' := List.flatMap_append

theorem blocksNeighbors_singleton (cnf : Cnf) (lq : Bool) (linkCode : UInt8) (entries : List (List UInt8)) :
    blocksNeighbors cnf lq [⟨linkCode, entries⟩] = entries.map (entryNeighbor cnf lq linkCode) := List.append_nil _

/-- Entries have the size of an address and, in an LQ_HELLO, a link quality. -/
def entrySize (cnf : Cnf) (lq : Bool) : Nat := cnf.ipsize + if lq then 4 else 0

def LinkBlock.Sized (cnf : Cnf) (lq : Bool) (B : LinkBlock) : Prop :=
  ∀ e ∈ B.entries, e.length = entrySize cnf lq

/-! ## Decoding -/

section

variable {cnf : Cnf} (pair : PairReads) {msg : Mem} {lq : Bool}

theorem helloNeighbor_entry (linkCode : UInt8) (pre post : List UInt8) {entry : List UInt8} {c : Cursor}
    (hc : c.curr = pre.length) (hentry : entry.length = entrySize cnf lq) (h : Holds msg (pre ++ (entry ++ post))) :
    (helloNeighbor cnf pair msg lq linkCode c).1 = entryNeighbor cnf lq linkCode entry ∧
      (helloNeighbor cnf pair msg lq linkCode c).2.curr = pre.length + entry.length := by
  have hsplit : entry.take cnf.ipsize ++ entry.drop cnf.ipsize = entry := List.take_append_drop ..
  have htake : (entry.take cnf.ipsize).length = cnf.ipsize := by
    rw [List.length_take, hentry, entrySize]
    omega
  have haddr : msg.slice c.curr cnf.ipsize = entry.take cnf.ipsize := by
    have hs := Holds.slice pre (entry.take cnf.ipsize) (entry.drop cnf.ipsize ++ post)
      (by rwa [← List.append_assoc (entry.take _), hsplit])
    rwa [htake, ← hc] at hs
  refine ⟨?_, by rw [helloNeighbor_curr, hc, hentry]; rfl⟩
  cases lq with
  | false => simp only [helloNeighbor, pktGetIpaddress, haddr, entryNeighbor, Bool.false_eq_true, if_false]
  | true =>
    have hdrop : (entry.drop cnf.ipsize).length = 4 := by
      rw [List.length_drop, hentry]
      simp [entrySize]
    have hqual : msg.slice (c.curr + cnf.ipsize) 4 = entry.drop cnf.ipsize := by
      have hs := Holds.slice (pre ++ entry.take cnf.ipsize) (entry.drop cnf.ipsize) post
        (by rwa [List.append_assoc, ← List.append_assoc (entry.take _), hsplit])
      rwa [List.length_append, htake, hdrop, ← hc] at hs
    simp only [helloNeighbor, pktGetIpaddress, deserializeLqPair, haddr, entryNeighbor, if_true, Prod.map,
      Cursor.get_curr, hqual, id]

theorem helloBlock_entries (linkCode : UInt8) (post : List UInt8) : ∀ (entries : List (List UInt8)) (pre : List UInt8)
    {c : Cursor} {limit2 : Nat} (ns : List HelloNeighbor), c.curr = pre.length →
    limit2 = pre.length + entries.flatten.length → (∀ e ∈ entries, e.length = entrySize cnf lq) →
    Holds msg (pre ++ (entries.flatten ++ post)) →
    (helloBlock cnf pair msg lq linkCode limit2 c ns).1 =
        (entries.map (entryNeighbor cnf lq linkCode)).reverse ++ ns ∧
      (helloBlock cnf pair msg lq linkCode limit2 c ns).2.curr = limit2
  | [], pre, c, limit2, ns, hc, hlimit, _, _ => by
    rw [List.flatten_nil, List.length_nil, Nat.add_zero] at hlimit
    rw [helloBlock, if_neg (by omega)]
    exact ⟨rfl, hc.trans hlimit.symm⟩
  | e :: entries, pre, c, limit2, ns, hc, hlimit, hsized, h => by
    have he := hsized e (List.mem_cons_self ..)
    have hpos := cnf.ipsize_pos
    rw [List.flatten_cons, List.append_assoc] at h
    rw [List.flatten_cons, List.length_append] at hlimit
    obtain ⟨hneigh, hcurr⟩ := helloNeighbor_entry pair linkCode pre _ hc he h
    have hlimit' : limit2 = (pre ++ e).length + entries.flatten.length := by
      rw [hlimit, List.length_append]
      omega
    rw [helloBlock, if_pos (by rw [hlimit, hc, he, entrySize]; omega)]
    obtain ⟨hns, hend⟩ := helloBlock_entries linkCode post entries (pre ++ e) (entryNeighbor cnf lq linkCode e :: ns)
      (by rw [hcurr, List.length_append]) hlimit' (fun e' he' => hsized e' (List.mem_cons_of_mem _ he'))
      (by rwa [List.append_assoc])
    dsimp only
    rw [hneigh]
    refine ⟨hns.trans ?_, hend⟩
    rw [List.map_cons, List.reverse_cons, List.append_assoc]
    rfl

theorem helloLink_block {B : LinkBlock} (hsized : B.Sized cnf lq) (hsize : B.size < 65536) (pre post : List UInt8)
    {c : Cursor} (ns : List HelloNeighbor) (hc : c.curr = pre.length) (h : Holds msg (pre ++ (B.bytes ++ post))) :
    (helloLink cnf pair msg lq c ns).1 = (B.neighbors cnf lq).reverse ++ ns ∧
      (helloLink cnf pair msg lq c ns).2.curr = pre.length + B.size := by
  have hcode : msg c.curr = B.linkCode := by
    rw [hc]
    exact Holds.byte pre B.linkCode ([0] ++ u16Bytes B.size ++ B.entries.flatten ++ post)
      (by simpa [LinkBlock.bytes] using h)
  have hsize2 : msg.u16 (c.curr + 2) = B.size := by
    rw [hc]
    simpa using Holds.u16 (pre ++ [B.linkCode, 0]) (B.entries.flatten ++ post) hsize
      (by simpa [LinkBlock.bytes] using h)
  have hcurr : (((c.get 1).ignore 1).get 2).curr = (pre ++ ([B.linkCode, 0] ++ u16Bytes B.size)).length := by
    simp [hc, u16Bytes]
  have hlimit : c.curr + B.size = (pre ++ ([B.linkCode, 0] ++ u16Bytes B.size)).length + B.entries.flatten.length := by
    simp [hc, u16Bytes, LinkBlock.size]
    omega
  have hblock := helloBlock_entries pair B.linkCode post B.entries _ ns hcurr hlimit hsized
    (by simpa [LinkBlock.bytes] using h)
  unfold helloLink pktGetU8 pktGetU16
  dsimp only [Cursor.ignore_curr, Cursor.get_curr]
  rw [hcode, hsize2, ← hc]
  exact hblock

theorem helloLinks_blocks (post : List UInt8) : ∀ (Bs : List LinkBlock) (pre : List UInt8) {c : Cursor} {limit : Nat}
    (ns : List HelloNeighbor), c.curr = pre.length → limit = pre.length + (blocksBytes Bs).length →
    (∀ B ∈ Bs, B.Sized cnf lq ∧ B.size < 65536) → Holds msg (pre ++ (blocksBytes Bs ++ post)) →
    (helloLinks cnf pair msg lq limit c ns).1 = (blocksNeighbors cnf lq Bs).reverse ++ ns
  | [], pre, c, limit, ns, hc, hlimit, _, _ => by
    rw [helloLinks, if_neg (by simp [hlimit, hc, blocksBytes])]
    rfl
  | B :: Bs, pre, c, limit, ns, hc, hlimit, hBs, h => by
    obtain ⟨hsized, hsize⟩ := hBs B (List.mem_cons_self ..)
    have hcons : blocksBytes (B :: Bs) = B.bytes ++ blocksBytes Bs := List.flatMap_cons
    rw [hcons, List.append_assoc] at h
    rw [hcons, List.length_append, length_linkBlock] at hlimit
    obtain ⟨hns, hcurr⟩ := helloLink_block pair hsized hsize pre _ ns hc h
    have hpos : 0 < B.size := by
      rw [LinkBlock.size]
      omega
    have hlimit' : limit = (pre ++ B.bytes).length + (blocksBytes Bs).length := by
      rw [hlimit, List.length_append, length_linkBlock]
      omega
    rw [helloLinks, if_pos (by omega)]
    have hrest := helloLinks_blocks post Bs (pre ++ B.bytes) (helloLink cnf pair msg lq c ns).1
      (by rw [hcurr, List.length_append, length_linkBlock]) hlimit'
      (fun B' hB' => hBs B' (List.mem_cons_of_mem _ hB')) (by rwa [List.append_assoc])
    dsimp only
    rw [hrest, hns]
    simp [blocksNeighbors]

theorem size_le_blocksBytes {B : LinkBlock} : ∀ {Bs : List LinkBlock}, B ∈ Bs → B.size ≤ (blocksBytes Bs).length
  | B' :: Bs, h => by
    have hcons : blocksBytes (B' :: Bs) = B'.bytes ++ blocksBytes Bs := List.flatMap_cons
    rw [hcons, List.length_append, length_linkBlock]
    obtain rfl | h := List.mem_cons.1 h
    · omega
    · have := size_le_blocksBytes h
      omega

/-- What a receiver makes of a HELLO is the neighbours of its blocks. -/
theorem deserializeHello_bytes {hd : HelloHead} {seqno : UInt16} {size : Nat} {Bs : List LinkBlock}
    (horig : hd.originator.length = cnf.ipsize) (htype : hd.type.toNat = if lq then lqHelloMessage else helloMessage)
    (hBs : ∀ B ∈ Bs, B.Sized cnf lq) (hsize : size = 12 + cnf.ipsize + (blocksBytes Bs).length) (hsmall : size < 65536)
    (h : Holds msg (helloBytes hd seqno size (blocksBytes Bs))) :
    (deserializeHello cnf pair msg).1.map HelloMessage.neighbors = some (blocksNeighbors cnf lq Bs).reverse := by
  -- the fields in front of the link blocks
  let pre := [hd.type, hd.vtime] ++ u16Bytes size ++ hd.originator ++ [hd.ttl, hd.hops] ++ u16Bytes seqno.toNat ++
    [0, 0, hd.htime, hd.willingness]
  have hpre : pre.length = 12 + cnf.ipsize := by
    simp [pre, u16Bytes, horig]
    omega
  have hbytes : helloBytes hd seqno size (blocksBytes Bs) = pre ++ (blocksBytes Bs ++ []) := by
    rw [List.append_nil]
    rfl
  have htype0 : msg 0 = hd.type :=
    Holds.byte [] hd.type (hd.vtime :: (u16Bytes size ++ hd.originator ++ [hd.ttl, hd.hops] ++
      u16Bytes seqno.toNat ++ [0, 0, hd.htime, hd.willingness] ++ blocksBytes Bs)) (by simpa [helloBytes] using h)
  have hsize2 : msg.u16 2 = size :=
    Holds.u16 [hd.type, hd.vtime] (hd.originator ++ [hd.ttl, hd.hops] ++ u16Bytes seqno.toNat ++
      [0, 0, hd.htime, hd.willingness] ++ blocksBytes Bs) hsmall (by simpa [helloBytes] using h)
  have hlq : (hd.type.toNat == lqHelloMessage) = lq := by
    cases lq <;> simp [htype, helloMessage, lqHelloMessage]
  have hknown : ¬ (hd.type.toNat ≠ helloMessage ∧ hd.type.toNat ≠ lqHelloMessage) := by
    cases lq <;> simp [htype, helloMessage, lqHelloMessage]
  have hblocks : ∀ B ∈ Bs, B.Sized cnf lq ∧ B.size < 65536 := fun B hB =>
    ⟨hBs B hB, by have := size_le_blocksBytes hB; omega⟩
  unfold deserializeHello
  simp only [pktGetU8, pktGetU16, pktGetReltime, pktGetIpaddress, Cursor.start_curr, Cursor.get_curr,
    Cursor.ignore_curr, htype0, if_neg hknown, hlq, Nat.zero_add, hsize2, Option.map_some, Option.some.injEq]
  rw [helloLinks_blocks pair [] Bs pre [] (by simp [hpre]; omega) (by rw [hpre, hsize]) hblocks (by rwa [← hbytes]),
    List.append_nil]

end

/-! ## The work buffer -/

/-- A 16 bit field of the buffer is set. -/
def setU16 (buff : List UInt8) (off n : Nat) : List UInt8 :=
  (buff.set off (UInt8.ofNat (n / 256))).set (off + 1) (UInt8.ofNat n)

theorem setU16_append (pre post : List UInt8) (x y : UInt8) (n : Nat) :
    setU16 (pre ++ (x :: y :: post)) pre.length n = pre ++ (u16Bytes n ++ post) := by
  simp [setU16, u16Bytes, List.set_append_right]

/-- The buffer holds the blocks `Bs` and then block `B`, which begins at `off` and whose size need not be set. -/
structure OpenAt (buff : List UInt8) (off : Nat) (Bs : List LinkBlock) (B : LinkBlock) : Prop where
  off_eq : off = (blocksBytes Bs).length
  bytes : ∃ x y, buff = blocksBytes Bs ++ ([B.linkCode, 0, x, y] ++ B.entries.flatten)

theorem openAt_closed (Bs : List LinkBlock) (B : LinkBlock) :
    OpenAt (blocksBytes (Bs ++ [B])) (blocksBytes Bs).length Bs B :=
  ⟨rfl, UInt8.ofNat (B.size / 256), UInt8.ofNat B.size, by rw [blocksBytes_append, blocksBytes_singleton]; rfl⟩

theorem openAt_new (Bs : List LinkBlock) (linkCode : UInt8) :
    OpenAt (blocksBytes Bs ++ [linkCode, 0, 0, 0]) (blocksBytes Bs).length Bs ⟨linkCode, []⟩ :=
  ⟨rfl, 0, 0, rfl⟩

theorem OpenAt.add {buff : List UInt8} {off : Nat} {Bs : List LinkBlock} {B : LinkBlock} (h : OpenAt buff off Bs B)
    (entry : List UInt8) : OpenAt (buff ++ entry) off Bs { B with entries := B.entries ++ [entry] } := by
  obtain ⟨hoff, x, y, rfl⟩ := h
  exact ⟨hoff, x, y, by simp⟩

theorem OpenAt.length {buff : List UInt8} {off : Nat} {Bs : List LinkBlock} {B : LinkBlock} (h : OpenAt buff off Bs B) :
    buff.length = off + B.size := by
  obtain ⟨rfl, x, y, rfl⟩ := h
  simp [LinkBlock.size]
  omega

/-- Setting its size closes the block. -/
theorem OpenAt.close {buff : List UInt8} {off : Nat} {Bs : List LinkBlock} {B : LinkBlock} (h : OpenAt buff off Bs B) :
    setU16 buff (off + 2) B.size = blocksBytes (Bs ++ [B]) := by
  obtain ⟨rfl, x, y, rfl⟩ := h
  have hset := setU16_append (blocksBytes Bs ++ [B.linkCode, 0]) B.entries.flatten x y B.size
  rw [List.length_append] at hset
  rw [blocksBytes_append, blocksBytes_singleton]
  simpa [LinkBlock.bytes] using hset

/-! ## Grouping -/

/-- Taking the members of a list by their keys, one key after the other, takes each once. -/
theorem grouped_perm {N K : Type} [DecidableEq K] (key : N → K) (l : List N) : ∀ {groups : List K}, groups.Nodup →
    (groups.flatMap fun g => l.filter fun n => key n = g).Perm (l.filter fun n => key n ∈ groups)
  | [], _ => by simp
  | g :: groups, h => by
    obtain ⟨hg, hnodup⟩ := List.nodup_cons.1 h
    have hsplit := List.filter_append_perm (fun n => decide (key n = g)) (l.filter fun n => key n ∈ g :: groups)
    rw [List.filter_filter, List.filter_filter] at hsplit
    rw [List.flatMap_cons]
    refine List.Perm.trans (List.Perm.append (List.Perm.of_eq ?_) ((grouped_perm key l hnodup).trans
      (List.Perm.of_eq ?_))) hsplit
    · refine List.filter_congr fun n _ => ?_
      by_cases hn : key n = g <;> simp [hn]
    · refine List.filter_congr fun n _ => ?_
      by_cases hn : key n = g
      · simp [hn, hg]
      · simp [hn]

theorem grouped_map_perm {N K M : Type} [DecidableEq K] (key : N → K) (f : N → M) (l : List N) {groups : List K}
    (h : groups.Nodup) {F : K → List M} (hF : ∀ g ∈ groups, F g = (l.filter fun n => key n = g).map f) :
    (groups.flatMap F).Perm ((l.filter fun n => key n ∈ groups).map f) := by
  have hmap := (grouped_perm key l h).map f
  rw [List.map_flatMap] at hmap
  exact (List.Perm.of_eq (List.flatMap_congr hF)).trans hmap

/-! ## What was sent -/

/-- The next message is numbered and pushed. -/
def putHello (st : Sender) (hd : HelloHead) (size : Nat) (blocks : List UInt8) : Sender :=
  pushNumbered st fun seqno => helloBytes hd seqno size blocks

/-- The message with the blocks `Bs`. -/
def helloPart (cnf : Cnf) (hd : HelloHead) (seqno : UInt16) (Bs : List LinkBlock) : List UInt8 :=
  helloBytes hd seqno (12 + cnf.ipsize + (blocksBytes Bs).length) (blocksBytes Bs)

/-- From `st` on the messages with the blocks of `parts` have been pushed. -/
structure Sent (cnf : Cnf) (lq : Bool) (hd : HelloHead) (st st' : Sender) (parts : List (List LinkBlock)) : Prop
    extends Pushed (helloPart cnf hd) st st' parts where
  sized : ∀ Bs ∈ parts, ∀ B ∈ Bs, B.Sized cnf lq
  small : ∀ Bs ∈ parts, 12 + cnf.ipsize + (blocksBytes Bs).length < 65536

section

variable {cnf : Cnf} {lq : Bool} {hd : HelloHead} {st st' : Sender} {parts : List (List LinkBlock)}

theorem length_helloPart (horig : hd.originator.length = cnf.ipsize) (Bs : List LinkBlock) (seqno : UInt16) :
    (helloPart cnf hd seqno Bs).length = 12 + cnf.ipsize + (blocksBytes Bs).length := by
  rw [helloPart, length_helloBytes, horig]

theorem Sent.refl (hpending : st.pending ≤ st.maxsize) : Sent cnf lq hd st st [] :=
  ⟨.refl hpending, fun _ hBs => (List.not_mem_nil hBs).elim, fun _ hBs => (List.not_mem_nil hBs).elim⟩

theorem Sent.put (h : Sent cnf lq hd st st' parts) (horig : hd.originator.length = cnf.ipsize) {Bs : List LinkBlock}
    (hBs : ∀ B ∈ Bs, B.Sized cnf lq) {size : Nat} (hsize : size = 12 + cnf.ipsize + (blocksBytes Bs).length)
    (hfits : st'.pending + size ≤ st'.maxsize) (hsmall : size < 65536) :
    Sent cnf lq hd st (putHello st' hd size (blocksBytes Bs)) (parts ++ [Bs]) := by
  subst hsize
  obtain ⟨hpushed, -⟩ := h.toPushed.put (fun _ => rfl) (length_helloPart horig Bs) hfits
  refine ⟨hpushed, fun Bs' hBs' => ?_, fun Bs' hBs' => ?_⟩
  · obtain hBs' | hBs' := List.mem_append.1 hBs'
    · exact h.sized Bs' hBs'
    · rwa [List.mem_singleton.1 hBs']
  · obtain hBs' | hBs' := List.mem_append.1 hBs'
    · exact h.small Bs' hBs'
    · rwa [List.mem_singleton.1 hBs']

theorem Sent.output (h : Sent cnf lq hd st st' parts) : Sent cnf lq hd st st'.netOutput parts :=
  ⟨h.toPushed.output, h.sized, h.small⟩

/-- The neighbours that a receiver finds in a run of messages. -/
def receivedNeighbors (cnf : Cnf) (pair : PairReads) (msgs : List Mem) : List HelloNeighbor :=
  msgs.flatMap fun m => ((deserializeHello cnf pair m).1.map HelloMessage.neighbors).getD []

theorem received_perm (pair : PairReads) (horig : hd.originator.length = cnf.ipsize)
    (htype : hd.type.toNat = if lq then lqHelloMessage else helloMessage) : ∀ (parts : List (List LinkBlock))
    (seqno : UInt16) {msgs : List Mem}, (∀ Bs ∈ parts, 12 + cnf.ipsize + (blocksBytes Bs).length < 65536) →
    (∀ Bs ∈ parts, ∀ B ∈ Bs, B.Sized cnf lq) → List.Forall₂ Holds msgs (numbered (helloPart cnf hd) seqno parts) →
    (receivedNeighbors cnf pair msgs).Perm (parts.flatMap (blocksNeighbors cnf lq))
  | [], _, msgs, _, _, h => by
    cases h
    exact List.Perm.refl _
  | Bs :: parts, seqno, msgs, hfits, hsized, h => by
    rw [numbered] at h
    cases h with
    | cons hmsg hmsgs =>
      have hdec := deserializeHello_bytes pair horig htype (hsized Bs (List.mem_cons_self ..)) rfl
        (hfits Bs (List.mem_cons_self ..)) hmsg
      have hrest := received_perm pair horig htype parts (seqno + 1)
        (fun Bs' h' => hfits Bs' (List.mem_cons_of_mem _ h'))
        (fun Bs' h' => hsized Bs' (List.mem_cons_of_mem _ h')) hmsgs
      rw [receivedNeighbors, List.flatMap_cons, hdec, List.flatMap_cons]
      exact (List.reverse_perm _).append hrest

end

/-! ## The round trip -/

/-- The size field of the message is its length, and it consists of link blocks, whose size fields are their
lengths by `length_linkBlock`. -/
def Framed (hd : HelloHead) (msg : List UInt8) : Prop :=
  ∃ seqno Bs, msg = helloBytes hd seqno msg.length (blocksBytes Bs)

/-- The messages pushed between `st` and `st'` fit the buffer, none of them was dropped, their sizes are right, and
whoever decodes them, whatever lies behind them in memory, finds the neighbours `expected`, each once. -/
structure RoundTrip (cnf : Cnf) (pair : PairReads) (hd : HelloHead) (st st' : Sender) (expected : List HelloNeighbor) :
    Prop extends AllFit st st' where
  framed : ∀ msg ∈ newMessages st st', Framed hd msg
  neighbors : ∀ msgs, List.Forall₂ Holds msgs (newMessages st st') →
    (receivedNeighbors cnf pair msgs).Perm expected

section

variable {cnf : Cnf} {pair : PairReads} {lq : Bool} {hd : HelloHead} {st st' : Sender} {parts : List (List LinkBlock)}
  {expected expected' : List HelloNeighbor}

theorem RoundTrip.perm (h : RoundTrip cnf pair hd st st' expected) (hperm : expected.Perm expected') :
    RoundTrip cnf pair hd st st' expected' :=
  { h with neighbors := fun msgs hmsgs => (h.neighbors msgs hmsgs).trans hperm }

/-- Receivers do not find two different numbers of neighbours. -/
theorem RoundTrip.length_eq (h : RoundTrip cnf pair hd st st' expected) (h' : RoundTrip cnf pair hd st st' expected') :
    expected.length = expected'.length := by
  have hmsgs := Topology.forall₂_holds_memOf (newMessages st st')
  exact (h.neighbors _ hmsgs).length_eq.symm.trans (h'.neighbors _ hmsgs).length_eq

theorem Sent.roundTrip (h : Sent cnf lq hd st st' parts) (pair : PairReads) (horig : hd.originator.length = cnf.ipsize)
    (htype : hd.type.toNat = if lq then lqHelloMessage else helloMessage)
    (hexpected : (parts.flatMap (blocksNeighbors cnf lq)).Perm expected) : RoundTrip cnf pair hd st st' expected := by
  have hnew := h.toPushed.newMessages
  refine ⟨h.toPushed.allFit, fun msg hmsg => ?_, fun msgs hmsgs => ?_⟩
  · rw [hnew] at hmsg
    obtain ⟨seqno, Bs, -, rfl⟩ := mem_numbered hmsg
    exact ⟨seqno, Bs, by rw [length_helloPart horig]; rfl⟩
  · rw [hnew] at hmsgs
    exact (received_perm pair horig htype parts st.messageSeqno h.small h.sized hmsgs).trans hexpected

end

end Olsrd.Message
