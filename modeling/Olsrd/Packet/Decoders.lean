/-
The decoders of HELLO, MID and HNA messages: `deserialize_hello` of `process_package.c`,
`mid_chgestruct` of `rebuild_packet.c` and the record loop of `olsr_input_hna` of `hna_set.c`, with
the bytes each of them reads. What the node does with a decoded HNA record is not part of this.
-/
import Olsrd.Packet.Cursor

namespace Olsrd

open Bytes

def helloMessage : Nat := 1
def midMessage : Nat := 3
def hnaMessage : Nat := 4
def lqHelloMessage : Nat := 201

/-! ## HELLO -/

/-- `struct hello_neighbor` -/
structure HelloNeighbor where
  address : IpAddr
  link : Nat
  status : Nat
  linkquality : Option (List UInt8)
  deriving DecidableEq, Repr

/-- `struct hello_message`; the neighbours are in the order of the list, last decoded first. -/
structure HelloMessage where
  vtime : Nat
  sourceAddr : IpAddr
  ttl : UInt8
  hopCount : UInt8
  packetSeqNumber : Nat
  htime : Nat
  willingness : UInt8
  neighbors : List HelloNeighbor
  deriving DecidableEq, Repr

/-- One neighbour of a link block. -/
def helloNeighbor (cnf : Cnf) (pair : PairReads) (msg : Mem) (lq : Bool) (linkCode : UInt8) (c : Cursor) :
    HelloNeighbor × Cursor :=
  let address := pktGetIpaddress cnf msg c
  let quality := if lq then (deserializeLqPair pair msg address.2).map some id else (none, address.2)
  (⟨address.1, linkCode.toNat % 4, linkCode.toNat / 4 % 4, quality.1⟩, quality.2)

theorem helloNeighbor_curr (cnf : Cnf) (pair : PairReads) (msg : Mem) (lq : Bool) (linkCode : UInt8) (c : Cursor) :
    (helloNeighbor cnf pair msg lq linkCode c).2.curr = c.curr + (cnf.ipsize + if lq then 4 else 0) := by
  unfold helloNeighbor
  cases lq
  · rfl
  · show c.curr + cnf.ipsize + 4 = c.curr + (cnf.ipsize + 4)
    omega

/-- The inner loop of `deserialize_hello`, over the neighbours of one link block. -/
def helloBlock (cnf : Cnf) (pair : PairReads) (msg : Mem) (lq : Bool) (linkCode : UInt8) (limit2 : Nat) (c : Cursor)
    (neighbors : List HelloNeighbor) : List HelloNeighbor × Cursor :=
  if c.curr < limit2 then
    let neigh := helloNeighbor cnf pair msg lq linkCode c
    helloBlock cnf pair msg lq linkCode limit2 neigh.2 (neigh.1 :: neighbors)
  else (neighbors, c)
termination_by limit2 - c.curr
decreasing_by
  have := cnf.ipsize_pos
  rw [helloNeighbor_curr]; omega

theorem helloBlock_curr (cnf : Cnf) (pair : PairReads) (msg : Mem) (lq : Bool) (linkCode : UInt8) (limit2 : Nat)
    (c : Cursor) (ns : List HelloNeighbor) : c.curr ≤ (helloBlock cnf pair msg lq linkCode limit2 c ns).2.curr := by
  fun_induction helloBlock cnf pair msg lq linkCode limit2 c ns with
  | case1 c ns h neigh ih =>
    have : neigh.2.curr = _ := helloNeighbor_curr cnf pair msg lq linkCode c
    omega
  | case2 => exact le_refl _

/-- One link block: its code, a reserved byte, its size and its neighbours. -/
def helloLink (cnf : Cnf) (pair : PairReads) (msg : Mem) (lq : Bool) (c : Cursor) (neighbors : List HelloNeighbor) :
    List HelloNeighbor × Cursor :=
  let linkCode := pktGetU8 msg c
  let size2 := pktGetU16 msg (linkCode.2.ignore 1)
  helloBlock cnf pair msg lq linkCode.1 (c.curr + size2.1) size2.2 neighbors

theorem helloLink_curr (cnf : Cnf) (pair : PairReads) (msg : Mem) (lq : Bool) (c : Cursor) (ns : List HelloNeighbor) :
    c.curr < (helloLink cnf pair msg lq c ns).2.curr :=
  lt_of_lt_of_le (by simp; omega) (helloBlock_curr ..)

/-- The outer loop of `deserialize_hello`, over the link blocks. -/
def helloLinks (cnf : Cnf) (pair : PairReads) (msg : Mem) (lq : Bool) (limit : Nat) (c : Cursor)
    (neighbors : List HelloNeighbor) : List HelloNeighbor × Cursor :=
  if c.curr < limit then
    let link := helloLink cnf pair msg lq c neighbors
    helloLinks cnf pair msg lq limit link.2 link.1
  else (neighbors, c)
termination_by limit - c.curr
decreasing_by
  have := helloLink_curr cnf pair msg lq c neighbors
  omega

def deserializeHello (cnf : Cnf) (pair : PairReads) (msg : Mem) : Option HelloMessage × Cursor :=
  let type := pktGetU8 msg .start
  if type.1.toNat ≠ helloMessage ∧ type.1.toNat ≠ lqHelloMessage then (none, type.2)
  else
    let vtime := pktGetReltime msg type.2
    let size := pktGetU16 msg vtime.2
    let sourceAddr := pktGetIpaddress cnf msg size.2
    let ttl := pktGetU8 msg sourceAddr.2
    let hopCount := pktGetU8 msg ttl.2
    let seq := pktGetU16 msg hopCount.2
    let htime := pktGetReltime msg (seq.2.ignore 2)
    let willingness := pktGetU8 msg htime.2
    let links := helloLinks cnf pair msg (type.1.toNat == lqHelloMessage) size.1 willingness.2 []
    (some ⟨vtime.1, sourceAddr.1, ttl.1, hopCount.1, seq.1, htime.1, willingness.1, links.1⟩, links.2)

/-! ## MID -/

/-- `struct mid_message`; the aliases are in the order of the list, last decoded first. -/
structure MidMessage where
  addr : IpAddr
  midSeqno : Nat
  vtime : Nat
  aliases : List IpAddr
  deriving DecidableEq, Repr

/-- The number of aliases: both address families subtract the IPv4 header size. -/
def noAliases (cnf : Cnf) (msgsize : Nat) : Nat := (msgsize - 12) / cnf.ipsize

/-- The offset of the `i`-th alias. -/
def aliasAt (cnf : Cnf) (i : Nat) : Nat := 8 + cnf.ipsize + i * cnf.ipsize

def midChgestruct (cnf : Cnf) (msg : Mem) : Option MidMessage × List (Nat × Nat) :=
  if (msg 0).toNat ≠ midMessage then (none, [(0, 1)])
  else
    let n := noAliases cnf (msg.u16 2)
    (some ⟨msg.slice 4 cnf.ipsize, msg.u16 (6 + cnf.ipsize), meToReltime (msg 1),
        ((List.range n).map fun i => msg.slice (aliasAt cnf i) cnf.ipsize).reverse⟩,
      (0, 1) :: (2, 2) :: (4, cnf.ipsize) :: (6 + cnf.ipsize, 2) :: (1, 1) ::
        (List.range n).map fun i => (aliasAt cnf i, cnf.ipsize))

/-! ## HNA -/

/-- The record loop of `olsr_input_hna`: network addresses with their netmasks. -/
def hnaRecords (cnf : Cnf) (msg : Mem) (currEnd : Nat) (c : Cursor) : List (IpAddr × IpAddr) × Cursor :=
  if c.curr < currEnd then
    let pfx := pktGetIpaddress cnf msg c
    let mask := pktGetIpaddress cnf msg pfx.2
    let rest := hnaRecords cnf msg currEnd mask.2
    ((pfx.1, mask.1) :: rest.1, rest.2)
  else ([], c)
termination_by currEnd - c.curr
decreasing_by
  have := cnf.ipsize_pos
  simp; omega

/-- `olsr_input_hna` up to the handling of the records; `symLink` is the outcome of
`check_neighbor_link` for the sender. -/
def olsrInputHna (cnf : Cnf) (symLink : Bool) (msg : Mem) : Option (List (IpAddr × IpAddr)) × Cursor :=
  let type := pktGetU8 msg .start
  if type.1.toNat ≠ hnaMessage then (none, type.2)
  else
    let vtime := pktGetReltime msg type.2
    let size := pktGetU16 msg vtime.2
    let originator := pktGetIpaddress cnf msg size.2
    let hopCount := pktGetU8 msg (originator.2.ignore 1)
    let seq := pktGetU16 msg hopCount.2
    if (size.1 - 8 - cnf.ipsize) % (2 * cnf.ipsize) ≠ 0 then (none, seq.2)
    else if !symLink then (none, seq.2)
    else
      let records := hnaRecords cnf msg size.1 seq.2
      (some records.1, records.2)

end Olsrd
