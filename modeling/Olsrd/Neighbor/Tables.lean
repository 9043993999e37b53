/-
`neighbor_table.c` and `two_hop_neighbor_table.c`. Objects live under pointers; a pointer to an object
that has been freed maps to `none`, and an operation that follows it has no result. The members of a
list are stored with its owner. A bucket of a hash table is the list of its members, the one queued last
coming first. All addresses have `ipsize` bytes, so that `ipequal` is equality.
-/
import Olsrd.Lib.Run
import Olsrd.Neighbor.MidSet

namespace Olsrd.Neighbor

abbrev Ptr := Nat

/-! ## The tables -/

def willNever : Nat := 0

/-- `struct neighbor_2_list_entry` -/
structure Nbr2ListEntry where
  id : Ptr
  nbr2Nbr : Ptr
  neighbor2 : Ptr
  nbr2ListTimer : Option Timer

/-- `struct neighbor_entry`; `sym` is `status == SYM`. -/
structure NeighborEntry where
  mainAddr : IpAddr
  sym : Bool
  willingness : Nat
  linkcount : Int
  nbr2List : List Nbr2ListEntry

/-- `struct neighbor_list_entry` -/
structure NbListEntry where
  neighbor : Ptr
  secondHopLinkcost : UInt32
  pathLinkcost : UInt32
  savedPathLinkcost : UInt32

/-- `struct neighbor_2_entry` -/
structure Neighbor2Entry where
  addr : IpAddr
  pointer : Int16
  nblist : List NbListEntry

inductive LinkStatus where
  | unspec
  | asym
  | sym
  | lost
  | hide
  deriving DecidableEq, Repr

/-- `struct link_entry`. `hysteresis` is what link hysteresis makes of the status, if it is in use and
has a say: a lost or a hidden link. -/
structure LinkEntry where
  id : Ptr
  localIfaceAddr : IpAddr
  neighborIfaceAddr : IpAddr
  ifName : Option String
  linkTimer : Option Timer
  linkSymTimer : Option Timer
  asymTime : Nat
  neighbor : Ptr
  prevStatus : LinkStatus
  linkcost : UInt32
  hysteresis : Option LinkStatus

structure Interface where
  intName : Option String
  ipAddr : IpAddr
  intMetric : Nat
  deriving DecidableEq

structure Env where
  cnf : Cnf
  ifnet : List Interface
  tcRedundancy : Nat

/-- The neighbourhood of a node, and the flags that its changes set. -/
structure Nbh where
  nbr : Ptr → Option NeighborEntry
  nbrTable : Nat → List Ptr
  nbr2 : Ptr → Option Neighbor2Entry
  nbr2Table : Nat → List Ptr
  links : List LinkEntry
  mid : MidSet
  now : Nat
  /-- no object lives at or above this pointer -/
  fresh : Ptr
  changesNeighborhood : Bool
  changesTopology : Bool
  linkChanges : Bool

/-- `QUEUE_ELEM` -/
def queueElem (table : Nat → List Ptr) (bucket : Nat) (p : Ptr) : Nat → List Ptr :=
  Function.update table bucket (p :: table bucket)

/-- `DEQUEUE_ELEM` -/
def dequeueElem (table : Nat → List Ptr) (p : Ptr) : Nat → List Ptr := fun bucket => (table bucket).filter (· != p)

namespace Nbh

def setNbr (s : Nbh) (p : Ptr) (e : NeighborEntry) : Nbh := { s with nbr := Function.update s.nbr p (some e) }

/-- Dequeue and free a neighbour entry. -/
def freeNbr (s : Nbh) (p : Ptr) : Nbh :=
  { s with nbr := Function.update s.nbr p none, nbrTable := dequeueElem s.nbrTable p }

def setNbr2 (s : Nbh) (p : Ptr) (t : Neighbor2Entry) : Nbh := { s with nbr2 := Function.update s.nbr2 p (some t) }

/-- Dequeue and free a two hop entry. -/
def freeNbr2 (s : Nbh) (p : Ptr) : Nbh :=
  { s with nbr2 := Function.update s.nbr2 p none, nbr2Table := dequeueElem s.nbr2Table p }

/-- The next pointer is taken. -/
def allocated (s : Nbh) : Nbh := { s with fresh := s.fresh + 1 }

/-- Set `changes_neighborhood` and `changes_topology`. -/
def changed (s : Nbh) : Nbh := { s with changesNeighborhood := true, changesTopology := true }

end Nbh

/-! ## Two hop links -/

/-- `olsr_del_nbr2_list` -/
def olsrDelNbr2List (s : Nbh) (x : Nbr2ListEntry) : Option Nbh := do
  let t ← s.nbr2 x.neighbor2
  let s := if t.pointer < 1 then s.freeNbr2 x.neighbor2 else s
  let e ← s.nbr x.nbr2Nbr
  pure (s.setNbr x.nbr2Nbr { e with nbr2List := e.nbr2List.filter fun y => y.id != x.id }).changed

/-- `olsr_delete_neighbor_2_pointer` -/
def olsrDeleteNeighbor2Pointer (s : Nbh) (neighbor neigh2 : Ptr) : Option Nbh := do
  let e ← s.nbr neighbor
  match e.nbr2List.find? fun x => x.neighbor2 == neigh2 with
  | none => pure s
  | some x => olsrDelNbr2List s x

/-- The loop of `olsr_lookup_my_neighbors`. -/
def findNbr2List (s : Nbh) (adr : IpAddr) : List Nbr2ListEntry → Option (Option Nbr2ListEntry)
  | [] => some none
  | x :: l => do
    let t ← s.nbr2 x.neighbor2
    if t.addr = adr then pure (some x) else findNbr2List s adr l

/-- `olsr_lookup_my_neighbors` -/
def olsrLookupMyNeighbors (s : Nbh) (neighbor : Ptr) (adr : IpAddr) : Option (Option Nbr2ListEntry) := do
  let e ← s.nbr neighbor
  findNbr2List s adr e.nbr2List

/-- `olsr_delete_neighbor_pointer` -/
def olsrDeleteNeighborPointer (s : Nbh) (twoHop neigh : Ptr) : Option Nbh := do
  let t ← s.nbr2 twoHop
  pure (s.setNbr2 twoHop { t with nblist := t.nblist.filter fun y => y.neighbor != neigh })

/-- Count one neighbour less. -/
def decreasePointer (s : Nbh) (twoHop : Ptr) : Option Nbh := do
  let t ← s.nbr2 twoHop
  pure (s.setNbr2 twoHop { t with pointer := t.pointer - 1 })

/-- Unlink a two hop link on both sides: the body of the loop of `olsr_delete_neighbor_table`, and
`olsr_expire_nbr2_list`. -/
def unlinkNbr2 (neighbor : Ptr) (s : Nbh) (x : Nbr2ListEntry) : Option Nbh := do
  let s ← decreasePointer s x.neighbor2
  let s ← olsrDeleteNeighborPointer s x.neighbor2 neighbor
  olsrDelNbr2List s x

/-- `olsr_expire_nbr2_list`; the entry's timer is cleared, and then the entry is gone. -/
def olsrExpireNbr2List (s : Nbh) (x : Nbr2ListEntry) : Option Nbh := unlinkNbr2 x.nbr2Nbr s x

/-! ## The two hop table -/

/-- `olsr_lookup_two_hop_neighbor_table` -/
def olsrLookupTwoHopNeighborTable (s : Nbh) (dest : IpAddr) : Option Ptr :=
  (s.nbr2Table (olsrIpHashing dest)).find? fun p => (s.nbr2 p).any fun t =>
    t.addr == dest || (midLookupAliases s.mid t.addr).contains dest

/-- `olsr_lookup_two_hop_neighbor_table_mid` -/
def olsrLookupTwoHopNeighborTableMid (s : Nbh) (dest : IpAddr) : Option Ptr :=
  (s.nbr2Table (olsrIpHashing dest)).find? fun p => (s.nbr2 p).any fun t => t.addr == dest

/-- `olsr_delete_two_hop_neighbor_table` -/
def olsrDeleteTwoHopNeighborTable (s : Nbh) (twoHop : Ptr) : Option Nbh := do
  let t ← s.nbr2 twoHop
  let s ← Run.forEach (fun s y => olsrDeleteNeighbor2Pointer s y.neighbor twoHop) t.nblist s
  -- freed twice otherwise
  let _ ← s.nbr2 twoHop
  pure (s.freeNbr2 twoHop)

/-- Delete a two hop entry if there is one. -/
def deleteTwoHopIfAny (s : Nbh) : Option Ptr → Option Nbh
  | none => some s
  | some twoHop => olsrDeleteTwoHopNeighborTable s twoHop

/-- A new two hop entry, queued by `olsr_insert_two_hop_neighbor_table`. -/
def insertTwoHop (s : Nbh) (addr : IpAddr) : Nbh × Ptr :=
  ({ s with
      nbr2 := Function.update s.nbr2 s.fresh (some ⟨addr, 0, []⟩)
      nbr2Table := queueElem s.nbr2Table (olsrIpHashing addr) s.fresh
      fresh := s.fresh + 1 }, s.fresh)

/-! ## The neighbour table -/

/-- `olsr_lookup_neighbor_table_alias` -/
def olsrLookupNeighborTableAlias (s : Nbh) (dst : IpAddr) : Option Ptr :=
  (s.nbrTable (olsrIpHashing dst)).find? fun p => (s.nbr p).any fun e => e.mainAddr == dst

/-- `olsr_lookup_neighbor_table` -/
def olsrLookupNeighborTable (s : Nbh) (dst : IpAddr) : Option Ptr :=
  olsrLookupNeighborTableAlias s (midMainAddr s.mid dst)

/-- `olsr_update_neighbor_main_addr` -/
def olsrUpdateNeighborMainAddr (s : Nbh) (entry : Ptr) (newMainAddr : IpAddr) : Option Nbh := do
  let e ← s.nbr entry
  let s := { s with nbrTable := queueElem (dequeueElem s.nbrTable entry) (olsrIpHashing newMainAddr) entry }
  pure (s.setNbr entry { e with mainAddr := newMainAddr })

/-- `olsr_delete_neighbor_table` -/
def olsrDeleteNeighborTable (s : Nbh) (neighborAddr : IpAddr) : Option Nbh :=
  match olsrLookupNeighborTableAlias s neighborAddr with
  | none => some s
  | some entry => do
    let e ← s.nbr entry
    let s ← Run.forEach (unlinkNbr2 entry) e.nbr2List s
    pure { s.freeNbr entry with changesNeighborhood := true }

def newNeighborEntry (mainAddr : IpAddr) : NeighborEntry :=
  { mainAddr := mainAddr, sym := false, willingness := willNever, linkcount := 0, nbr2List := [] }

/-- `olsr_insert_neighbor_table` -/
def olsrInsertNeighborTable (s : Nbh) (mainAddr : IpAddr) : Nbh × Ptr :=
  match olsrLookupNeighborTableAlias s mainAddr with
  | some p => (s, p)
  | none =>
    ({ s with
        nbr := Function.update s.nbr s.fresh (some (newNeighborEntry mainAddr))
        nbrTable := queueElem s.nbrTable (olsrIpHashing mainAddr) s.fresh
        fresh := s.fresh + 1 }, s.fresh)

/-- `signal_link_changes(true)` where the TC redundancy calls for it. -/
def signalLinkChanges (env : Env) (s : Nbh) : Nbh :=
  if env.tcRedundancy > 1 then { s with linkChanges := true } else s

/-- `update_neighbor_status` -/
def updateNeighborStatus (env : Env) (s : Nbh) (entry : Ptr) (lnk : LinkStatus) : Option Nbh := do
  let e ← s.nbr entry
  if lnk = .sym then
    if e.sym then pure s
    else
      -- delete possible 2 hop entry on this neighbor
      let s ← deleteTwoHopIfAny s (olsrLookupTwoHopNeighborTable s e.mainAddr)
      let s := signalLinkChanges env s.changed
      let e ← s.nbr entry
      pure (s.setNbr entry { e with sym := true })
  else
    let s := if e.sym then signalLinkChanges env s.changed else s
    pure (s.setNbr entry { e with sym := false })

end Olsrd.Neighbor
