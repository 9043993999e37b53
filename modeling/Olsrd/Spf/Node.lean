/-
The neighbour loop of `olsr_calculate_routing_table`, which keeps an edge of the node itself for each of
its symmetric neighbours, and the system it is part of: the neighbourhood, the link state database and
the qualities of the links. `if_ifwithname` and the next hops of the loop do not touch these.
-/
import Olsrd.Topology.EdgeFrames
import Olsrd.Topology.Myself
import Olsrd.Neighbor.Advertised

namespace Olsrd.Spf

open Olsrd.Topology (Lsdb OwnTopology LqHandler)
open Olsrd.Neighbor (Nbh NeighborEntry LinkEntry)

variable {Lq Hq : Type}

/-! ## The node -/

/-- `Hq` is what a link keeps of its quality, `Lq` what an edge keeps. -/
structure Env (Lq Hq : Type) where
  platform : Platform
  cnf : Cnf
  lq : LqHandler Lq
  /-- `copy_link_lq_into_tc` -/
  copyLinkLqIntoTc : Hq → Lq
  ifnet : List Neighbor.Interface
  tcRedundancy : Nat

def Env.topology (env : Env Lq Hq) : Topology.Env Lq := ⟨env.platform, env.cnf, env.lq⟩

def Env.neighbor (env : Env Lq Hq) : Neighbor.Env := ⟨env.cnf, env.ifnet, env.tcRedundancy⟩

/-- A node; a link has its quality under its identity. -/
structure Node (Lq Hq : Type) where
  nbh : Nbh
  own : OwnTopology Lq
  linkquality : Neighbor.Ptr → Hq

def Node.setLsdb (n : Node Lq Hq) (s : Lsdb Lq) : Node Lq Hq := { n with own := { n.own with lsdb := s } }

/-! ## The neighbour loop -/

/-- `olsr_delete_tc_edge_entry`, if there is an edge. -/
def deleteEdgeIfAny (s : Lsdb Lq) : Option Topology.Ptr → Option (Lsdb Lq)
  | none => some s
  | some e => Topology.olsrDeleteTcEdgeEntry s e

/-- The best link to a symmetric neighbour, unless it is lost. -/
def edgeLink (env : Env Lq Hq) (nbh : Nbh) (e : NeighborEntry) : Option (Option LinkEntry) :=
  if e.sym then do
    let link ← Neighbor.getBestLinkToNeighbor env.neighbor nbh e.mainAddr
    pure (link.filter fun l => Neighbor.lookupLinkStatus nbh l != .lost)
  else some none

/-- `olsr_copylq_link_entry_2_tc_edge_entry` and `olsr_calc_tc_edge_entry_etx` -/
def updateEdge (env : Env Lq Hq) (s : Lsdb Lq) (e : Topology.Ptr) (quality : Hq) : Option (Lsdb Lq) := do
  let d ← s.edge e
  let d := { d with linkquality := env.copyLinkLqIntoTc quality }
  pure (s.setEdge e (Topology.olsrCalcTcEdgeEntryEtx env.topology d).1)

/-- The body of the loop, for the edges. -/
def spfNeighbor (env : Env Lq Hq) (n : Node Lq Hq) (neigh : Neighbor.Ptr) : Option (Node Lq Hq) := do
  let e ← n.nbh.nbr neigh
  let tcMyself ← n.own.tcMyself
  let tcEdge ← Topology.olsrLookupTcEdge n.own.lsdb tcMyself e.mainAddr
  match ← edgeLink env n.nbh e with
  | none => (deleteEdgeIfAny n.own.lsdb tcEdge).map n.setLsdb
  | some link =>
    match tcEdge with
    | none => (Topology.olsrAddTcEdgeEntry env.topology n.own.lsdb tcMyself e.mainAddr 0).map fun x => n.setLsdb x.1
    | some p => (updateEdge env n.own.lsdb p (n.linkquality link.id)).map n.setLsdb

/-- `olsr_calculate_routing_table` up to the SPF run. -/
def neighborLoop (env : Env Lq Hq) (n : Node Lq Hq) : Option (Node Lq Hq) := do
  let own ← Topology.olsrChangeMyselfTc env.topology n.own
  match own.tcMyself with
  | none => pure { n with own := own }
  | some _ => Run.forEach (spfNeighbor env) (Neighbor.allNbrEntries n.nbh) { n with own := own }

/-! ## Events -/

/-- What happens to a node. -/
inductive Event (Hq : Type) where
  | nbh (ev : Neighbor.Event)
  /-- the link quality plugin has a new quality for a link -/
  | linkquality (id : Neighbor.Ptr) (quality : Hq)
  | inputTc (symLink : Bool) (msg : Bytes.Mem)
  /-- `olsr_expire_tc_entry` -/
  | expireTc (tc : Topology.Ptr)
  /-- `olsr_expire_tc_edge_gc` -/
  | expireEdgeGc (tc : Topology.Ptr)
  /-- the neighbour loop of an SPF run -/
  | spf

/-- The event can happen: messages that come from this node are dropped by the parser, and only entries that
messages are received for have timers. -/
def Event.Enabled (env : Env Lq Hq) (n : Node Lq Hq) : Event Hq → Prop
  | .nbh ev => ev.Enabled n.nbh
  | .linkquality .. | .spf => True
  | .inputTc _ msg => (Topology.headerOf env.topology msg).originator ≠ env.cnf.mainAddr
  | .expireTc tc | .expireEdgeGc tc => n.own.tcMyself ≠ some tc

/-- `olsr_delete_link_entry` deletes the edge to the address of the link. -/
def deleteLinkEdge (n : Node Lq Hq) : Neighbor.Event → Option (Lsdb Lq)
  | .deleteLink l => do
    let tcEdge ← Topology.olsrLookupTcEdge n.own.lsdb (← n.own.tcMyself) l.neighborIfaceAddr
    deleteEdgeIfAny n.own.lsdb tcEdge
  | _ => some n.own.lsdb

def step (env : Env Lq Hq) (n : Node Lq Hq) : Event Hq → Option (Node Lq Hq)
  | .nbh ev => do
    let s ← deleteLinkEdge n ev
    let nbh ← Neighbor.step env.neighbor n.nbh ev
    pure { n.setLsdb s with nbh := nbh }
  | .linkquality id quality => some { n with linkquality := Function.update n.linkquality id quality }
  | .inputTc symLink msg => (Topology.olsrInputTc env.topology n.own.lsdb symLink msg).map fun r => n.setLsdb r.db
  | .expireTc tc => (Topology.olsrDeleteTcEntry env.topology n.own.lsdb tc).map n.setLsdb
  | .expireEdgeGc tc => (Topology.olsrDeleteOutdatedTcEdges n.own.lsdb tc).map n.setLsdb
  | .spf => neighborLoop env n

/-- After `olsr_init_tc`, with no neighbours. -/
def Start (env : Env Lq Hq) (n : Node Lq Hq) : Prop :=
  n.nbh = Neighbor.emptyNbh ∧ ∃ own, Topology.addMyself env.topology (Topology.emptyLsdb Lq) = some own ∧
    n.own = { own with changesTopology := false }

/-- The states a node gets to by events that meet `ok`. -/
def Reachable (env : Env Lq Hq) (ok : Node Lq Hq → Event Hq → Prop) : Node Lq Hq → Prop :=
  Run.Reaches (Start env) (fun n ev => ev.Enabled env n ∧ ok n ev) (step env)

/-! ## The default metric -/

/-- `lq_plugin_default_ff.c`, for the smoothed quality of a link: `valueLq` and `valueNlq`. -/
def ffLq : LqHandler (UInt8 × UInt8) where
  pair := .firstTwo
  deserializeTcLq bytes := (bytes.getD 0 0, bytes.getD 1 0)
  calcTcCost q :=
    if q.1 < 25 || q.2 < 25 then Neighbor.linkCostBroken.toNat
    else
      let cost := 255 * 255 * 1024 / (q.1.toNat * q.2.toNat)
      if cost > Neighbor.linkCostBroken.toNat then Neighbor.linkCostBroken.toNat else if cost = 0 then 1 else cost
  zeroLq := (0, 0)

/-- A node with the address 10.0.0.1 on its one interface. -/
def ffEnv : Env (UInt8 × UInt8) (UInt8 × UInt8) where
  platform := ⟨true, 8⟩
  cnf := Neighbor.oneInterface.cnf
  lq := ffLq
  copyLinkLqIntoTc := id
  ifnet := Neighbor.oneInterface.ifnet
  tcRedundancy := Neighbor.oneInterface.tcRedundancy

end Olsrd.Spf
