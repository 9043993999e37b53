/-
`routing_table.c` and `process_routes.c`: the routing information base and its way into the kernel. Objects
live under pointers. The allocator hands out any block that is free, also one that has been in use before;
following a pointer to a free block has no result. Of the link state database only the prefix trees are
here, by the addresses of their entries.
-/
import Olsrd.Topology.Lsdb
import Olsrd.Lib.Run

namespace Olsrd.Routing

open Olsrd.Topology (IpPrefix prefixLt maxplen olsrRtOriginInt)

abbrev Ptr := Nat

/-! ## The tables -/

/-- `struct rt_nexthop` -/
structure Nexthop where
  gateway : IpAddr
  iifIndex : Int
  deriving DecidableEq

/-- `struct rt_metric` -/
structure Metric where
  cost : UInt32
  hops : UInt32
  deriving DecidableEq

/-- `struct rt_path`; `tc` is the address of the entry it hangs off. -/
structure RtPath where
  rt : Option Ptr
  tc : IpAddr
  nexthop : Nexthop
  metric : Metric
  originator : IpAddr
  dst : IpPrefix
  version : UInt32
  origin : Nat

/-- `struct rt_entry` -/
structure RtEntry where
  dst : IpPrefix
  best : Option Ptr
  nexthop : Nexthop
  metric : Metric
  pathTree : List (IpAddr × Ptr)

/-- What `olsr_update_kernel_routes` asks of the kernel, with the next hop of the route. -/
inductive KernelOp where
  | add (dst : IpPrefix) (nexthop : Nexthop)
  | delete (dst : IpPrefix) (nexthop : Nexthop)
  deriving DecidableEq

structure Env where
  platform : Platform
  cnf : Cnf
  hostEmul : Bool
  /-- `fib_metric` is `FIBM_CORRECT` -/
  fibmCorrect : Bool
  /-- built with `LINUX_NETLINK_ROUTING` -/
  netlink : Bool
  /-- a plugin has put in its own functions for kernel routes -/
  exportRoutes : Bool
  /-- a cost times `lq_nat_thresh` -/
  natThresh : UInt32 → UInt32

structure Rib where
  path : Ptr → Option RtPath
  entry : Ptr → Option RtEntry
  prefixTree : IpAddr → Option (List (IpPrefix × Ptr))
  routingtree : List (IpPrefix × Ptr)
  version : UInt32
  currentInetgw : Option Ptr
  chgKernelList : List Ptr
  delKernelList : List Ptr
  changesHna : Bool
  /-- the forwarding table of the kernel -/
  kernel : IpPrefix → Option Nexthop
  /-- the operations of the last `olsr_update_kernel_routes` -/
  ops : List KernelOp

namespace Rib

def setPath (s : Rib) (p : Ptr) (x : RtPath) : Rib := { s with path := Function.update s.path p (some x) }

def setEntry (s : Rib) (e : Ptr) (y : RtEntry) : Rib := { s with entry := Function.update s.entry e (some y) }

def setPrefixTree (s : Rib) (a : IpAddr) (t : List (IpPrefix × Ptr)) : Rib :=
  { s with prefixTree := Function.update s.prefixTree a (some t) }

end Rib

def Env.zeroAddr (env : Env) : IpAddr := List.replicate env.cnf.ipsize 0

def Env.addrLt (env : Env) : IpAddr → IpAddr → Bool := Olsrd.addrLt env.platform env.cnf.ipVersion

/-! ## Prefixes of an originator -/

/-- `olsr_alloc_rt_path`, in the block `p` -/
def olsrAllocRtPath (env : Env) (s : Rib) (tc : IpAddr) (t : List (IpPrefix × Ptr)) (dst : IpPrefix)
    (origin : Nat) (p : Ptr) : Rib :=
  (s.setPrefixTree tc (Keyed.insert prefixLt dst p t)).setPath p
    { rt := none, tc := tc, nexthop := ⟨env.zeroAddr, 0⟩, metric := ⟨0, 0⟩, originator := env.zeroAddr, dst := dst,
      version := 0, origin := origin }

/-- `olsr_insert_routing_table` from the point on where the entry of the originator is at hand. -/
def insertPrefix (env : Env) (s : Rib) (tc : IpAddr) (dst : IpPrefix) (origin : Nat) (p : Ptr) : Option Rib := do
  let t ← s.prefixTree tc
  match Keyed.find dst t with
  | some _ => pure s
  | none => pure { olsrAllocRtPath env s tc t dst origin p with changesHna := true }

/-- `olsr_locate_tc_entry`: a new entry gets a path for itself. -/
def olsrLocateTcEntry (env : Env) (s : Rib) (adr : IpAddr) (p : Ptr) : Option Rib :=
  match s.prefixTree adr with
  | some _ => some s
  | none =>
    -- safety net against loss of the last main IP address
    if ipequal env.cnf env.cnf.mainAddr env.zeroAddr then none
    else insertPrefix env (s.setPrefixTree adr []) adr ⟨adr, maxplen env.cnf⟩ olsrRtOriginInt p

/-- `olsr_insert_routing_table`, with blocks for a new entry's own path and for the new path -/
def olsrInsertRoutingTable (env : Env) (s : Rib) (dst : IpPrefix) (originator : IpAddr) (origin : Nat) (p q : Ptr) :
    Option Rib :=
  -- no bogus prefix lengths
  if dst.prefixLen > maxplen env.cnf then some s
  else do
    let s ← olsrLocateTcEntry env s originator p
    insertPrefix env s originator dst origin q

/-- Take a path out of the tree of its route entry. -/
def unlinkRtPath (s : Rib) (p : Ptr) : Option Ptr → Option Rib
  | none => some s
  | some e => do
    let y ← s.entry e
    pure (s.setEntry e { y with pathTree := Keyed.erase p y.pathTree })

/-- `olsr_delete_rt_path` -/
def olsrDeleteRtPath (s : Rib) (p : Ptr) : Option Rib := do
  let x ← s.path p
  -- remove from the originator tree
  let s ← unlinkRtPath s p x.rt
  -- remove from the tc prefix tree
  let t ← s.prefixTree x.tc
  let s := s.setPrefixTree x.tc (Keyed.erase p t)
  -- no current inet gw if the rt_path is removed
  let s := if s.currentInetgw = some p then { s with currentInetgw := none } else s
  pure { s with path := Function.update s.path p none }

/-- The path of an originator for a prefix. -/
def findPath (s : Rib) (dst : IpPrefix) (originator : IpAddr) : Option Ptr := do
  let t ← s.prefixTree originator
  Keyed.find dst t

/-- `olsr_delete_routing_table` -/
def olsrDeleteRoutingTable (env : Env) (s : Rib) (dst : IpPrefix) (originator : IpAddr) : Option Rib :=
  if dst.prefixLen > maxplen env.cnf then some s
  else match findPath s dst originator with
    | none => some s
    | some p => (olsrDeleteRtPath s p).map fun s => { s with changesHna := true }

/-! ## Paths of a prefix -/

/-- What a path calculation says about an entry of the link state database: its cost, its hop count, and the
link to its next hop. -/
structure SpfResult where
  pathCost : UInt32
  hops : UInt8
  neighborIfaceAddr : IpAddr
  ifIndex : Nat

def routeCostBroken : UInt32 := 0xffffffff

/-- What `olsr_update_rt_path` makes of a path. -/
def RtPath.refreshed (x : RtPath) (version : UInt32) (r : SpfResult) : RtPath :=
  { x with version := version, nexthop := ⟨r.neighborIfaceAddr, r.ifIndex⟩, metric := ⟨r.pathCost, r.hops.toUInt32⟩ }

/-- `olsr_update_rt_path` -/
def olsrUpdateRtPath (s : Rib) (p : Ptr) (r : SpfResult) : Option Rib := do
  let x ← s.path p
  pure (s.setPath p (x.refreshed s.version r))

/-- `olsr_alloc_rt_entry`, in the block `e` -/
def olsrAllocRtEntry (env : Env) (s : Rib) (dst : IpPrefix) (e : Ptr) : Rib :=
  { s.setEntry e { dst := dst, best := none, nexthop := ⟨env.zeroAddr, -1⟩, metric := ⟨0, 0⟩, pathTree := [] } with
    routingtree := Keyed.insert prefixLt dst e s.routingtree }

/-- The route entry of a prefix, a new one in the block `e` if there is none. -/
def locateRtEntry (env : Env) (s : Rib) (dst : IpPrefix) (e : Ptr) : Rib × Ptr :=
  match Keyed.find dst s.routingtree with
  | some rt => (s, rt)
  | none => (olsrAllocRtEntry env s dst e, e)

/-- Link a path into the tree of a route entry, which has one path of an originator only. -/
def linkRtPath (env : Env) (s : Rib) (p : Ptr) (x : RtPath) (rt : Ptr) : Option Rib := do
  let y ← s.entry rt
  let s := if (Keyed.find x.tc y.pathTree).isSome then s
    else s.setEntry rt { y with pathTree := Keyed.insert env.addrLt x.tc p y.pathTree }
  pure (s.setPath p { x with rt := some rt, originator := x.tc })

/-- `olsr_insert_rt_path` -/
def olsrInsertRtPath (env : Env) (s : Rib) (p : Ptr) (r : SpfResult) (e : Ptr) : Option Rib := do
  let x ← s.path p
  -- no unreachable routes, no bogus prefix lengths
  if r.pathCost = routeCostBroken ∨ x.dst.prefixLen > maxplen env.cnf then pure s
  else do
    let (s, rt) := locateRtEntry env s x.dst e
    let s ← linkRtPath env s p x rt
    olsrUpdateRtPath s p r

/-- What a path calculation does to the prefixes of a reachable entry. -/
def refreshPath (env : Env) (s : Rib) (p : Ptr) (r : SpfResult) (e : Ptr) : Option Rib := do
  let x ← s.path p
  if x.rt.isSome then olsrUpdateRtPath s p r else olsrInsertRtPath env s p r e

/-! ## The best path -/

def olsrNhChange (nh1 nh2 : Nexthop) : Bool := nh1.gateway != nh2.gateway || nh1.iifIndex != nh2.iifIndex

def olsrHopcountChange (met1 met2 : Metric) : Bool := met1.hops != met2.hops

/-- `olsr_get_nh` -/
def olsrGetNh (s : Rib) (y : RtEntry) : Option Nexthop :=
  match y.best with
  | some b => (s.path b).map RtPath.nexthop
  | none => some y.nexthop

/-- `olsr_cmp_rtp` -/
def olsrCmpRtp (env : Env) (inetgw : Option Ptr) (p1 : Ptr) (x1 : RtPath) (p2 : Ptr) (x2 : RtPath) : Bool :=
  let etx1 := if inetgw = some p1 then env.natThresh x1.metric.cost else x1.metric.cost
  let etx2 := if inetgw = some p2 then env.natThresh x2.metric.cost else x2.metric.cost
  if etx1 < etx2 then true
  else if etx1 > etx2 then false
  else if x1.metric.hops < x2.metric.hops then true
  else if x1.metric.hops > x2.metric.hops then false
  else bigEndian x1.originator < bigEndian x2.originator

/-- The loop of `olsr_rt_best`. -/
def electBest (env : Env) (s : Rib) : List Ptr → Ptr → Option Ptr
  | [], b => some b
  | p :: ps, b => do
    let x ← s.path p
    let y ← s.path b
    electBest env s ps (if olsrCmpRtp env s.currentInetgw p x b y then p else b)

/-- `olsr_rt_best`; the assertion fails for an entry without a path. -/
def olsrRtBest (env : Env) (s : Rib) (e : Ptr) : Option Rib := do
  let y ← s.entry e
  match y.pathTree with
  | [] => none
  | (_, p) :: rest =>
    let b ← electBest env s (rest.map Prod.snd) p
    let s := s.setEntry e { y with best := some b }
    pure (if y.dst.prefixLen = 0 then { s with currentInetgw := some b } else s)

/-! ## The RIB update -/

/-- The loop body of `olsr_delete_outdated_routes`. -/
def deleteIfOutdated (e : Ptr) (s : Rib) (p : Ptr) : Option Rib := do
  let x ← s.path p
  let y ← s.entry e
  if s.version = x.version then pure s
  else
    let y := { y with pathTree := Keyed.erase p y.pathTree, best := if y.best = some p then none else y.best }
    pure ((s.setEntry e y).setPath p { x with rt := none })

/-- `olsr_delete_outdated_routes` -/
def olsrDeleteOutdatedRoutes (s : Rib) (e : Ptr) : Option Rib := do
  let y ← s.entry e
  Run.forEach (deleteIfOutdated e) (y.pathTree.map Prod.snd) s

/-- Nexthop routes go to the head of a queue, other routes to its tail. -/
def enqueueAt (dst : IpPrefix) (nh : Nexthop) (e : Ptr) (queue : List Ptr) : List Ptr :=
  if dst.addr = nh.gateway then e :: queue else queue ++ [e]

inductive Queue where
  | chg
  | del
  deriving DecidableEq

/-- `olsr_enqueue_rt` -/
def olsrEnqueueRt (queue : Queue) (s : Rib) (e : Ptr) : Option Rib :=
  -- if this node is already on some changelist we are done
  if e ∈ s.chgKernelList ∨ e ∈ s.delKernelList then some s
  else do
    let y ← s.entry e
    let nh ← olsrGetNh s y
    match queue with
    | .chg => pure { s with chgKernelList := enqueueAt y.dst nh e s.chgKernelList }
    | .del => pure { s with delKernelList := enqueueAt y.dst nh e s.delKernelList }

/-- Enqueue a route whose next hop or hop count is not the one in the kernel. -/
def enqueueIfChanged (env : Env) (s : Rib) (e : Ptr) : Option Rib := do
  let y ← s.entry e
  let b ← y.best
  let x ← s.path b
  if olsrNhChange x.nexthop y.nexthop || (env.fibmCorrect && olsrHopcountChange x.metric y.metric) then
    olsrEnqueueRt .chg s e
  else pure s

/-- The loop body of `olsr_update_rib_routes`. -/
def updateRibRoute (env : Env) (s : Rib) (e : Ptr) : Option Rib := do
  let s ← olsrDeleteOutdatedRoutes s e
  let y ← s.entry e
  if y.pathTree.isEmpty then
    -- oops, all routes are gone - flush the route head
    olsrEnqueueRt .del { s with routingtree := Keyed.erase e s.routingtree } e
  else do
    let s ← olsrRtBest env s e
    enqueueIfChanged env s e

/-- `olsr_update_rib_routes` -/
def olsrUpdateRibRoutes (env : Env) (s : Rib) : Option Rib :=
  Run.forEach (updateRibRoute env) (s.routingtree.map Prod.snd) s

/-! ## The kernel -/

def ipIsLinklocal (cnf : Cnf) (ip : IpAddr) : Bool :=
  cnf.ipVersion == .inet6 && ip.getD 0 0 == 0xfe && ip.getD 1 0 &&& 0xc0 == 0x80

/-- A multihop route is not made to a link local address. -/
def skipsRoute (env : Env) (metric : Metric) (dst : IpPrefix) : Bool :=
  metric.hops > 1 && ipIsLinklocal env.cnf dst.addr

/-- `olsr_delete_kernel_route`; the kernel does what it is told. -/
def olsrDeleteKernelRoute (env : Env) (s : Rib) (y : RtEntry) : Rib :=
  if skipsRoute env y.metric y.dst || env.hostEmul then s
  else { s with kernel := Function.update s.kernel y.dst none, ops := s.ops ++ [.delete y.dst y.nexthop] }

/-- `olsr_add_kernel_route` -/
def olsrAddKernelRoute (env : Env) (s : Rib) (e : Ptr) : Option Rib := do
  let y ← s.entry e
  let b ← y.best
  let x ← s.path b
  if skipsRoute env x.metric x.dst || env.hostEmul then pure s
  else
    -- save the nexthop and metric in the route entry
    let s := s.setEntry e { y with nexthop := x.nexthop, metric := x.metric }
    pure { s with kernel := Function.update s.kernel y.dst (some x.nexthop), ops := s.ops ++ [.add y.dst x.nexthop] }

/-- A route in the kernel has to be deleted before it is added anew. -/
def deletesFirst (env : Env) : Bool := !env.netlink || env.cnf.ipVersion != .inet || env.exportRoutes

/-- The loop body of `olsr_chg_kernel_routes`. -/
def chgKernelRoute (env : Env) (s : Rib) (e : Ptr) : Option Rib := do
  let y ← s.entry e
  let s := if deletesFirst env && decide (y.nexthop.iifIndex > -1) then olsrDeleteKernelRoute env s y else s
  let s ← olsrAddKernelRoute env s e
  pure { s with chgKernelList := s.chgKernelList.erase e }

/-- `olsr_chg_kernel_routes`: from the head of the queue to its tail. -/
def olsrChgKernelRoutes (env : Env) (s : Rib) : Option Rib := Run.forEach (chgKernelRoute env) s.chgKernelList s

/-- The loop body of `olsr_del_kernel_routes`. -/
def delKernelRoute (env : Env) (s : Rib) (e : Ptr) : Option Rib := do
  let y ← s.entry e
  let s := if !env.netlink || decide (y.nexthop.iifIndex ≥ 0) then olsrDeleteKernelRoute env s y else s
  pure { s with delKernelList := s.delKernelList.erase e, entry := Function.update s.entry e none }

/-- `olsr_del_kernel_routes`: from the tail of the queue to its head. -/
def olsrDelKernelRoutes (env : Env) (s : Rib) : Option Rib :=
  Run.forEach (delKernelRoute env) s.delKernelList.reverse s

/-- `olsr_update_kernel_routes` -/
def olsrUpdateKernelRoutes (env : Env) (s : Rib) : Option Rib := do
  let s ← olsrDelKernelRoutes env { s with ops := [] }
  olsrChgKernelRoutes env s

def emptyRib : Rib where
  path := fun _ => none
  entry := fun _ => none
  prefixTree := fun _ => none
  routingtree := []
  version := 0
  currentInetgw := none
  chgKernelList := []
  delKernelList := []
  changesHna := false
  kernel := fun _ => none
  ops := []

end Olsrd.Routing
