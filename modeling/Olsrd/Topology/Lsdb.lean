/-
`tc_set.c` and the prefix side of `routing_table.c`: the link state database and the operations that
change its structure. Objects live under pointers; a pointer to nothing, or to an object that has been
freed, maps to `none`, and an operation that follows such a pointer has no result. An AVL tree is the
list of its members with their keys, in tree order.

Deleting a gateway entry, the timers of an entry and the RIB side of an `rt_path` do not touch this
structure.
-/
import Olsrd.Packet.Cursor
import Olsrd.Lib.Keyed

namespace Olsrd.Topology

abbrev Ptr := Nat

/-! ## The database -/

/-- The functions of `struct lq_handler` that TC code uses, for link qualities stored as `Lq`. -/
structure LqHandler (Lq : Type) where
  pair : PairReads
  /-- `deserialize_tc_lq`, on the four bytes it reads -/
  deserializeTcLq : List UInt8 → Lq
  /-- `calc_tc_cost` -/
  calcTcCost : Lq → Nat
  /-- the zeroed memory of a new edge -/
  zeroLq : Lq

/-- `struct tc_edge_entry` -/
structure TcEdgeEntry (Lq : Type) where
  destAddr : IpAddr
  edgeInv : Option Ptr
  tc : Ptr
  cost : Nat
  ansn : UInt16
  linkquality : Lq

/-- `struct olsr_ip_prefix` -/
structure IpPrefix where
  addr : IpAddr
  prefixLen : Nat
  deriving DecidableEq, Repr

/-- `struct rt_path` -/
structure RtPath where
  dst : IpPrefix
  tc : Option Ptr
  origin : Nat

/-- `struct tc_entry` -/
structure TcEntry where
  addr : IpAddr
  edgeTree : List (IpAddr × Ptr)
  prefixTree : List (IpPrefix × Ptr)
  refcount : Nat
  msgSeq : UInt16
  msgHops : UInt8
  ansn : UInt16
  ignored : UInt16
  errSeq : UInt16
  errSeqValid : Bool

structure Lsdb (Lq : Type) where
  tc : Ptr → Option TcEntry
  edge : Ptr → Option (TcEdgeEntry Lq)
  rtPath : Ptr → Option RtPath
  tcTree : List (IpAddr × Ptr)
  /-- no object lives at or above this pointer -/
  fresh : Ptr

structure Env (Lq : Type) where
  platform : Platform
  cnf : Cnf
  lq : LqHandler Lq

variable {Lq : Type}

def Env.addrLt (env : Env Lq) : IpAddr → IpAddr → Bool := Olsrd.addrLt env.platform env.cnf.ipVersion

/-- `avl_comp_prefix_default(a, b) < 0` -/
def prefixLt (a b : IpPrefix) : Bool :=
  bigEndian a.addr < bigEndian b.addr || (bigEndian a.addr == bigEndian b.addr && a.prefixLen < b.prefixLen)

/-- `olsr_cnf->maxplen` -/
def maxplen (cnf : Cnf) : Nat := 8 * cnf.ipsize

namespace Lsdb

def setTc (s : Lsdb Lq) (p : Ptr) (t : TcEntry) : Lsdb Lq := { s with tc := Function.update s.tc p (some t) }

def freeTc (s : Lsdb Lq) (p : Ptr) : Lsdb Lq := { s with tc := Function.update s.tc p none }

def setEdge (s : Lsdb Lq) (e : Ptr) (d : TcEdgeEntry Lq) : Lsdb Lq :=
  { s with edge := Function.update s.edge e (some d) }

def freeEdge (s : Lsdb Lq) (e : Ptr) : Lsdb Lq := { s with edge := Function.update s.edge e none }

def setRtPath (s : Lsdb Lq) (r : Ptr) (x : RtPath) : Lsdb Lq :=
  { s with rtPath := Function.update s.rtPath r (some x) }

def freeRtPath (s : Lsdb Lq) (r : Ptr) : Lsdb Lq := { s with rtPath := Function.update s.rtPath r none }

end Lsdb

/-! ## Lookups and reference counts -/

def olsrLookupTcEntry (s : Lsdb Lq) (adr : IpAddr) : Option Ptr := Keyed.find adr s.tcTree

def olsrLookupTcEdge (s : Lsdb Lq) (tc : Ptr) (edgeAddr : IpAddr) : Option (Option Ptr) := do
  let t ← s.tc tc
  pure (Keyed.find edgeAddr t.edgeTree)

def olsrLockTcEntry (s : Lsdb Lq) (tc : Ptr) : Option (Lsdb Lq) := do
  let t ← s.tc tc
  pure (s.setTc tc { t with refcount := t.refcount + 1 })

/-- `olsr_unlock_tc_entry`; a count of zero is not modelled, no live entry has it. -/
def olsrUnlockTcEntry (s : Lsdb Lq) (tc : Ptr) : Option (Lsdb Lq) := do
  let t ← s.tc tc
  match t.refcount with
  | 0 => none
  | 1 => pure (s.freeTc tc)
  | n + 1 => pure (s.setTc tc { t with refcount := n })

/-! ## Prefixes -/

/-- `olsr_alloc_rt_path` -/
def olsrAllocRtPath (s : Lsdb Lq) (tc : Ptr) (dst : IpPrefix) (origin : Nat) : Option (Lsdb Lq × Ptr) := do
  let r := s.fresh
  let s := { s with fresh := s.fresh + 1 }
  let t ← s.tc tc
  let s := s.setTc tc { t with prefixTree := Keyed.insert prefixLt dst r t.prefixTree }
  let s ← olsrLockTcEntry s tc
  pure (s.setRtPath r ⟨dst, some tc, origin⟩, r)

/-- `olsr_insert_routing_table` from the point on where the entry of the originator is at hand. -/
def insertPrefix (s : Lsdb Lq) (tc : Ptr) (dst : IpPrefix) (origin : Nat) : Option (Lsdb Lq × Ptr) := do
  let t ← s.tc tc
  match Keyed.find dst t.prefixTree with
  | some r => pure (s, r)
  | none => olsrAllocRtPath s tc dst origin

def olsrDeleteRtPath (s : Lsdb Lq) (r : Ptr) : Option (Lsdb Lq) := do
  let x ← s.rtPath r
  match x.tc with
  | none => pure (s.freeRtPath r)
  | some tc =>
    let t ← s.tc tc
    let s := s.setTc tc { t with prefixTree := Keyed.erase r t.prefixTree }
    let s ← olsrUnlockTcEntry s tc
    pure (s.freeRtPath r)

/-! ## Entries -/

/-- `OLSR_RT_ORIGIN_INT` -/
def olsrRtOriginInt : Nat := 1

/-- The fields of a new entry; the cookie allocator returns zeroed memory. -/
def newTcEntry (adr : IpAddr) : TcEntry :=
  { addr := adr, edgeTree := [], prefixTree := [], refcount := 0, msgSeq := 0, msgHops := 0, ansn := 0,
    ignored := 0, errSeq := 0, errSeqValid := false }

/-- `olsr_add_tc_entry`. Its last call, `olsr_insert_routing_table`, looks the originator up again and
finds the entry just inserted. -/
def olsrAddTcEntry (env : Env Lq) (s : Lsdb Lq) (adr : IpAddr) : Option (Lsdb Lq × Option Ptr) :=
  -- safety net against loss of the last main IP address
  if ipequal env.cnf env.cnf.mainAddr (List.replicate env.cnf.ipsize 0) then some (s, none)
  else do
    let p := s.fresh
    let s := { s with fresh := s.fresh + 1 }
    let s := s.setTc p (newTcEntry adr)
    let s := if (Keyed.find adr s.tcTree).isSome then s
      else { s with tcTree := Keyed.insert env.addrLt adr p s.tcTree }
    let s ← olsrLockTcEntry s p
    let tc ← olsrLookupTcEntry s adr
    let (s, _) ← insertPrefix s tc ⟨adr, maxplen env.cnf⟩ olsrRtOriginInt
    pure (s, some p)

def olsrLocateTcEntry (env : Env Lq) (s : Lsdb Lq) (adr : IpAddr) : Option (Lsdb Lq × Option Ptr) :=
  match olsrLookupTcEntry s adr with
  | some tc => some (s, some tc)
  | none => olsrAddTcEntry env s adr

/-- `olsr_insert_routing_table` -/
def olsrInsertRoutingTable (env : Env Lq) (s : Lsdb Lq) (dst : IpPrefix) (originator : IpAddr) (origin : Nat) :
    Option (Lsdb Lq × Option Ptr) :=
  -- no bogus prefix lengths
  if dst.prefixLen > maxplen env.cnf then some (s, none)
  else do
    let (s, tc) ← olsrLocateTcEntry env s originator
    let (s, r) ← insertPrefix s (← tc) dst origin
    pure (s, some r)

/-- `olsr_delete_routing_table` -/
def olsrDeleteRoutingTable (env : Env Lq) (s : Lsdb Lq) (dst : IpPrefix) (originator : IpAddr) :
    Option (Lsdb Lq) :=
  if dst.prefixLen > maxplen env.cnf then some s
  else match olsrLookupTcEntry s originator with
    | none => some s
    | some tc => do
      let t ← s.tc tc
      match Keyed.find dst t.prefixTree with
      | none => pure s
      | some r => olsrDeleteRtPath s r

/-! ## Edges -/

/-- `olsr_calc_tc_edge_entry_etx` -/
def olsrCalcTcEdgeEntryEtx (env : Env Lq) (d : TcEdgeEntry Lq) : TcEdgeEntry Lq × Bool :=
  if env.cnf.lqLevel < 1 then (d, false)
  else ({ d with cost := env.lq.calcTcCost d.linkquality }, true)

/-- Connect a new edge `e` of `tc` with the inverse edge, if the database has it. -/
def connectInverse (s : Lsdb Lq) (tc e : Ptr) (addr : IpAddr) : Option (Lsdb Lq) :=
  match olsrLookupTcEntry s addr with
  | none => some s
  | some neighbor => do
    let t ← s.tc tc
    match ← olsrLookupTcEdge s neighbor t.addr with
    | none => pure s
    | some inv =>
      let d ← s.edge inv
      let s := s.setEdge inv { d with edgeInv := some e }
      let d ← s.edge e
      pure (s.setEdge e { d with edgeInv := some inv })

/-- `olsr_add_tc_edge_entry` -/
def olsrAddTcEdgeEntry (env : Env Lq) (s : Lsdb Lq) (tc : Ptr) (addr : IpAddr) (ansn : UInt16) :
    Option (Lsdb Lq × Ptr) := do
  let e := s.fresh
  let s := { s with fresh := s.fresh + 1 }
  let t ← s.tc tc
  let s := if (Keyed.find addr t.edgeTree).isSome then s
    else s.setTc tc { t with edgeTree := Keyed.insert env.addrLt addr e t.edgeTree }
  let s ← olsrLockTcEntry s tc
  let s := s.setEdge e ⟨addr, none, tc, 0, ansn, env.lq.zeroLq⟩
  let s ← connectInverse s tc e addr
  let d ← s.edge e
  pure (s.setEdge e (olsrCalcTcEdgeEntryEtx env d).1, e)

/-- Clear the backpointer of an inverse edge. -/
def clearInverse (s : Lsdb Lq) : Option Ptr → Option (Lsdb Lq)
  | none => some s
  | some inv => do
    let d ← s.edge inv
    pure (s.setEdge inv { d with edgeInv := none })

/-- `olsr_delete_tc_edge_entry` -/
def olsrDeleteTcEdgeEntry (s : Lsdb Lq) (e : Ptr) : Option (Lsdb Lq) := do
  let d ← s.edge e
  let t ← s.tc d.tc
  let s := s.setTc d.tc { t with edgeTree := Keyed.erase e t.edgeTree }
  let s ← olsrUnlockTcEntry s d.tc
  let s ← clearInverse s d.edgeInv
  pure (s.freeEdge e)

/-! ## Loops -/

/-- `SEQNO_GREATER_THAN` -/
def seqnoGreaterThan (s1 s2 : UInt16) : Bool :=
  (s1 > s2 && s1 - s2 ≤ 32767) || (s2 > s1 && s2 - s1 > 32767)

theorem seqnoGreaterThan_self (n : UInt16) : seqnoGreaterThan n n = false := by simp [seqnoGreaterThan]

/-- A loop over the members a tree has when the loop starts. The source fetches the next member
before the body runs, so that the body may delete the current one. -/
def forAll (body : Lsdb Lq → Ptr → Option (Lsdb Lq)) : List Ptr → Lsdb Lq → Option (Lsdb Lq)
  | [], s => some s
  | p :: ps, s => do
    let s ← body s p
    forAll body ps s

/-- `olsr_delete_tc_entry` -/
def olsrDeleteTcEntry (env : Env Lq) (s : Lsdb Lq) (tc : Ptr) : Option (Lsdb Lq) := do
  let t ← s.tc tc
  let s ← olsrDeleteRoutingTable env s ⟨t.addr, maxplen env.cnf⟩ t.addr
  -- the edgetree and prefix tree must be empty before
  let t ← s.tc tc
  let s ← forAll olsrDeleteTcEdgeEntry (t.edgeTree.map Prod.snd) s
  let t ← s.tc tc
  let s ← forAll olsrDeleteRtPath (t.prefixTree.map Prod.snd) s
  let s := { s with tcTree := Keyed.erase tc s.tcTree }
  olsrUnlockTcEntry s tc

/-- The loop body of `olsr_delete_outdated_tc_edges`. -/
def deleteIfOutdated (tc : Ptr) (s : Lsdb Lq) (e : Ptr) : Option (Lsdb Lq) := do
  let t ← s.tc tc
  let d ← s.edge e
  if seqnoGreaterThan t.ansn d.ansn then olsrDeleteTcEdgeEntry s e else pure s

/-- `olsr_delete_outdated_tc_edges` -/
def olsrDeleteOutdatedTcEdges (s : Lsdb Lq) (tc : Ptr) : Option (Lsdb Lq) := do
  let t ← s.tc tc
  forAll (deleteIfOutdated tc) (t.edgeTree.map Prod.snd) s

end Olsrd.Topology
