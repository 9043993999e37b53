/-
`create_lq_tc` of `lq_packet.c`, and the main loop of `scheduler.c` as far as it decides when the neighbours
are sensed, when an LQ_TC message is built and when the ANSN is increased. Which neighbours are MPRs or MPR
selectors is input: with TC redundancy 2 it is not asked for.
-/
import Olsrd.Topology.TcSend
import Olsrd.Neighbor.Hello

namespace Olsrd.Neighbor

/-! ## `create_lq_tc` -/

/-- `struct lq_tc_message` -/
structure LqTcMessage where
  vtime : Nat
  orig : IpAddr
  ttl : Nat
  hops : Nat
  ansn : UInt16
  neigh : List Topology.TcMprAddr

/-- What `create_lq_tc` reads besides the neighbourhood. -/
structure TcInput where
  platform : Platform
  lqFish : Nat
  valtimesTc : UInt8
  ttlIndex : Int
  isMpr : Ptr → Bool
  lookupMprsSet : IpAddr → Bool
  /-- `olsr_copylq_link_entry_2_tc_mpr_addr` -/
  copylq : LinkEntry → List UInt8

def maxTtl : Nat := 255

def ttlList : List Nat := [2, 8, 2, 16, 2, 8, 2, maxTtl]

/-- The TTL of a TC message, and the index for the next one. -/
def fisheyeTtl (lqFish : Nat) (ttlIndex : Int) : Nat × Int :=
  if lqFish > 0 then
    let ttlIndex := if ttlIndex ≥ ttlList.length then 0 else ttlIndex
    (if 0 ≤ ttlIndex then ttlList.getD ttlIndex.toNat maxTtl else maxTtl, ttlIndex + 1)
  else (maxTtl, ttlIndex)

/-- Queue a neighbour behind those that are not above it. -/
def queueNeigh (platform : Platform) (v : IpVersion) (neigh : Topology.TcMprAddr) :
    List Topology.TcMprAddr → List Topology.TcMprAddr
  | [] => [neigh]
  | n :: l => if addrLt platform v neigh.1 n.1 then neigh :: n :: l else n :: queueNeigh platform v neigh l

/-- What the TC says about a neighbour, if it is to say something. -/
def tcNeighbor (env : Env) (s : Nbh) (x : TcInput) (walker : Ptr) : Option (Option Topology.TcMprAddr) := do
  let e ← s.nbr walker
  if !e.sym then pure none
  -- only MPRs and MPR selectors
  else if env.tcRedundancy = 1 && !x.isMpr walker && !x.lookupMprsSet e.mainAddr then pure none
  -- only MPR selectors
  else if env.tcRedundancy = 0 && !x.lookupMprsSet e.mainAddr then pure none
  else
    match ← getBestLinkToNeighbor env s e.mainAddr with
    | none => pure none
    | some lnk =>
      -- links with very low LQ are not advertised
      if lnk.linkcost ≥ linkCostBroken then pure none else pure (some (e.mainAddr, x.copylq lnk))

def hashsize : Nat := 128

/-- `OLSR_FOR_ALL_NBR_ENTRIES` -/
def allNbrEntries (s : Nbh) : List Ptr := (List.range hashsize).flatMap s.nbrTable

/-- The body of the loop of `create_lq_tc`. -/
def queueNeighbor (env : Env) (s : Nbh) (x : TcInput) (neigh : List Topology.TcMprAddr) (walker : Ptr) :
    Option (List Topology.TcMprAddr) := do
  match ← tcNeighbor env s x walker with
  | none => pure neigh
  | some n => pure (queueNeigh x.platform env.cnf.ipVersion n neigh)

/-- `create_lq_tc` -/
def createLqTc (env : Env) (s : Nbh) (ansn : UInt16) (x : TcInput) : Option LqTcMessage := do
  let neigh ← Run.forEach (queueNeighbor env s x) (allNbrEntries s) []
  pure
    { vtime := meToReltime x.valtimesTc
      orig := env.cnf.mainAddr
      ttl := (fisheyeTtl x.lqFish x.ttlIndex).1
      hops := 0
      ansn := ansn
      neigh := neigh }

/-- The neighbours a message advertises. -/
def LqTcMessage.Advertises (m : LqTcMessage) (a : IpAddr) : Prop := a ∈ m.neigh.map Prod.fst

/-! ## The scheduler -/

/-- Where the main loop of `olsr_scheduler` is. -/
inductive Phase where
  | pollSockets
  | walkTimers
  | handleFds
  deriving DecidableEq

/-- A node between two events. The messages it has generated are kept, the newest first, with the number of
times the ANSN had been increased. -/
structure Node where
  nbh : Nbh
  phase : Phase
  ansn : UInt16
  ansnSteps : Nat
  generated : List (Nat × LqTcMessage)

inductive Action where
  | neighborhood (ev : Event)
  /-- the MPRs or the MPR selectors have changed -/
  | signalLinkChanges
  | outputLqTc (x : TcInput)
  /-- the loop goes on -/
  | proceed

/-- HELLO and MID messages come in with packets, timers fire in their part of the loop. Interfaces, plugins and
the MID set change in any part of it. -/
def Event.InPhase (phase : Phase) : Event → Prop
  | .helloLink _ | .insertMidAlias .. | .setWillingness .. | .processMessageNeighbors .. => phase ≠ .walkTimers
  | .expireNbr2List _ | .expireLinkSym _ | .expireLinkHello .. => phase = .walkTimers
  | _ => True

/-- LQ_TC messages are built by a timer that is only there with link qualities. -/
def Action.Enabled (env : Env) (n : Node) : Action → Prop
  | .neighborhood ev => ev.Enabled n.nbh ∧ ev.InPhase n.phase
  | .signalLinkChanges | .proceed => True
  | .outputLqTc _ => n.phase = .walkTimers ∧ 0 < env.cnf.lqLevel

/-- `olsr_relevant_linkcost_change` -/
def olsrRelevantLinkcostChange (s : Nbh) : Nbh := { s.changed with linkChanges := true }

/-- An event of the neighbourhood; a plugin that changes costs says so. -/
def stepNbh (env : Env) (s : Nbh) : Event → Option Nbh
  | .setLinkcost id cost => some (olsrRelevantLinkcostChange (setLinkcost s id cost))
  | ev => step env s ev

/-- The end of the timers' part of the loop: link changes increase the ANSN. -/
def checkLinkChanges (n : Node) : Node :=
  if n.nbh.linkChanges then
    { n with ansn := n.ansn + 1, ansnSteps := n.ansnSteps + 1, nbh := { n.nbh with linkChanges := false } }
  else n

/-- The next part of the main loop. -/
def nextPhase (n : Node) : Node :=
  match n.phase with
  | .pollSockets => { n with phase := .walkTimers }
  | .walkTimers => { checkLinkChanges n with phase := .handleFds }
  | .handleFds => { n with phase := .pollSockets }

def stepNode (env : Env) (n : Node) : Action → Option Node
  | .neighborhood ev => (stepNbh env n.nbh ev).map fun s => { n with nbh := s }
  | .signalLinkChanges => some { n with nbh := { n.nbh with linkChanges := true } }
  | .outputLqTc x => (createLqTc env n.nbh n.ansn x).map fun m =>
    { n with generated := (n.ansnSteps, m) :: n.generated }
  | .proceed => some (nextPhase n)

def startNode : Node := ⟨emptyNbh, .pollSockets, 0, 0, []⟩

/-- The states a node gets to by actions that meet `ok`. -/
def NodeReachable (env : Env) (ok : Node → Action → Prop) : Node → Prop :=
  Run.Reaches (· = startNode) (fun n a => a.Enabled env n ∧ ok n a) (stepNode env)

end Olsrd.Neighbor
