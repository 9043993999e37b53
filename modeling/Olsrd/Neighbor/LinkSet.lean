/-
`link_set.c`: link sensing, the best link to a neighbour, and the deletion of links. Edges that the node
keeps to its neighbours for the route calculation, and the packet loss timer, are outside.
-/
import Olsrd.Neighbor.Tables

namespace Olsrd.Neighbor

/-! ## HELLO messages -/

/-- `struct hello_neighbor`; `symNeigh` is set for the neighbour types `SYM_NEIGH` and `MPR_NEIGH`. -/
structure HelloNeighbor where
  address : IpAddr
  link : LinkStatus
  symNeigh : Bool
  cost : UInt32

/-- `struct hello_message` -/
structure HelloMessage where
  vtime : Nat
  sourceAddr : IpAddr
  willingness : Nat
  neighbors : List HelloNeighbor

/-! ## Lookups -/

/-- The link is one over the interface `ifc`. -/
def LinkEntry.onInterface (l : LinkEntry) (ifc : Interface) : Bool :=
  match l.ifName with
  | some name => ifc.intName == some name
  | none => ifc.ipAddr == l.localIfaceAddr

/-- `lookup_link_entry` without a main address. -/
def findLink (s : Nbh) (remote : IpAddr) (ifc : Interface) : Option LinkEntry :=
  s.links.find? fun l => l.neighborIfaceAddr == remote && l.onInterface ifc

/-- A neighbour that has changed its main address gets the new one. -/
def checkMainAddr (s : Nbh) (neighbor : Ptr) (e : NeighborEntry) (remoteMain : IpAddr) : Option Nbh :=
  if e.mainAddr = remoteMain then some s else olsrUpdateNeighborMainAddr s neighbor remoteMain

/-- `lookup_link_entry` with the main address of the remote node. -/
def lookupLinkEntry (s : Nbh) (remote remoteMain : IpAddr) (ifc : Interface) : Option (Nbh × Option LinkEntry) :=
  match findLink s remote ifc with
  | none => some (s, none)
  | some l => do
    let e ← s.nbr l.neighbor
    let s ← checkMainAddr s l.neighbor e remoteMain
    pure (s, some l)

/-- `lookup_link_status`; a link of the set is never looked up in an empty set. -/
def lookupLinkStatus (s : Nbh) (l : LinkEntry) : LinkStatus :=
  match l.hysteresis with
  | some st => st
  | none =>
    if l.linkSymTimer.isSome then .sym
    else if s.now < l.asymTime then .asym
    else .lost

/-- The link to `remote` over some interface is symmetric. -/
def hasSymLink (s : Nbh) (remote : IpAddr) (ifc : Interface) : Bool :=
  (findLink s remote ifc).any fun l => lookupLinkStatus s l == .sym

/-- `get_neighbor_status` -/
def getNeighborStatus (env : Env) (s : Nbh) (address : IpAddr) : LinkStatus :=
  let mainAddr := midMainAddr s.mid address
  if env.ifnet.any fun ifc => (mainAddr :: midLookupAliases s.mid mainAddr).any fun a => hasSymLink s a ifc
  then .sym else .unspec

/-- `check_link_status`: the last mention of the receiving interface, or the first as symmetric. -/
def checkLinkStatus (ifc : Interface) : LinkStatus → List HelloNeighbor → LinkStatus
  | ret, [] => ret
  | ret, n :: ns =>
    if n.address = ifc.ipAddr ∧ n.link ≠ .unspec then
      if n.link = .sym then .sym else checkLinkStatus ifc n.link ns
    else checkLinkStatus ifc ret ns

/-! ## Links -/

/-- Change the link `id`. -/
def Nbh.updateLink (s : Nbh) (id : Ptr) (f : LinkEntry → LinkEntry) : Nbh :=
  { s with links := s.links.map fun l => if l.id = id then f l else l }

def olsrLinkJitter : Nat := 5
def linkCostBroken : UInt32 := 4194304
def neighbHoldTime : Nat := 20000

/-- `olsr_set_link_timer` -/
def olsrSetLinkTimer (now random : Nat) (l : LinkEntry) (relTimer : Nat) : LinkEntry :=
  { l with linkTimer := olsrSetTimer now random l.linkTimer relTimer olsrLinkJitter }

/-- The neighbour entry for a new link. -/
def neighborFor (s : Nbh) (remoteMain : IpAddr) : Nbh × Ptr :=
  match olsrLookupNeighborTable s remoteMain with
  | some p => (s, p)
  | none => olsrInsertNeighborTable s remoteMain

/-- A new link of `add_link_entry`. -/
def newLinkEntry (id : Ptr) (now random : Nat) (localAddr remote : IpAddr) (ifc : Interface) (neighbor : Ptr)
    (vtime : Nat) : LinkEntry :=
  olsrSetLinkTimer now random
    { id := id, localIfaceAddr := localAddr, neighborIfaceAddr := remote, ifName := ifc.intName, linkTimer := none,
      linkSymTimer := none, asymTime := 0, neighbor := neighbor, prevStatus := .asym, linkcost := linkCostBroken,
      hysteresis := none } vtime

/-- The part of `add_link_entry` that creates a link, and the neighbour entry if there is none. -/
def createLink (s : Nbh) (random : Nat) (localAddr remote remoteMain : IpAddr) (vtime : Nat) (ifc : Interface) :
    Option (Nbh × LinkEntry) := do
  let n := neighborFor s.allocated remoteMain
  let l := newLinkEntry s.fresh s.now random localAddr remote ifc n.2 vtime
  let e ← n.1.nbr n.2
  pure ({ n.1.setNbr n.2 { e with linkcount := e.linkcount + 1 } with links := s.links ++ [l] }, l)

/-- `add_link_entry` -/
def addLinkEntry (s : Nbh) (random : Nat) (localAddr remote remoteMain : IpAddr) (vtime : Nat) (ifc : Interface) :
    Option (Nbh × LinkEntry) := do
  let found ← lookupLinkEntry s remote remoteMain ifc
  match found.2 with
  | some l => pure (found.1, l)
  | none => createLink found.1 random localAddr remote remoteMain vtime ifc

/-- What `update_link_entry` does to the link itself; `hyst` is the outcome of `olsr_process_hysteresis`. -/
def sensedLink (now : Nat) (random : Nat) (message : HelloMessage) (ifc : Interface) (hyst : Option LinkStatus)
    (l : LinkEntry) : LinkEntry :=
  let l := { l with asymTime := now + message.vtime, prevStatus := checkLinkStatus ifc .unspec message.neighbors }
  let l := match l.prevStatus with
    | .lost => { l with linkSymTimer := none }
    | .sym | .asym =>
      olsrSetLinkTimer now random
        { l with linkSymTimer := olsrSetTimer now random l.linkSymTimer message.vtime 0 }
        (message.vtime + neighbHoldTime)
    | _ => l
  -- L_time = max(L_time, L_ASYM_time)
  let l := match l.linkTimer with
    | some t => if t.clock < l.asymTime then olsrSetLinkTimer now random l (l.asymTime - now) else l
    | none => l
  { l with hysteresis := hyst }

/-- `update_link_entry`; the result is the link. -/
def updateLinkEntry (env : Env) (s : Nbh) (random : Nat) (localAddr remote : IpAddr) (message : HelloMessage)
    (ifc : Interface) (hyst : Option LinkStatus) : Option (Nbh × Ptr) := do
  let (s, l) ← addLinkEntry s random localAddr remote message.sourceAddr message.vtime ifc
  let s := s.updateLink l.id (sensedLink s.now random message ifc hyst)
  let s ← updateNeighborStatus env s l.neighbor (getNeighborStatus env s remote)
  pure (s, l.id)

/-- `replace_neighbor_link_set` -/
def replaceNeighborLinkSet (s : Nbh) (old new : Ptr) : Nbh :=
  { s with links := s.links.map fun l => if l.neighbor = old then { l with neighbor := new } else l }

/-- Count a link of a neighbour less; the last one takes the neighbour entry with it. -/
def releaseNeighbor (s : Nbh) (neighbor : Ptr) (e : NeighborEntry) : Option Nbh :=
  if e.linkcount = 1 then olsrDeleteNeighborTable s e.mainAddr
  else some (s.setNbr neighbor { e with linkcount := e.linkcount - 1 })

/-- `olsr_delete_link_entry` -/
def olsrDeleteLinkEntry (s : Nbh) (l : LinkEntry) : Option Nbh := do
  let e ← s.nbr l.neighbor
  let s ← releaseNeighbor s l.neighbor e
  pure { s with links := s.links.filter (fun l' => l'.id != l.id), changesNeighborhood := true }

/-- `olsr_delete_link_entry_by_ip` -/
def olsrDeleteLinkEntryByIp (s : Nbh) (intAddr : IpAddr) : Option Nbh :=
  Run.forEach (fun s l => if l.localIfaceAddr = intAddr then olsrDeleteLinkEntry s l else some s) s.links s

/-- `olsr_expire_link_sym_timer` -/
def olsrExpireLinkSymTimer (env : Env) (s : Nbh) (l : LinkEntry) : Option Nbh :=
  let s := s.updateLink l.id fun l => { l with linkSymTimer := none }
  if l.prevStatus ≠ .sym then some s
  else do
    let s := s.updateLink l.id fun l => { l with prevStatus := lookupLinkStatus s l }
    let s ← updateNeighborStatus env s l.neighbor (getNeighborStatus env s l.neighborIfaceAddr)
    pure { s with changesNeighborhood := true }

/-- `olsr_expire_link_hello_timer`, which only runs with hysteresis. -/
def olsrExpireLinkHelloTimer (env : Env) (s : Nbh) (l : LinkEntry) (hyst : Option LinkStatus) : Option Nbh :=
  let s := s.updateLink l.id fun l => { l with hysteresis := hyst }
  updateNeighborStatus env s l.neighbor (getNeighborStatus env s l.neighborIfaceAddr)

/-! ## The best link -/

def maxIfMetric : Nat := 100

/-- The interface of a link. -/
def LinkEntry.interface (env : Env) (l : LinkEntry) : Option Interface :=
  match l.ifName with
  | some name => env.ifnet.find? fun ifc => ifc.intName == some name
  | none => env.ifnet.find? fun ifc => ifc.ipAddr == l.localIfaceAddr

/-- The state of the loop of `get_best_link_to_neighbor`: the best value so far, and the links that have it. -/
structure BestLink where
  curr : Nat
  goodLink : Option LinkEntry
  backupLink : Option LinkEntry

/-- One link to the neighbour, with its metric or its cost. -/
def BestLink.offer (s : Nbh) (remote : IpAddr) (b : BestLink) (l : LinkEntry) (value : Nat) : BestLink :=
  if value < b.curr ∨ (value = b.curr ∧ l.localIfaceAddr = remote) then
    if lookupLinkStatus s l = .sym then { b with curr := value, goodLink := some l }
    else { b with curr := value, backupLink := some l }
  else b

def bestLinkLoop (env : Env) (s : Nbh) (remote mainAddr : IpAddr) : List LinkEntry → BestLink → Option BestLink
  | [], b => some b
  | l :: ls, b => do
    let e ← s.nbr l.neighbor
    if e.mainAddr ≠ mainAddr then bestLinkLoop env s remote mainAddr ls b
    else if env.cnf.lqLevel = 0 then
      match l.interface env with
      | none => bestLinkLoop env s remote mainAddr ls b
      | some ifc => bestLinkLoop env s remote mainAddr ls (b.offer s remote l ifc.intMetric)
    else bestLinkLoop env s remote mainAddr ls (b.offer s remote l l.linkcost.toNat)

/-- `get_best_link_to_neighbor` -/
def getBestLinkToNeighbor (env : Env) (s : Nbh) (remote : IpAddr) : Option (Option LinkEntry) := do
  let start := if env.cnf.lqLevel = 0 then maxIfMetric else linkCostBroken.toNat
  let b ← bestLinkLoop env s remote (midMainAddr s.mid remote) s.links ⟨start, none, none⟩
  pure (b.goodLink.or b.backupLink)

end Olsrd.Neighbor
