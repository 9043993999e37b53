/-
The smart gateway state machine: the gateway tree, the current gateways with their tunnels (`gateway.c`), and the
default handler that selects them (`gateway_default_handler.c`). The kernel routes into the tunnels and the timer
that repeats the selection are left out: a selection may happen at any time.
-/
import Olsrd.Flood.DuplicateSet
import Olsrd.Gateway.Netmask
import Olsrd.Lib.Keyed
import Olsrd.Spf.Calculate

namespace Olsrd.Gateway

open Bytes
open Olsrd.Flood (olsrSeqnoDiff)
open Olsrd.Spf (routeCostBroken)

/-! ## State -/

/-- IPv4 and IPv6 traffic, for which gateways are chosen apart. -/
inductive Family where
  | v4
  | v6
  deriving DecidableEq

/-- The families two flags of a call stand for. -/
def families (ipv4 ipv6 : Bool) : Family → Bool
  | .v4 => ipv4
  | .v6 => ipv6

/-- The address of a gateway entry. -/
abbrev GwPtr := Nat

/-- The end of a tunnel; `none` is what lies at the originator of a gateway at address zero. -/
abbrev Target := Option IpAddr

/-- The globals of `gateway.c`, the tunnels of `kernel_tunnel.c` by their usage, and of the default handler. -/
structure GwState where
  /-- `gateway_tree` in its order; the entries are in `mem` -/
  tree : List (IpAddr × GwPtr)
  mem : GwPtr → GatewayEntry
  /-- `current_ipv4_gw`, `current_ipv6_gw` -/
  current : Family → Option GwPtr
  /-- `v4gw_tunnel`, `v6gw_tunnel` by their target -/
  tunnel : Family → Option Target
  choosenExternal : Family → Bool
  /-- `usage` in the tunnel tree, 0 if there is no tunnel -/
  usage : Target → Nat
  /-- `gw_def_finished_ipv4`, `gw_def_finished_ipv6` -/
  finished : Family → Bool
  /-- `path_cost` of the TC entry of a node, if it has one -/
  pathCost : IpAddr → Option Nat
  /-- for the record: the originator of a gateway at address zero was taken -/
  nullTaken : Bool

section Functions

variable (platform : Platform) (cnf : GwCnf)

/-- The families for which a node looks for a gateway. -/
def GwCnf.serves : Family → Bool
  | .v4 => cnf.ipVersion == .inet || cnf.useNiit
  | .v6 => cnf.ipVersion == .inet6

/-- A valid gateway for the family. -/
def GatewayEntry.valid (gw : GatewayEntry) : Family → Bool
  | .v4 => gw.ipv4 && (!gw.ipv4nat || cnf.smartGwAllowNat)
  | .v6 => gw.ipv6

/-- What `gw_default_choose_gateway` asks of a gateway. -/
def GatewayEntry.candidate (gw : GatewayEntry) : Family → Bool
  | .v4 => gw.ipv4 && gw.ipv4nat == cnf.smartGwAllowNat
  | .v6 => gw.ipv6

def GatewayEntry.offers (gw : GatewayEntry) : Bool := gw.ipv4 || gw.ipv6

/-- `olsr_find_gateway_entry` -/
def olsrFindGatewayEntry (s : GwState) (originator : IpAddr) : Option GwPtr := Keyed.find originator s.tree

def GwState.modify (s : GwState) (p : GwPtr) (f : GatewayEntry → GatewayEntry) : GwState :=
  { s with mem := Function.update s.mem p (f (s.mem p)) }

/-! ## Tunnels -/

/-- `olsr_os_add_ipip_tunnel`, which is taken to succeed -/
def olsrOsAddIpipTunnel (s : GwState) (target : Target) : GwState :=
  { s with usage := Function.update s.usage target (s.usage target + 1) }

/-- `olsr_os_del_ipip_tunnel` -/
def olsrOsDelIpipTunnel (s : GwState) : Option Target → GwState
  | some target => { s with usage := Function.update s.usage target (s.usage target - 1) }
  | none => s

/-- The tunnel to the current gateway of a family, whose originator is taken without a look at the pointer. -/
def openTunnel (external : Bool) (s : GwState) (f : Family) : GwState :=
  let target : Target := (s.current f).map fun p => (s.mem p).originator
  { olsrOsAddIpipTunnel s target with
    tunnel := Function.update s.tunnel f (some target)
    choosenExternal := Function.update s.choosenExternal f external
    nullTaken := s.nullTaken || (s.current f).isNone }

/-- The part of `olsr_set_inet_gateway` that handles the tunnel of a family: `old` is the gateway and `oldTunnel` the
tunnel from before. -/
def switchTunnel (old : Option GwPtr) (oldTunnel : Option Target) (external : Bool) (s : GwState) (f : Family) :
    GwState :=
  if old = s.current f then s
  else
    let s := openTunnel external s f
    if old ≠ none then olsrOsDelIpipTunnel s oldTunnel else s

/-- The part of `olsr_set_inet_gateway` that sets the current gateways of the families it is called for. -/
def setPointers (s : GwState) (originator : IpAddr) (want : Family → Bool) : GwState :=
  let s := { s with current := fun f => if want f then none else s.current f }
  match olsrFindGatewayEntry s originator with
  | none => s
  | some p => { s with current := fun f => if want f && (s.mem p).valid cnf f then some p else s.current f }

/-- `olsr_set_inet_gateway`; `want` are `ipv4` and `ipv6`. -/
def olsrSetInetGateway (s : GwState) (originator : IpAddr) (want : Family → Bool) (external : Bool) : GwState :=
  let old := s.current
  let oldTunnel := s.tunnel
  let s := setPointers cnf s originator fun f => want f && cnf.serves f
  let s := switchTunnel (old .v4) (oldTunnel .v4) external s .v4
  switchTunnel (old .v6) (oldTunnel .v6) external s .v6

/-! ## The default handler -/

/-- One round of the loop in `gw_default_choose_gateway`, for one of the families. -/
def chooseStep (s : GwState) (f : Family) (best : Option GwPtr × Nat) (e : IpAddr × GwPtr) : Option GwPtr × Nat :=
  match s.pathCost (s.mem e.2).originator with
  | none => best
  | some cost =>
    if !s.finished f && (s.mem e.2).candidate cnf f && cost < best.2 then (some e.2, cost) else best

/-- The best gateway for a family. -/
def inetGateway (s : GwState) (f : Family) : Option GwPtr :=
  (s.tree.foldl (chooseStep cnf s f) (none, routeCostBroken)).1

/-- `gw_default_choose_gateway` -/
def gwDefaultChooseGateway (s : GwState) : GwState :=
  let inet := inetGateway cnf s
  let s := { s with finished := fun f => s.finished f || (inet f).isSome }
  let dual := inet .v4 == inet .v6
  let s := match inet .v4 with
    | some p => olsrSetInetGateway cnf s (s.mem p).originator (families true dual) false
    | none => s
  match inet .v6 with
  | some p =>
    if dual then s else olsrSetInetGateway cnf s (s.mem p).originator (families false true) false
  | none => s

/-- The value that `olsr_gw_default_lookup_gateway` and the startup handler begin with. -/
def unserved : Family → Bool
  | .v4 => cnf.ipVersion == .inet6 && !cnf.useNiit
  | .v6 => cnf.ipVersion == .inet

/-- `olsr_gw_default_lookup_gateway` -/
def olsrGwDefaultLookupGateway (s : GwState) (want : Family → Bool) : GwState :=
  let s := { s with finished := fun f => if want f then unserved cnf f else s.finished f }
  if !(s.finished .v4 && s.finished .v6) then gwDefaultChooseGateway cnf s else s

def GwCnf.hasGateway : Family → Bool
  | .v4 => cnf.hasIpv4Gateway
  | .v6 => cnf.hasIpv6Gateway

/-- `gw_default_startup_handler` -/
def gwDefaultStartupHandler (s : GwState) : GwState :=
  { s with finished := fun f => unserved cnf f || cnf.hasGateway f }

/-- `gw_default_update_handler` -/
def gwDefaultUpdateHandler (s : GwState) (gw : GwPtr) : GwState :=
  let changed := fun f => s.current f == some gw && !(s.mem gw).valid cnf f
  if changed .v4 || changed .v6 then olsrGwDefaultLookupGateway cnf s changed else s

/-- `gw_default_delete_handler` -/
def gwDefaultDeleteHandler (s : GwState) (gw : GwPtr) : GwState :=
  let is := fun f => s.current f == some gw
  if is .v4 || is .v6 then olsrGwDefaultLookupGateway cnf s is else s

/-- `gw_default_choosegw_handler` -/
def gwDefaultChoosegwHandler (s : GwState) (want : Family → Bool) : GwState :=
  let s := olsrGwDefaultLookupGateway cnf s want
  if !(s.finished .v4 && s.finished .v6) then gwDefaultStartupHandler cnf s else s

/-! ## Gateway entries -/

/-- What `olsr_cookie_malloc` returns for a new entry, which has all bytes zero, with the originator set. -/
def newGatewayEntry (originator : IpAddr) : GatewayEntry where
  originator := originator
  externalPrefix := .zero
  uplink := 0
  downlink := 0
  ipv4 := false
  ipv4nat := false
  ipv6 := false
  cleanupTimer := .none
  seqno := 0
  deleted := false

/-- The update of an entry by a new HNA. -/
def GatewayEntry.refresh (gw : GatewayEntry) (mask : Mem) (prefixlen : Nat) (seqno : UInt16) : GatewayEntry :=
  { ({ gw with seqno := seqno }.readNetmask cnf.ipVersion prefixlen mask) with cleanupTimer := .none, deleted := false }

/-- `olsr_update_gateway_entry`; a new entry lies at `block`. -/
def olsrUpdateGatewayEntry (s : GwState) (originator : IpAddr) (mask : Mem) (prefixlen : Nat) (seqno : UInt16)
    (block : GwPtr) : GwState :=
  match olsrFindGatewayEntry s originator with
  | none =>
    let s := { s with
      tree := Keyed.insert (addrLt platform cnf.ipVersion) originator block s.tree
      mem := Function.update s.mem block ((newGatewayEntry originator).refresh cnf mask prefixlen seqno) }
    gwDefaultUpdateHandler cnf s block
  | some gw =>
    if olsrSeqnoDiff seqno (s.mem gw).seqno ≤ 0 then s
    else gwDefaultUpdateHandler cnf (s.modify gw fun e => e.refresh cnf mask prefixlen seqno) gw

/-- `cleanup_gateway_handler` -/
def cleanupGatewayHandler (s : GwState) (gw : GwPtr) : GwState :=
  if (s.mem gw).offers then s.modify gw fun e => { e with cleanupTimer := .fired }
  else { s with tree := Keyed.erase gw s.tree }

def forceDeleteGwEntry : UInt8 := 255

/-- The flags that go with the HNA of a prefix. -/
def GatewayEntry.lose (gw : GatewayEntry) (prefixlen : UInt8) : GatewayEntry :=
  if cnf.ipVersion = .inet ∧ prefixlen.toNat = InetRoute.ipv4.prefixLen then { gw with ipv4 := false, ipv4nat := false }
  else if cnf.ipVersion = .inet6 ∧ prefixlen.toNat = InetRoute.ipv6.prefixLen then { gw with ipv6 := false }
  else if cnf.ipVersion = .inet6 ∧ prefixlen.toNat = InetRoute.mappedv4.prefixLen then
    { gw with ipv4 := false, ipv4nat := false }
  else gw

/-- The flags `change` is set from: those that are cleared. -/
def GatewayEntry.changedBy (gw : GatewayEntry) (prefixlen : UInt8) : Bool :=
  gw.ipv4 != (gw.lose cnf prefixlen).ipv4 || gw.ipv6 != (gw.lose cnf prefixlen).ipv6

/-- The cleanup of a current gateway that `olsr_delete_gateway_entry` found no other for. -/
def dropCurrent (gw : GwPtr) (s : GwState) (f : Family) : GwState :=
  if s.current f = some gw then
    let s := olsrOsDelIpipTunnel s (s.tunnel f)
    { s with current := Function.update s.current f none, tunnel := Function.update s.tunnel f none }
  else s

/-- This prevents the gateway from being chosen as the new gateway. -/
def GatewayEntry.clear (gw : GatewayEntry) : GatewayEntry := { gw with ipv4 := false, ipv4nat := false, ipv6 := false }

def GatewayEntry.awaitCleanup (gw : GatewayEntry) : GatewayEntry :=
  { gw with cleanupTimer := .running, deleted := true }

/-- The part of `olsr_delete_gateway_entry` for an entry that is left without a family. -/
def removeGateway (s : GwState) (gw : GwPtr) : GwState :=
  let s := s.modify gw GatewayEntry.clear
  let s := gwDefaultDeleteHandler cnf s gw
  let s := dropCurrent gw (dropCurrent gw s .v4) .v6
  s.modify gw GatewayEntry.awaitCleanup

/-- `olsr_delete_gateway_entry` -/
def olsrDeleteGatewayEntry (s : GwState) (originator : IpAddr) (prefixlen : UInt8) : GwState :=
  match olsrFindGatewayEntry s originator with
  | none => s
  | some gw =>
    if (s.mem gw).cleanupTimer = .none ∨ (s.mem gw).offers then
      let change := (s.mem gw).changedBy cnf prefixlen
      let s := s.modify gw fun e => e.lose cnf prefixlen
      if prefixlen = forceDeleteGwEntry ∨ ¬(s.mem gw).offers then removeGateway cnf s gw
      else if change then gwDefaultUpdateHandler cnf s gw
      else s
    else s

/-! ## Steps -/

inductive GwEvent where
  | update (originator : IpAddr) (mask : Mem) (prefixlen : Nat) (seqno : UInt16) (block : GwPtr)
  | delete (originator : IpAddr) (prefixlen : UInt8)
  | set (originator : IpAddr) (want : Family → Bool) (external : Bool)
  /-- `olsr_trigger_inetgw_selection` -/
  | select (want : Family → Bool)
  | startup
  /-- `gw_default_timer`, when the count of nodes is stable -/
  | choose
  | pathCosts (pathCost : IpAddr → Option Nat)
  | cleanup (gw : GwPtr)

/-- A step, if it can happen: a new entry gets a block that none has, and only a running timer fires. -/
def GwState.step (s : GwState) : GwEvent → Option GwState
  | .update originator mask prefixlen seqno block =>
    if block ∈ s.tree.map Prod.snd then none
    else some (olsrUpdateGatewayEntry platform cnf s originator mask prefixlen seqno block)
  | .delete originator prefixlen => some (olsrDeleteGatewayEntry cnf s originator prefixlen)
  | .set originator want external => some (olsrSetInetGateway cnf s originator want external)
  | .select want => some (gwDefaultChoosegwHandler cnf s want)
  | .startup => some (gwDefaultStartupHandler cnf s)
  | .choose => some (gwDefaultChooseGateway cnf s)
  | .pathCosts pathCost => some { s with pathCost := pathCost }
  | .cleanup gw =>
    if gw ∈ s.tree.map Prod.snd ∧ (s.mem gw).cleanupTimer = .running then some (cleanupGatewayHandler s gw) else none

end Functions

end Olsrd.Gateway
