/-
Nodes that sense their links with HELLO messages and tell each other which of them they have chosen as MPRs. A HELLO may
come in at any node but its sender, at any time, in parts, again, or not at all; timers, aliases and the choice of MPRs
go on meanwhile.
-/
import Olsrd.Sensing.HelloPacket

namespace Olsrd.Sensing

open Olsrd.Message (NeighType)
open Olsrd.Neighbor (Env Nbh Interface LinkEntry LinkStatus HelloInput HelloMessage Ptr)

/-! ## A HELLO comes in -/

/-- `lookup_mpr_status` -/
def lookupMprStatus (ns : List Listed) (inIf : Interface) : Bool :=
  (ns.find? fun n => n.link != .unspec && n.address == inIf.ipAddr).any fun n => n.link == .sym && n.status == .mprNeigh

/-- What the neighbours of a message are to `olsr_hello_tap`, with the costs that the plugin reads out of them. -/
def heardNeighbors (ns : List (Listed × UInt32)) : List Neighbor.HelloNeighbor :=
  ns.map fun n => ⟨n.1.address, n.1.link, n.1.status != .notNeigh, n.2⟩

/-- What `olsr_hello_tap` reads besides the neighbours of the message. -/
structure Reception where
  vtime : Nat
  sourceAddr : IpAddr
  willingness : Nat
  inIf : Interface
  fromAddr : IpAddr
  random : Ptr → Nat
  hyst : Option LinkStatus
  linkcost : UInt32

def Reception.input (r : Reception) (ns : List (Listed × UInt32)) : HelloInput where
  message := { vtime := r.vtime, sourceAddr := r.sourceAddr, willingness := r.willingness, neighbors :=
    heardNeighbors ns }
  inIf := r.inIf
  fromAddr := r.fromAddr
  random := r.random
  hyst := r.hyst
  linkcost := r.linkcost

/-- The check of `olsr_hello_tap` if this node is chosen as MPR. -/
def checkMprStatus (nd : Node) (r : Reception) (ns : List (Listed × UInt32)) : Node :=
  if lookupMprStatus (ns.map Prod.fst) r.inIf then olsrUpdateMprsSet nd (r.random 2) r.sourceAddr r.vtime else nd

/-- `olsr_hello_tap` -/
def olsrHelloTap (env : Env) (nd : Node) (r : Reception) (ns : List (Listed × UInt32)) : Option Node := do
  let (s, id) ← Neighbor.helloLink env nd.nbh (r.input ns)
  let s ← Neighbor.helloAlias env s (r.random 1) (r.input ns).message r.fromAddr
  let s := if env.cnf.lqLevel > 0 then Neighbor.setLinkcost s id r.linkcost else s
  let neighbor ← Neighbor.neighborOf s id
  let nd := checkMprStatus { nd with nbh := s } r ns
  let s ← Neighbor.helloNeighbors env nd.nbh (r.input ns) neighbor
  pure { nd with nbh := s }

/-! ## The network -/

/-- The configurations, and the validity time of the HELLO messages of an interface. -/
structure Mesh (V : Type) where
  env : V → Env
  vtime : V → Interface → Nat
  willingness : V → Nat

/-- A HELLO: who has sent it on which interface, and what the sender was like. -/
structure Packet (V : Type) where
  sender : V
  outIf : Interface
  node : Node
  neighbors : List Listed

inductive Entry (V : Type) where
  | sent (p : Packet V)
  /-- at node `v`, through interface `inIf`, when its clock shows `time` -/
  | received (v : V) (inIf : Interface) (p : Packet V) (time : Nat)

/-- The nodes, and what has happened between them, the latest first. -/
structure Net (V : Type) where
  node : V → Node
  log : List (Entry V)

inductive NetEvent (V : Type) where
  /-- `generate_hello` -/
  | hello (v : V) (outIf : Interface)
  /-- a HELLO comes in, or a part of it; the neighbours come with the costs that are read out of them -/
  | deliver (v : V) (inIf : Interface) (p : Packet V) (ns : List (Listed × UInt32)) (random : Ptr → Nat)
    (hyst : Option LinkStatus) (linkcost : UInt32)
  | tick (v : V) (now : Nat)
  /-- anything else that happens to a neighbourhood -/
  | neighborhood (v : V) (ev : Neighbor.Event)
  /-- the MPRs are chosen anew -/
  | setMprs (v : V) (isMpr : Ptr → Bool)
  /-- `olsr_expire_mpr_sel_entry` -/
  | expireMprSel (v : V) (k : Nat)

/-- The other events of a neighbourhood; hysteresis makes links worse only. -/
def Silent : Neighbor.Event → Prop
  | .tick _ | .helloLink _ => False
  | .expireLinkHello _ hyst => hyst ≠ some .sym
  | _ => True

section

variable {V : Type} (mesh : Mesh V)

/-- What a receiver gets with a HELLO. -/
def Mesh.reception (inIf : Interface) (p : Packet V) (random : Ptr → Nat) (hyst : Option LinkStatus)
    (linkcost : UInt32) : Reception where
  vtime := mesh.vtime p.sender p.outIf
  sourceAddr := (mesh.env p.sender).cnf.mainAddr
  willingness := mesh.willingness p.sender
  inIf := inIf
  fromAddr := p.outIf.ipAddr
  random := random
  hyst := hyst
  linkcost := linkcost

/-- An event can happen: interfaces are those of the node, and HELLO messages come in only if they were sent, by another
node, and say nothing else then. -/
def NetEvent.Enabled (net : Net V) : NetEvent V → Prop
  | .hello v outIf => outIf ∈ (mesh.env v).ifnet
  | .deliver v inIf p ns _ hyst _ => .sent p ∈ net.log ∧ p.sender ≠ v ∧ inIf ∈ (mesh.env v).ifnet ∧
      (∀ n ∈ ns, n.1 ∈ p.neighbors) ∧ hyst ≠ some .sym
  | .tick v now => (net.node v).nbh.now ≤ now
  | .neighborhood v ev => ev.Enabled (net.node v).nbh ∧ Silent ev
  | .setMprs .. => True
  | .expireMprSel v k => k < (net.node v).mprs.length

variable [DecidableEq V]

def Net.step (net : Net V) : NetEvent V → Option (Net V)
  | .hello v outIf => (buildHello (mesh.env v) (net.node v) outIf).map fun ns =>
      { net with log := .sent ⟨v, outIf, net.node v, ns⟩ :: net.log }
  | .deliver v inIf p ns random hyst linkcost =>
    (olsrHelloTap (mesh.env v) (net.node v) (mesh.reception inIf p random hyst linkcost) ns).map fun nd =>
      { node := Function.update net.node v nd, log := .received v inIf p (net.node v).nbh.now :: net.log }
  | .tick v now => some
      { net with node := Function.update net.node v { net.node v with nbh := { (net.node v).nbh with now := now } } }
  | .neighborhood v ev => (Neighbor.step (mesh.env v) (net.node v).nbh ev).map fun s =>
      { net with node := Function.update net.node v { net.node v with nbh := s } }
  | .setMprs v isMpr => some { net with node := Function.update net.node v { net.node v with isMpr := isMpr } }
  | .expireMprSel v k => some { net with node := Function.update net.node v (olsrExpireMprSelEntry (net.node v) k) }

def emptyNet : Net V := ⟨fun _ => emptyNode, []⟩

/-- The states of the network. -/
def Reachable : Net V → Prop :=
  Run.Reaches (· = emptyNet) (fun net e => e.Enabled mesh net) (Net.step mesh)

end

/-- An address belongs to one interface of one node, and a node calls its interfaces by different names. -/
structure Mesh.Addressed {V : Type} (mesh : Mesh V) : Prop where
  node : ∀ v w, ∀ i ∈ (mesh.env v).ifnet, ∀ j ∈ (mesh.env w).ifnet, i.ipAddr = j.ipAddr → v = w
  interface : ∀ v, ∀ i ∈ (mesh.env v).ifnet, ∀ j ∈ (mesh.env v).ifnet, i.ipAddr = j.ipAddr ∨ i.intName =
    j.intName → i = j

end Olsrd.Sensing
