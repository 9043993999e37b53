/-
Nodes with PLC adapters that go by the metric `etx_hybrid_plc`. A node announces the MAC of its adapter
(`plc_distribution_service.c`), asks the adapter for the rates to other adapters (`plc_service.c`), and tells its
neighbours the qualities of its links. Messages come in at any time, again, or not at all.
-/
import Olsrd.LinkQuality.Smoothing
import Olsrd.LinkQuality.Window

namespace Olsrd.Hybrid

open Bytes (Mem)
open Olsrd.LinkQuality
open Olsrd.Neighbor (LinkStatus linkCostBroken)
open Olsrd.Plc (Mac PlcData PlcTable PlcMessage initPlcPeerNeighbors updatePlcPeerData olsrParsePlcMsg
  deletePlcPeerNeighbor)

/-! ## The nodes -/

/-- What the plugin uses of a link, with the quality that the link has -/
structure HybridLink where
  localIfaceAddr : IpAddr
  link : Link
  hello : DefaultLqHybridPlcHello
  smoothedLq : DefaultLqHybridPlc
  linkcost : UInt32

/-- The data of `linklayer_plc_data.c`, whether `distribution_service_init` has been called, and the links. -/
structure Node where
  peers : PlcTable
  ownPlcMac : Mac
  ready : Bool
  distributing : Bool
  links : List HybridLink

/-- After `olsrd_plugin_init` of `hybrid_PLC` -/
def startNode : Node := ⟨initPlcPeerNeighbors, List.replicate 6 0, false, false, []⟩

/-! ## Qualities in HELLO messages -/

/-- `default_lq_serialize_hello_lq_pair_hybrid_plc` -/
def defaultLqSerializeHelloLqPairHybridPlc (lq : DefaultLqHybridPlc) : List UInt8 :=
  [lq.bandwidth, lq.quality, lq.valueLq, lq.valueNlq]

/-- `default_lq_deserialize_hello_lq_pair_hybrid_plc` -/
def defaultLqDeserializeHelloLqPairHybridPlc (curr : List UInt8) : DefaultLqHybridPlc where
  bandwidth := curr.getD 0 0
  quality := curr.getD 1 0
  valueLq := curr.getD 2 0
  valueNlq := curr.getD 3 0

@[simp] theorem deserialize_serialize (lq : DefaultLqHybridPlc) :
    defaultLqDeserializeHelloLqPairHybridPlc (defaultLqSerializeHelloLqPairHybridPlc lq) = lq := rfl

/-- `default_lq_memorize_foreign_hello_hybrid_plc` -/
def defaultLqMemorizeForeignHelloHybridPlc (h : DefaultLqHybridPlcHello) (foreign : Option DefaultLqHybridPlc) :
    DefaultLqHybridPlcHello :=
  { h with lq := { h.lq with valueNlq := foreign.elim 0 DefaultLqHybridPlc.valueLq } }

/-- `struct lq_hello_neighbor`, as it is sent -/
structure LqHelloNeighbor where
  addr : IpAddr
  linkType : LinkStatus
  linkquality : List UInt8

/-- The neighbours of `create_lq_hello` with the qualities of their links; the status of a link is outside. -/
def createLqHello (lookupLinkStatus : HybridLink → LinkStatus) (links : List HybridLink) (outif : IpAddr) :
    List LqHelloNeighbor :=
  links.map fun walker =>
    { addr := walker.link.neighborIfaceAddr
      linkType := if walker.localIfaceAddr = outif then lookupLinkStatus walker else .unspec
      linkquality := defaultLqSerializeHelloLqPairHybridPlc walker.smoothedLq }

/-- What a neighbour says in its HELLO of the link to the interface with the address `inIf`, if it says something. -/
def foreignLq (inIf : IpAddr) (ns : List LqHelloNeighbor) : Option DefaultLqHybridPlc :=
  (ns.find? fun walker => walker.linkType != .unspec && walker.addr == inIf).map fun walker =>
    defaultLqDeserializeHelloLqPairHybridPlc walker.linkquality

/-! ## What happens to a node -/

/-- `add_link_entry` -/
def addLinkEntry (localIfaceAddr : IpAddr) (link : Link) (nd : Node) : Node :=
  { nd with links := ⟨localIfaceAddr, link, defaultLqClearHybridPlcHello, ⟨0, 0, 0, 0⟩, linkCostBroken⟩ :: nd.links }

/-- Something happens to the quality of the link `i`. -/
def Node.onLink (nd : Node) (i : Nat) (f : DefaultLqHybridPlcHello → DefaultLqHybridPlcHello) : Node :=
  { nd with links := nd.links.modify i fun l => { l with hello := f l.hello } }

/-- What `default_lq_hybrid_plc_handle_lqchange` uses of a link -/
def HybridLink.lqLink (l : HybridLink) : LqLink := ⟨l.smoothedLq, l.hello.lq, l.linkcost⟩

/-- `default_lq_hybrid_plc_timer` -/
def defaultLqHybridPlcTimers (nd : Node) : Node :=
  let links := nd.links.map fun l => { l with hello := defaultLqHybridPlcTimer nd.peers l.link l.hello }
  let changed := (defaultLqHybridPlcHandleLqchange (links.map HybridLink.lqLink)).1
  { nd with
    links := List.zipWith (fun l c => { l with smoothedLq := c.smoothedLq, linkcost := c.linkcost }) links changed }

/-- `save_plc_data` -/
def savePlcData (peers : PlcTable) (pData : List PlcData) : Option PlcTable :=
  Run.forEach updatePlcPeerData pData peers

/-- `update_plc_data`, where the adapter has answered from `plcMac` with the stations `pData`, and its tone maps give
the raw rates. -/
def updatePlcData (nd : Node) (plcMac : Mac) (pData : List PlcData) (rawRate : Mac → UInt32 → UInt32) :
    Option Node := do
  -- `set_own_plc_mac`
  let nd := { nd with ownPlcMac := plcMac, ready := true }
  let peers ← savePlcData nd.peers pData
  let pData := pData.map fun d => { d with rawModulationRate := rawRate d.mac d.rawModulationRate }
  let peers ← savePlcData peers pData
  pure { nd with peers := peers }

/-- `start_distribution_service` -/
def startDistributionService (nd : Node) : Node := if nd.ready then { nd with distributing := true } else nd

/-- `olsr_send_plc_msg`; the two bytes behind `own_plc_mac` are sent too. -/
def olsrSendPlcMsg (mainAddr : IpAddr) (nd : Node) (behind : List UInt8) : Option PlcMessage :=
  if nd.distributing then some ⟨mainAddr, fun i => (nd.ownPlcMac ++ behind).getD i 0⟩ else none

/-! ## The network -/

inductive Entry (V : Type) where
  /-- the adapter of `v` has answered from the MAC `plcMac`, with the rates of stations -/
  | reported (v : V) (plcMac : Mac) (pData : List PlcData)
  | plcMsg (v : V) (m : PlcMessage)
  /-- a HELLO of a node with these links -/
  | hello (v : V) (outif : IpAddr) (links : List HybridLink) (ns : List LqHelloNeighbor)

/-- The nodes, and what has happened between them. -/
structure Net (V : Type) where
  node : V → Node
  log : List (Entry V)

inductive NetEvent (V : Type) where
  | addLink (v : V) (localIfaceAddr : IpAddr) (link : Link)
  | deleteLink (v : V) (i : Nat)
  | packet (v : V) (i : Nat) (seqno : UInt16)
  | packetLoss (v : V) (i : Nat) (lost : Bool)
  | hello (v : V) (outif : IpAddr) (lookupLinkStatus : HybridLink → LinkStatus)
  /-- a HELLO, or a part of it, comes in on the link `i` -/
  | hear (v : V) (i : Nat) (ns : List LqHelloNeighbor)
  | timer (v : V)
  | update (v : V) (plcMac : Mac) (pData : List PlcData) (rawRate : Mac → UInt32 → UInt32)
  | startDistribution (v : V)
  | sendPlcMsg (v : V) (behind : List UInt8)
  | parsePlcMsg (v : V) (m : PlcMessage)
  | deletePeer (v : V) (a : IpAddr)

section

variable {V : Type}

/-- An event can happen: adapters have MACs of six bytes, and only what was sent comes in, a HELLO from the interface at
the other end of the link. -/
def NetEvent.Enabled (net : Net V) : NetEvent V → Prop
  | .hear v i ns => ∃ l, (net.node v).links[i]? = some l ∧
      ∃ w links ns', .hello w l.link.neighborIfaceAddr links ns' ∈ net.log ∧ ∀ n ∈ ns, n ∈ ns'
  | .update _ plcMac _ _ => plcMac.length = 6
  | .parsePlcMsg _ m => ∃ w, .plcMsg w m ∈ net.log
  | _ => True

variable [DecidableEq V]

def Net.setNode (net : Net V) (v : V) (nd : Node) (log : List (Entry V)) : Net V :=
  ⟨Function.update net.node v nd, log ++ net.log⟩

/-- A step; `mainAddr` gives the main addresses of the nodes. -/
def Net.step (mainAddr : V → IpAddr) (net : Net V) : NetEvent V → Option (Net V)
  | .addLink v localIfaceAddr link => some (net.setNode v (addLinkEntry localIfaceAddr link (net.node v)) [])
  | .deleteLink v i => some (net.setNode v { net.node v with links := (net.node v).links.eraseIdx i } [])
  | .packet v i seqno => some (net.setNode v ((net.node v).onLink i (defaultLqParserHybridPlc · seqno)) [])
  | .packetLoss v i lost => some (net.setNode v ((net.node v).onLink i (defaultLqPacketLossWorkerHybridPlc · lost)) [])
  | .hello v outif lookupLinkStatus => some (net.setNode v (net.node v)
      [.hello v outif (net.node v).links (createLqHello lookupLinkStatus (net.node v).links outif)])
  | .hear v i ns => do
    let l ← (net.node v).links[i]?
    pure (net.setNode v ((net.node v).onLink i
      (defaultLqMemorizeForeignHelloHybridPlc · (foreignLq l.localIfaceAddr ns))) [])
  | .timer v => some (net.setNode v (defaultLqHybridPlcTimers (net.node v)) [])
  | .update v plcMac pData rawRate => (updatePlcData (net.node v) plcMac pData rawRate).map
      (net.setNode v · [.reported v plcMac pData])
  | .startDistribution v => some (net.setNode v (startDistributionService (net.node v)) [])
  | .sendPlcMsg v behind => (olsrSendPlcMsg (mainAddr v) (net.node v) behind).map fun m =>
      net.setNode v (net.node v) [.plcMsg v m]
  | .parsePlcMsg v m => some (net.setNode v
      { net.node v with peers := olsrParsePlcMsg (net.node v).peers m } [])
  | .deletePeer v a => some (net.setNode v { net.node v with peers := deletePlcPeerNeighbor (net.node v).peers a } [])

/-- The states of the network. -/
def Reachable (mainAddr : V → IpAddr) : Net V → Prop :=
  Run.Reaches (· = ⟨fun _ => startNode, []⟩) (fun net e => e.Enabled net) (Net.step mainAddr)

end

end Olsrd.Hybrid
