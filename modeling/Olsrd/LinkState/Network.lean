/-
Nodes that tell each other of their neighbours with LQ_TC messages. A message may come in at any node, at any time, any
number of times or not at all, with the TTL and the hop count that it has got on its way. HELLO messages, aliases,
timers, link qualities and SPF runs go on at the nodes meanwhile.
-/
import Olsrd.Packet.Mantissa
import Olsrd.Spf.OwnEdges
import Olsrd.Topology.TcAgreement

namespace Olsrd.LinkState

open Bytes (Mem)
open Olsrd.Topology (TcHead TcFragment Sender serializeLqTc lqTcMessage)
open Olsrd.Neighbor (TcInput LqTcMessage createLqTc)

/-! ## The nodes -/

/-- The configurations, and how the plugin writes the quality of a link, which takes four bytes. -/
structure Mesh (V Lq Hq : Type) where
  env : V → Spf.Env Lq Hq
  serializeTcLq : Hq → List UInt8
  length_serializeTcLq : ∀ q, (serializeTcLq q).length = 4

/-- A message: who has sent it, the sender when it built the TC, the TC, and the bytes. -/
structure Packet (V Lq Hq : Type) where
  sender : V
  node : Spf.Node Lq Hq
  tc : LqTcMessage
  bytes : List UInt8

/-- The nodes with their sequence numbers, and all messages that were sent. -/
structure Net (V Lq Hq : Type) where
  node : V → Spf.Node Lq Hq
  ansn : V → UInt16
  messageSeqno : V → UInt16
  log : List (Packet V Lq Hq)

variable {V Lq Hq : Type}

/-- The fields of the message header, as `serialize_common` writes them, and the ANSN. -/
def headOf (m : LqTcMessage) : Option TcHead := do
  let vtime ← reltimeToMe (UInt32.ofNat m.vtime)
  pure
    { type := UInt8.ofNat lqTcMessage
      vtime := vtime
      originator := m.orig
      ttl := UInt8.ofNat m.ttl
      hops := UInt8.ofNat m.hops
      ansn := m.ansn }

/-- What a node puts into its TC, with the qualities of its links. -/
def tcInput (mesh : Mesh V Lq Hq) (n : Spf.Node Lq Hq) (x : TcInput) : TcInput :=
  { x with copylq := fun l => mesh.serializeTcLq (n.linkquality l.id) }

/-- `olsr_output_lq_tc`: the TC, and the messages that go to the output buffer. -/
def outputLqTc (mesh : Mesh V Lq Hq) (net : Net V Lq Hq) (v : V) (x : TcInput) (pending maxsize : Nat) :
    Option (LqTcMessage × Sender) := do
  let m ← createLqTc (mesh.env v).neighbor (net.node v).nbh (net.ansn v) (tcInput mesh (net.node v) x)
  let st ← serializeLqTc (mesh.env v).cnf (← headOf m) ⟨pending, maxsize, net.messageSeqno v, []⟩ m.neigh
  pure (m, st)

/-- A message after some hops: forwarders change its TTL and its hop count. -/
def relayed (cnf : Cnf) (bytes : List UInt8) (ttl hops : UInt8) : List UInt8 :=
  (bytes.set (4 + cnf.ipsize) ttl).set (5 + cnf.ipsize) hops

/-! ## Events -/

inductive NetEvent (V Lq Hq : Type) where
  /-- a TC goes into the output buffer of an interface -/
  | outputLqTc (v : V) (x : TcInput) (pending maxsize : Nat)
  /-- a message comes in; the memory from its start on may hold anything behind it -/
  | deliver (v : V) (symLink : Bool) (p : Packet V Lq Hq) (ttl hops : UInt8) (msg : Mem)
  | increaseAnsn (v : V)
  /-- another message takes a sequence number -/
  | takeSeqno (v : V)
  | node (v : V) (ev : Spf.Event Hq)

section

variable (mesh : Mesh V Lq Hq)

/-- An address that all nodes take for one. -/
def Mesh.Accepted (a : IpAddr) : Prop :=
  ∀ v, a.length = (mesh.env v).cnf.ipsize ∧ olsrValidateAddress (mesh.env v).cnf a = true

/-- The other events of a node; the addresses they bring are accepted. -/
def Local : Spf.Event Hq → Prop
  | .nbh ev => ev.Brings mesh.Accepted
  | .inputTc .. => False
  | _ => True

/-- An event can happen: the output buffer has room for a message, and only what was sent comes in. The parser drops
messages that come from this node. -/
def NetEvent.Enabled (net : Net V Lq Hq) : NetEvent V Lq Hq → Prop
  | .outputLqTc v _ pending maxsize => pending ≤ maxsize ∧ 12 + (mesh.env v).cnf.ipsize ≤ maxsize ∧ maxsize < 65536
  | .deliver v _ p ttl hops msg => p ∈ net.log ∧ (mesh.env p.sender).cnf.mainAddr ≠ (mesh.env v).cnf.mainAddr ∧
      Topology.Holds msg (relayed (mesh.env v).cnf p.bytes ttl hops)
  | .increaseAnsn _ | .takeSeqno _ => True
  | .node v ev => ev.Enabled (mesh.env v) (net.node v) ∧ Local mesh ev

variable [DecidableEq V]

def Net.setNode (net : Net V Lq Hq) (v : V) (n : Spf.Node Lq Hq) : Net V Lq Hq :=
  { net with node := Function.update net.node v n }

def Net.step (net : Net V Lq Hq) : NetEvent V Lq Hq → Option (Net V Lq Hq)
  | .outputLqTc v x pending maxsize => (outputLqTc mesh net v x pending maxsize).map fun r =>
      { net with
        messageSeqno := Function.update net.messageSeqno v r.2.messageSeqno
        log := r.2.sent.map (⟨v, net.node v, r.1, ·⟩) ++ net.log }
  | .deliver v symLink _ _ _ msg => (Spf.step (mesh.env v) (net.node v) (.inputTc symLink msg)).map (net.setNode v)
  | .increaseAnsn v => some { net with ansn := Function.update net.ansn v (net.ansn v + 1) }
  | .takeSeqno v => some { net with messageSeqno := Function.update net.messageSeqno v (net.messageSeqno v + 1) }
  | .node v ev => (Spf.step (mesh.env v) (net.node v) ev).map (net.setNode v)

/-- All nodes have started, and nothing was sent. -/
def Start (net : Net V Lq Hq) : Prop := (∀ v, Spf.Start (mesh.env v) (net.node v)) ∧ net.log = []

/-- The states of the network. -/
def Reachable : Net V Lq Hq → Prop :=
  Run.Reaches (Start mesh) (fun net e => e.Enabled mesh net) (Net.step mesh)

/-- The nodes have one address family, and go by link qualities. -/
structure Mesh.Agreed : Prop where
  ipVersion : ∀ v w, (mesh.env v).cnf.ipVersion = (mesh.env w).cnf.ipVersion
  lqLevel : ∀ v, 0 < (mesh.env v).cnf.lqLevel
  mainAddr : ∀ v, mesh.Accepted (mesh.env v).cnf.mainAddr

end

end Olsrd.LinkState
