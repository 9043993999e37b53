/-
Nodes that tell each other of their interfaces with MID messages and of their networks with HNA messages. A message may
come in at any node, at any time, any number of times or not at all, with the TTL and the hop count that it has got on
its way. HELLO messages, the link state database, timers and path calculations go on at the nodes meanwhile.
-/
import Olsrd.Announce.Sources
import Olsrd.LinkState.Messages
import Olsrd.Message.Mid

namespace Olsrd.Announce

open Bytes (Mem)
open Olsrd.LinkState (relayed)
open Olsrd.Message (HnaEntry queueMid queueHna midHdrsize hnaHdrsize netmaskToPrefix)
open Olsrd.Routing
open Olsrd.Topology (Holds Sender IpPrefix)

/-! ## Messages that come in -/

/-- What `olsr_input_mid` meets: the time, a random number for a timer, and what it meets with each alias. -/
structure MidInput where
  now : Nat
  random : Nat
  aliasInput : Nat → AliasInput

/-- `olsr_input_mid`; `symLink` is the outcome of `check_neighbor_link` for the sender. -/
def olsrInputMid (env : NodeEnv) (n : Sources) (symLink : Bool) (msg : Mem) (x : MidInput) : Option Sources := do
  let message ← (midChgestruct env.cnf msg).1
  if !olsrValidateAddress env.cnf message.addr then pure n
  else if !symLink then pure n
  else do
    let n ← stepSources env n (.updateMidTable x.now x.random message.addr message.vtime)
    let n ← Run.forEach (fun n a => stepSources env n (.inputMidAlias x.now message.addr message.vtime
      { x.aliasInput a.2 with aliasAddr := a.1 })) message.aliases.zipIdx n
    stepSources env n (.pruneAliases x.now message.addr message.vtime message.aliases)

/-- `ip_prefix_list_find` -/
def ipPrefixListFind (list : List HnaEntry) (net : IpAddr) (prefixLen : UInt8) : Option HnaEntry :=
  list.find? fun h => h.pfx == net && h.prefixLen == prefixLen

/-- The loop body of `olsr_input_hna`. What becomes of gateways is not here. -/
def inputHnaNetwork (env : NodeEnv) (hnaEntries : List HnaEntry) (originator : IpAddr) (n : Sources)
    (pair : IpAddr × IpAddr) (p q : Ptr) : Option Sources :=
  let prefixLen := netmaskToPrefix pair.2
  -- the address of an interface of this node is a collision
  if env.ifaddrs.contains pair.1 then some n
  else match ipPrefixListFind hnaEntries pair.1 prefixLen with
    -- only update if it's not from us
    | some _ => some n
    | none => stepSources env n (.updateHnaEntry originator ⟨pair.1, prefixLen.toNat⟩ p q)

/-- `olsr_input_hna` with its loop; `blocks` are what the allocator hands out. -/
def inputHna (env : NodeEnv) (hnaEntries : List HnaEntry) (n : Sources) (symLink : Bool) (msg : Mem)
    (blocks : Nat → Ptr × Ptr) : Option Sources :=
  match (olsrInputHna env.cnf symLink msg).1 with
  | none => some n
  | some pairs => Run.forEach (fun n x => inputHnaNetwork env hnaEntries (msg.slice 4 env.cnf.ipsize) n x.1
      (blocks x.2).1 (blocks x.2).2) pairs.zipIdx n

/-! ## The network -/

/-- What a message is about; a node sends the HNA entries that it has then. -/
inductive Content where
  | mid
  | hna (hnaEntries : List HnaEntry)
  deriving DecidableEq

structure Packet (V : Type) where
  sender : V
  content : Content
  bytes : List UInt8

/-- The nodes with their HNA entries and their sequence numbers, and all messages that were sent. -/
structure Net (V : Type) where
  node : V → Sources
  hnaEntries : V → List HnaEntry
  messageSeqno : V → UInt16
  log : List (Packet V)

inductive NetEvent (V : Type) where
  /-- a MID goes into the output buffer of an interface -/
  | queueMid (v : V) (vtime : UInt8) (pending maxsize : Nat)
  | queueHna (v : V) (vtime : UInt8) (pending maxsize : Nat)
  /-- the networks of a node change -/
  | setHna (v : V) (hnaEntries : List HnaEntry)
  /-- a message comes in; the memory from its start on may hold anything behind it -/
  | inputMid (v : V) (symLink : Bool) (p : Packet V) (ttl hops : UInt8) (msg : Mem) (x : MidInput)
  | inputHna (v : V) (symLink : Bool) (p : Packet V) (ttl hops : UInt8) (msg : Mem) (blocks : Nat → Ptr × Ptr)
  /-- `v` hears a HELLO that `w` has sent from an interface -/
  | hello (v w : V) (now vtime : Nat) (x : AliasInput)
  /-- `v` makes an entry for `w` in its link state database -/
  | locateTcEntry (v w : V) (p : Ptr)
  | expire (v : V) (ev : SourceEvent)
  /-- a step of a path calculation -/
  | table (v : V) (op : TableOp)
  | updateRoutes (v : V)
  /-- another message takes a sequence number -/
  | takeSeqno (v : V)

/-- Entries go, and none come. -/
def Expires : SourceEvent → Prop
  | .deleteTcEntry _ | .expireMidEntry _ | .expireHnaNetEntry .. => True
  | _ => False

/-- A path calculation leaves the prefixes of the originators alone. -/
def Calculates : TableOp → Prop
  | .insertRoutingTable .. | .deleteRoutingTable .. => False
  | _ => True

section

variable {V : Type} (env : V → NodeEnv)

/-- The nodes have one address family, and addresses of it. -/
structure Agreed : Prop where
  ipVersion : ∀ v w, (env v).cnf.ipVersion = (env w).cnf.ipVersion
  mainAddr : ∀ v, (env v).cnf.mainAddr.length = (env v).cnf.ipsize
  ifaddrs : ∀ v, ∀ a ∈ (env v).ifaddrs, a.length = (env v).cnf.ipsize

/-- The networks of a configuration have the addresses and the prefix lengths of the address family. -/
def HnaOk (cnf : Cnf) (hnaEntries : List HnaEntry) : Prop :=
  ∀ h ∈ hnaEntries, h.pfx.length = cnf.ipsize ∧ h.prefixLen.toNat ≤ 8 * cnf.ipsize

/-- An event can happen: the output buffer has room for a message, and only what was sent comes in. -/
def NetEvent.Enabled (net : Net V) : NetEvent V → Prop
  | .queueMid v _ pending maxsize =>
    pending ≤ maxsize ∧ midHdrsize (env v).cnf + (env v).cnf.ipsize ≤ maxsize ∧ maxsize < 65536
  | .queueHna v _ pending maxsize =>
    pending ≤ maxsize ∧ hnaHdrsize (env v).cnf + 2 * (env v).cnf.ipsize ≤ maxsize ∧ maxsize < 65536
  | .setHna v hnaEntries => HnaOk (env v).cnf hnaEntries
  | .inputMid v _ p ttl hops msg _ =>
    p ∈ net.log ∧ p.content = .mid ∧ Holds msg (relayed (env v).cnf p.bytes ttl hops)
  | .inputHna v _ p ttl hops msg _ =>
    p ∈ net.log ∧ p.content ≠ .mid ∧ Holds msg (relayed (env v).cnf p.bytes ttl hops)
  | .hello _ w _ _ x => x.aliasAddr ∈ (env w).ifaddrs
  | .expire _ ev => Expires ev
  | .table _ op => Calculates op
  | .locateTcEntry .. | .updateRoutes _ | .takeSeqno _ => True

variable [DecidableEq V]

def Net.setNode (net : Net V) (v : V) (n : Sources) : Net V := { net with node := Function.update net.node v n }

/-- The messages that a node has put into its output buffer are sent. -/
def Net.send (net : Net V) (v : V) (content : Content) (st : Sender) : Net V :=
  { net with
    messageSeqno := Function.update net.messageSeqno v st.messageSeqno
    log := st.sent.map (⟨v, content, ·⟩) ++ net.log }

def Net.step (net : Net V) : NetEvent V → Option (Net V)
  | .queueMid v vtime pending maxsize =>
    (queueMid (env v).cnf vtime (env v).ifaddrs ⟨pending, maxsize, net.messageSeqno v, []⟩).map (net.send v .mid)
  | .queueHna v vtime pending maxsize =>
    (queueHna (env v).cnf vtime (net.hnaEntries v) ⟨pending, maxsize, net.messageSeqno v, []⟩).map
      (net.send v (.hna (net.hnaEntries v)))
  | .setHna v hnaEntries => some { net with hnaEntries := Function.update net.hnaEntries v hnaEntries }
  | .inputMid v symLink _ _ _ msg x => (olsrInputMid (env v) (net.node v) symLink msg x).map (net.setNode v)
  | .inputHna v symLink _ _ _ msg blocks =>
    (inputHna (env v) (net.hnaEntries v) (net.node v) symLink msg blocks).map (net.setNode v)
  | .hello v w now vtime x =>
    (stepSources (env v) (net.node v) (.helloAlias now (env w).cnf.mainAddr vtime x)).map (net.setNode v)
  | .locateTcEntry v w p => (stepSources (env v) (net.node v) (.locateTcEntry (env w).cnf.mainAddr p)).map
    (net.setNode v)
  | .expire v ev => (stepSources (env v) (net.node v) ev).map (net.setNode v)
  | .table v op => (stepTable (env v).toEnv (net.node v).rib op).map fun rib =>
    net.setNode v { net.node v with rib := rib }
  | .updateRoutes v =>
    (updateRoutes (env v).toEnv (net.node v).rib).map fun rib => net.setNode v { net.node v with rib := rib }
  | .takeSeqno v => some { net with messageSeqno := Function.update net.messageSeqno v (net.messageSeqno v + 1) }

/-- All nodes have started, with their configurations, and nothing was sent. -/
def Start (net : Net V) : Prop :=
  (∀ v, net.node v = noSources ∧ HnaOk (env v).cnf (net.hnaEntries v)) ∧ net.log = []

/-- The states of the network. -/
def Reachable : Net V → Prop := Run.Reaches (Start env) (fun net e => e.Enabled env net) (Net.step env)

end

end Olsrd.Announce
