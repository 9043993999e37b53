/-
Nodes that flood messages (`olsr.c`, `parser.c`). What a node puts out on an interface is on its way to all who hear
that interface. A copy comes in late, in any order, twice or not at all, and goes through `parse_packet` to
`olsr_forward_message`, while timers and tables of the nodes go on.
-/
import Olsrd.Flood.Life
import Olsrd.Lib.Run

namespace Olsrd.Flood

/-! ## The network -/

/-- Who hears an interface: a node, the interface it comes in through there, and the address it comes from. -/
structure Hearer (V : Type) where
  node : V
  inIf : Nat
  fromAddr : IpAddr

/-- What stays as it is: the configurations, and who hears interface number `i` of a node. -/
structure Mesh (V : Type) where
  cnf : V → Cnf
  hearers : V → Nat → List (Hearer V)

/-- A copy of a message on its way. -/
structure Copy (V : Type) where
  hearer : Hearer V
  message : Message

/-- The nodes, the copies on their way, the messages put out so far with the nodes that did so, and the copies that have
come in. -/
structure Net (V : Type) where
  node : V → Node
  flight : List (Copy V)
  sent : List (V × Message)
  arrived : List (Copy V)

/-- The originator check of `parse_packet`: own messages, and those of addresses that are not valid, are left out. -/
def dropsOriginator (cnf : Cnf) (o : IpAddr) : Bool := ipequal cnf o cnf.mainAddr || !olsrValidateAddress cnf o

inductive NetEvent (V : Type) where
  /-- the node puts a message of its own into the buffers of some interfaces -/
  | originate (v : V) (ifs : List Nat) (m : Message)
  /-- copy number `k` comes in; the parse functions answer `forward` -/
  | deliver (k : Nat) (forward : Bool)
  | lose (k : Nat)
  | duplicate (k : Nat)
  /-- `olsr_cleanup_duplicate_entry` -/
  | cleanupTimer (v : V)
  /-- `olsr_cleanup_duplicates` -/
  | cleanupDuplicates (v : V) (orig : IpAddr)
  /-- the rest of the node changes -/
  | world (v : V) (w : World)

section

variable {V : Type} [DecidableEq V] (mesh : Mesh V)

/-- The copies of what the node puts out on its interface number `i`. -/
def Mesh.heard (v : V) (m : Message) (i : Nat) : List (Copy V) := (mesh.hearers v i).map fun h => ⟨h, m⟩

/-- The copies of what the latest call of `olsr_forward_message` has put into the buffers. -/
def Mesh.copies (v : V) (ifnet : List Interface) (m : Message) : List (Copy V) :=
  (ifnet.mapIdx fun i ifn => if ifn.copies = 0 then [] else mesh.heard v m i).flatten

/-- What a node does with a copy that comes in. -/
def Net.receive (net : Net V) (c : Copy V) (forward : Bool) : Net V :=
  let net := { net with arrived := c :: net.arrived }
  if dropsOriginator (mesh.cnf c.hearer.node) c.message.originator || !forward then net
  else
    let v := c.hearer.node
    let forwarded := olsrForwardMessage (net.node v) c.message c.hearer.inIf c.hearer.fromAddr
    let net := { net with node := Function.update net.node v forwarded.1 }
    match forwarded.2 with
    | none => net
    | some m =>
      { net with flight := net.flight ++ mesh.copies v forwarded.1.world.ifnet m, sent := (v, m) :: net.sent }

def Net.step (net : Net V) : NetEvent V → Option (Net V)
  | .originate v ifs m =>
    some { net with flight := net.flight ++ ifs.flatMap (mesh.heard v m), sent := (v, m) :: net.sent }
  | .deliver k forward =>
    net.flight[k]?.map fun c => { net with flight := net.flight.eraseIdx k }.receive mesh c forward
  | .lose k => some { net with flight := net.flight.eraseIdx k }
  | .duplicate k => net.flight[k]?.map fun c => { net with flight := c :: net.flight }
  | .cleanupTimer v => some { net with node := Function.update net.node v (Flood.step (net.node v) .cleanupTimer).1 }
  | .cleanupDuplicates v orig =>
    some { net with node := Function.update net.node v (Flood.step (net.node v) (.cleanupDuplicates orig)).1 }
  | .world v w => some { net with node := Function.update net.node v (Flood.step (net.node v) (.world w)).1 }

end

end Olsrd.Flood
