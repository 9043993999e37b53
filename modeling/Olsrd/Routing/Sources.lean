/-
The three modules that put paths into the prefix tree of an originator: `tc_set.c` for the originator
itself, `mid_set.c` for its aliases and `hna_set.c` for its networks. What the MID code does to the tables
of neighbours is not here; that a neighbour is known by an alias is an input.
-/
import Olsrd.Routing.BestPath
import Olsrd.Neighbor.MidLookup

namespace Olsrd.Routing

open Olsrd.Neighbor (MidSet MidEntry MidAddress emptyMidSet midLookupMainAddr midLookupEntryBymain olsrDeleteMidEntry
  olsrUpdateMidTable prunedAliases)
open Olsrd.Topology (IpPrefix prefixLt maxplen olsrRtOriginInt)

structure Sources where
  rib : Rib
  mid : MidSet
  /-- the networks of a gateway; a gateway without networks has no entry -/
  hna : IpAddr → List IpPrefix

structure NodeEnv extends Env where
  /-- the addresses of the interfaces of this node -/
  ifaddrs : List IpAddr

/-- `OLSR_RT_ORIGIN_MID` -/
def olsrRtOriginMid : Nat := 2

/-- `OLSR_RT_ORIGIN_HNA` -/
def olsrRtOriginHna : Nat := 3

def hostPrefix (cnf : Cnf) (adr : IpAddr) : IpPrefix := ⟨adr, maxplen cnf⟩

/-! ## Entries of the link state database -/

/-- `olsr_delete_tc_entry`, without the edges -/
def olsrDeleteTcEntry (env : Env) (s : Rib) (adr : IpAddr) : Option Rib := do
  -- delete the rt_path for ourselves
  let s ← olsrDeleteRoutingTable env s (hostPrefix env.cnf adr) adr
  -- the prefix tree must be empty before
  let t ← s.prefixTree adr
  let s ← Run.forEach olsrDeleteRtPath (t.map Prod.snd) s
  pure { s with prefixTree := Function.update s.prefixTree adr none }

/-! ## Aliases -/

/-- What the code meets with an alias: whether the neighbour table has it, the random number for a timer, and the
blocks that the allocator hands out. -/
structure AliasInput where
  aliasAddr : IpAddr
  neighbor : Bool
  random : Nat
  p : Ptr
  q : Ptr

/-- The paths to some aliases of a node go. -/
def deleteAliasPaths (env : NodeEnv) (mainAddr : IpAddr) (aliases : List IpAddr) (s : Rib) : Option Rib :=
  Run.forEach (fun s adr => stepTable env.toEnv s (.deleteRoutingTable (hostPrefix env.cnf adr) mainAddr)) aliases s

/-- `olsr_delete_mid_entry` -/
def deleteMidEntry (env : NodeEnv) (s : Sources) (mid : MidEntry) : Option Sources := do
  let rib ← deleteAliasPaths env mid.mainAddr (mid.aliases.map MidAddress.aliasAddr) s.rib
  pure { s with rib := rib, mid := olsrDeleteMidEntry s.mid mid }

/-- Add the path of an alias. -/
def insertAliasPath (env : NodeEnv) (s : Rib) (mainAddr : IpAddr) (x : AliasInput) : Option Rib :=
  stepTable env.toEnv s (.insertRoutingTable (hostPrefix env.cnf x.aliasAddr) mainAddr olsrRtOriginMid x.p x.q)

/-- `insert_mid_tuple` -/
def insertMidTuple (env : NodeEnv) (s : Sources) (now : Nat) (mainAddr : IpAddr) (x : AliasInput) (vtime : Nat) :
    Option Sources :=
  -- check if alias is already registered with m_addr
  if midLookupMainAddr s.mid x.aliasAddr = some mainAddr then some s
  else do
    let rib ← insertAliasPath env s.rib mainAddr x
    pure { s with rib := rib, mid := s.mid.register now x.random mainAddr x.aliasAddr vtime }

/-- What was known under the alias of a neighbour as a main address is forgotten. -/
def forgetMainAddr (env : NodeEnv) (s : Sources) (x : AliasInput) : Option Sources :=
  match midLookupEntryBymain s.mid x.aliasAddr with
  | some mid => if x.neighbor then deleteMidEntry env s mid else some s
  | none => some s

/-- `insert_mid_alias` -/
def insertMidAlias (env : NodeEnv) (s : Sources) (now : Nat) (mainAddr : IpAddr) (x : AliasInput) (vtime : Nat) :
    Option Sources :=
  if !olsrValidateAddress env.cnf x.aliasAddr then some s
  else do
    let s ← forgetMainAddr env s x
    insertMidTuple env s now mainAddr x vtime

/-- The loop body of `olsr_input_mid`. -/
def inputMidAlias (env : NodeEnv) (s : Sources) (now : Nat) (mainAddr : IpAddr) (vtime : Nat) (x : AliasInput) :
    Option Sources :=
  -- ignore your own main IP as an incoming MID
  if env.ifaddrs.contains x.aliasAddr then some s
  else match midLookupMainAddr s.mid x.aliasAddr with
    | none => insertMidAlias env s now mainAddr x vtime
    | some _ => do
      let rib ← insertAliasPath env s.rib mainAddr x
      pure { s with rib := rib }

/-- The part of `olsr_hello_tap` about the address a HELLO comes from. -/
def helloAlias (env : NodeEnv) (s : Sources) (now : Nat) (sourceAddr : IpAddr) (vtime : Nat) (x : AliasInput) :
    Option Sources :=
  if sourceAddr = x.aliasAddr then some s
  else match midLookupMainAddr s.mid x.aliasAddr with
    | none => insertMidAlias env s now sourceAddr x vtime
    | some mainAddr => if sourceAddr = mainAddr then insertMidAlias env s now sourceAddr x vtime else some s

/-- `olsr_prune_aliases` -/
def olsrPruneAliases (env : NodeEnv) (s : Sources) (now : Nat) (mainAddr : IpAddr) (vtime : Nat)
    (declared : List IpAddr) : Option Sources :=
  match midLookupEntryBymain s.mid mainAddr with
  | none => some s
  | some mid => do
    let rib ← deleteAliasPaths env mid.mainAddr (prunedAliases now declared mid) s.rib
    pure { s with rib := rib, mid := s.mid.prune now vtime declared mid }

/-! ## Networks -/

/-- `olsr_update_hna_entry` -/
def olsrUpdateHnaEntry (env : NodeEnv) (s : Sources) (gw : IpAddr) (net : IpPrefix) (p q : Ptr) : Option Sources := do
  let nets := if (s.hna gw).contains net then s.hna gw else net :: s.hna gw
  let rib ← stepTable env.toEnv s.rib (.insertRoutingTable net gw olsrRtOriginHna p q)
  pure { s with rib := rib, hna := Function.update s.hna gw nets }

/-- `olsr_delete_hna_net_entry` -/
def olsrDeleteHnaNetEntry (env : NodeEnv) (s : Sources) (gw : IpAddr) (net : IpPrefix) : Option Sources := do
  let rib ← stepTable env.toEnv s.rib (.deleteRoutingTable net gw)
  pure { s with rib := rib, hna := Function.update s.hna gw ((s.hna gw).filter fun d => d != net) }

/-! ## Events -/

/-- What adds sources of paths and takes them away. A MID message is handled alias by alias, after its timer and before
its aliases are pruned. -/
inductive SourceEvent where
  | locateTcEntry (adr : IpAddr) (p : Ptr)
  | deleteTcEntry (adr : IpAddr)
  | updateMidTable (now random : Nat) (mainAddr : IpAddr) (vtime : Nat)
  | inputMidAlias (now : Nat) (mainAddr : IpAddr) (vtime : Nat) (x : AliasInput)
  | pruneAliases (now : Nat) (mainAddr : IpAddr) (vtime : Nat) (declared : List IpAddr)
  | helloAlias (now : Nat) (sourceAddr : IpAddr) (vtime : Nat) (x : AliasInput)
  | expireMidEntry (mainAddr : IpAddr)
  | updateHnaEntry (gw : IpAddr) (net : IpPrefix) (p q : Ptr)
  | expireHnaNetEntry (gw : IpAddr) (net : IpPrefix)

def stepSources (env : NodeEnv) (s : Sources) : SourceEvent → Option Sources
  | .locateTcEntry adr p =>
    if (s.rib.path p).isNone then (olsrLocateTcEntry env.toEnv s.rib adr p).map fun rib =>
      { s with rib := rib } else none
  | .deleteTcEntry adr => (olsrDeleteTcEntry env.toEnv s.rib adr).map fun rib => { s with rib := rib }
  | .updateMidTable now random mainAddr vtime =>
    some { s with mid := olsrUpdateMidTable s.mid now random mainAddr vtime }
  | .inputMidAlias now mainAddr vtime x => inputMidAlias env s now mainAddr vtime x
  | .pruneAliases now mainAddr vtime declared => olsrPruneAliases env s now mainAddr vtime declared
  | .helloAlias now sourceAddr vtime x => helloAlias env s now sourceAddr vtime x
  | .expireMidEntry mainAddr => do
    let mid ← midLookupEntryBymain s.mid mainAddr
    deleteMidEntry env s mid
  | .updateHnaEntry gw net p q => olsrUpdateHnaEntry env s gw net p q
  | .expireHnaNetEntry gw net => if (s.hna gw).contains net then olsrDeleteHnaNetEntry env s gw net else none

def noSources : Sources := ⟨emptyRib, emptyMidSet, fun _ => []⟩

/-- The states after events that meet `ok`. -/
def SourcesReachable (env : NodeEnv) (ok : Sources → SourceEvent → Prop) : Sources → Prop :=
  Run.Reaches (fun s => s = noSources) ok (stepSources env)

end Olsrd.Routing
