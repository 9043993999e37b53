/-
What HELLO messages and MID aliases do to the neighbourhood (`process_package.c`, `mid_set.c`), and the
events of a run. Routes to aliases, the MPR selector set and the link quality plugin are outside; the
plugin may set the cost of any link at any time.
-/
import Olsrd.Neighbor.LinkSet

namespace Olsrd.Neighbor

/-! ## MID aliases -/

/-- Delete the neighbour entry of an alias, if the main address has one too. -/
def mergeNeighbors (s : Nbh) : Option Ptr → Option Ptr → Nbh
  | some tmpNeigh, some realNeigh =>
    { (replaceNeighborLinkSet s tmpNeigh realNeigh).freeNbr tmpNeigh with changesNeighborhood := true }
  | _, _ => s

/-- The body of the last loop of `insert_mid_tuple`: no two hop entry and no neighbour entry of its own for an
alias. -/
def mergeAlias (mainAddr : IpAddr) (s : Nbh) (adr : IpAddr) : Option Nbh := do
  let twoHop := olsrLookupTwoHopNeighborTableMid s adr
  let s ← deleteTwoHopIfAny s twoHop
  let s := if twoHop.isSome then { s with changesNeighborhood := true } else s
  pure (mergeNeighbors s (olsrLookupNeighborTableAlias s adr) (olsrLookupNeighborTableAlias s mainAddr))

/-- `insert_mid_tuple` -/
def insertMidTuple (s : Nbh) (random : Nat) (mainAddr adr : IpAddr) (vtime : Nat) : Option Nbh :=
  -- alias is already registered with main address
  if midLookupMainAddr s.mid adr = some mainAddr then some s
  else
    let older := midLookupAliases s.mid mainAddr
    let s := { s with mid := s.mid.register s.now random mainAddr adr vtime }
    Run.forEach (mergeAlias mainAddr) (adr :: older) s

/-- The part of `insert_mid_alias` that replaces the neighbour entry of the alias. -/
def replaceNeighbor (s : Nbh) (mainAddr adr : IpAddr) : Option Nbh :=
  match olsrLookupNeighborTableAlias s adr with
  | none => some s
  | some neOld => do
    let s ← olsrDeleteNeighborTable s adr
    let (s, neNew) := olsrInsertNeighborTable s mainAddr
    let s := replaceNeighborLinkSet s neOld neNew
    -- we knew aliases to the previous main address
    match midLookupEntryBymain s.mid adr with
    | none => pure s
    | some meOld => pure { s with mid := olsrDeleteMidEntry s.mid meOld }

/-- `insert_mid_alias` -/
def insertMidAlias (env : Env) (s : Nbh) (random : Nat) (mainAddr adr : IpAddr) (vtime : Nat) : Option Nbh :=
  if !olsrValidateAddress env.cnf adr then some s
  else do
    let s ← replaceNeighbor s mainAddr adr
    let s ← insertMidTuple s random mainAddr adr vtime
    pure s.changed

/-! ## Neighbours of neighbours -/

def olsrNbr2ListJitter : Nat := 5

/-- A two hop entry with one more neighbour that sees it. -/
def Neighbor2Entry.link (t : Neighbor2Entry) (neighbor : Ptr) : Neighbor2Entry :=
  { t with
    pointer := t.pointer + 1
    nblist := ⟨neighbor, linkCostBroken, linkCostBroken, linkCostBroken⟩ :: t.nblist }

/-- `linking_this_2_entries`. The timer of the new entry is null, and `olsr_change_timer` does not start one. -/
def linkingThis2Entries (s : Nbh) (neighbor twoHop : Ptr) (vtime : Nat) : Option Nbh := do
  let t ← s.nbr2 twoHop
  let s := s.setNbr2 twoHop (t.link neighbor)
  let e ← s.nbr neighbor
  let x : Nbr2ListEntry := ⟨s.fresh, neighbor, twoHop, olsrChangeTimer s.now none vtime olsrNbr2ListJitter⟩
  pure (s.setNbr neighbor { e with nbr2List := x :: e.nbr2List }).allocated

/-- Change what the sender's entry in the list of a two hop neighbour says. -/
def updateNblist (s : Nbh) (neighbor twoHop : Ptr) (f : NbListEntry → NbListEntry) : Option Nbh := do
  let t ← s.nbr2 twoHop
  pure (s.setNbr2 twoHop { t with nblist := t.nblist.map fun y => if y.neighbor = neighbor then f y else y })

/-- The two hop links with a new timer for the one called `id`. -/
def refreshTimer (now random vtime : Nat) (id : Ptr) (l : List Nbr2ListEntry) : List Nbr2ListEntry :=
  l.map fun y => if y.id = id
    then { y with nbr2ListTimer := olsrSetTimer now random y.nbr2ListTimer vtime olsrNbr2ListJitter } else y

/-- A neighbour that the sender has listed before: its holding time is updated, and its path cost reset. -/
def refreshNbr2 (env : Env) (s : Nbh) (random : Ptr → Nat) (neighbor : Ptr) (x : Nbr2ListEntry) (vtime : Nat) :
    Option Nbh := do
  let e ← s.nbr neighbor
  let s := s.setNbr neighbor { e with nbr2List := refreshTimer s.now (random x.id) vtime x.id e.nbr2List }
  if env.cnf.lqLevel > 0 then updateNblist s neighbor x.neighbor2 fun y => { y with pathLinkcost := linkCostBroken }
  else pure s

/-- Not an address of this node. -/
def isForeign (env : Env) (adr : IpAddr) : Bool := !env.ifnet.any fun ifc => ifc.ipAddr == adr

/-- The body of the first loop of `process_message_neighbors`, for a neighbour whose address has been replaced
by its main address. -/
def processNeighbor (env : Env) (random : Ptr → Nat) (neighbor : Ptr) (vtime : Nat) (s : Nbh) (n : HelloNeighbor) :
    Option Nbh :=
  if n.symNeigh then do
    match ← olsrLookupMyNeighbors s neighbor n.address with
    | some x => refreshNbr2 env s random neighbor x vtime
    | none =>
      let (s, twoHop) := match olsrLookupTwoHopNeighborTable s n.address with
        | some p => (s, p)
        | none => insertTwoHop s n.address
      linkingThis2Entries s.changed neighbor twoHop vtime
  else some s

/-- The neighbours of a HELLO message that the first loop looks at, by their main addresses. -/
def foreignNeighbors (env : Env) (s : Nbh) (ns : List HelloNeighbor) : List HelloNeighbor :=
  (ns.filter fun n => isForeign env n.address).map fun n => { n with address := midMainAddr s.mid n.address }

/-- The cost of the path over the sender, kept if it is better than what is there. -/
def betterPath (firstHop : UInt32) (cost : UInt32) (y : NbListEntry) : NbListEntry :=
  if firstHop + cost < y.pathLinkcost then
    { y with secondHopLinkcost := cost, pathLinkcost := firstHop + cost, savedPathLinkcost := firstHop + cost }
  else y

/-- The body of the second loop of `process_message_neighbors`. -/
def processCost (env : Env) (neighbor : Ptr) (firstHop : UInt32) (s : Nbh) (n : HelloNeighbor) : Option Nbh :=
  if isForeign env n.address && n.symNeigh then do
    match ← olsrLookupMyNeighbors s neighbor n.address with
    | none => pure s
    | some x => do
      let t ← s.nbr2 x.neighbor2
      let better := t.nblist.any fun y => y.neighbor == neighbor && decide (firstHop + n.cost < y.pathLinkcost)
      let s ← updateNblist s neighbor x.neighbor2 (betterPath firstHop n.cost)
      pure (if better then s.changed else s)
  else some s

/-- `process_message_neighbors` -/
def processMessageNeighbors (env : Env) (s : Nbh) (random : Ptr → Nat) (neighbor : Ptr) (message : HelloMessage) :
    Option Nbh := do
  let ns := foreignNeighbors env s message.neighbors
  let s ← Run.forEach (processNeighbor env random neighbor message.vtime) ns s
  if env.cnf.lqLevel > 0 then do
    let e ← s.nbr neighbor
    match ← getBestLinkToNeighbor env s e.mainAddr with
    | none => pure s
    | some l => Run.forEach (processCost env neighbor l.linkcost) ns s
  else pure s

/-! ## `olsr_hello_tap` -/

/-- The alias under which a HELLO message came. -/
def helloAlias (env : Env) (s : Nbh) (random : Nat) (message : HelloMessage) (fromAddr : IpAddr) : Option Nbh :=
  if message.sourceAddr ≠ fromAddr ∧ olsrValidateAddress env.cnf fromAddr then
    match midLookupMainAddr s.mid fromAddr with
    | none => insertMidAlias env s random message.sourceAddr fromAddr message.vtime
    | some m => if message.sourceAddr = m then insertMidAlias env s random message.sourceAddr fromAddr message.vtime
      else some s
  else some s

/-- The willingness of the sender. -/
def setWillingness (s : Nbh) (neighbor : Ptr) (willingness : Nat) : Option Nbh := do
  let e ← s.nbr neighbor
  if e.willingness = willingness then pure s
  else pure (s.setNbr neighbor { e with willingness := willingness }).changed

/-- The neighbour entry of a link. -/
def neighborOf (s : Nbh) (id : Ptr) : Option Ptr := (s.links.find? fun l => l.id == id).map LinkEntry.neighbor

/-- What `olsr_hello_tap` reads besides the message. -/
structure HelloInput where
  message : HelloMessage
  inIf : Interface
  fromAddr : IpAddr
  random : Ptr → Nat
  /-- outcome of `olsr_process_hysteresis` -/
  hyst : Option LinkStatus
  /-- cost of the link after the plugin has counted the message -/
  linkcost : UInt32

/-- `olsr_hello_tap` up to the neighbours the message lists. -/
def helloLink (env : Env) (s : Nbh) (h : HelloInput) : Option (Nbh × Ptr) :=
  updateLinkEntry env s (h.random 0) h.inIf.ipAddr h.fromAddr h.message h.inIf h.hyst

/-- The cost the link quality plugin gives a link. -/
def setLinkcost (s : Nbh) (id : Ptr) (cost : UInt32) : Nbh := s.updateLink id fun l => { l with linkcost := cost }

/-- `olsr_hello_tap` from the neighbour entry of the link on. -/
def helloNeighbors (env : Env) (s : Nbh) (h : HelloInput) (neighbor : Ptr) : Option Nbh := do
  let s ← setWillingness s neighbor h.message.willingness
  -- don't register neighbors of neighbors that announce WILL_NEVER
  if h.message.willingness = willNever then pure s
  else processMessageNeighbors env s h.random neighbor h.message

/-- `olsr_hello_tap` -/
def olsrHelloTap (env : Env) (s : Nbh) (h : HelloInput) : Option Nbh := do
  let (s, id) ← helloLink env s h
  let s ← helloAlias env s (h.random 1) h.message h.fromAddr
  let s := if env.cnf.lqLevel > 0 then setLinkcost s id h.linkcost else s
  let neighbor ← neighborOf s id
  helloNeighbors env s h neighbor

/-! ## Events -/

/-- What happens to a neighbourhood. A HELLO message is the events that make up `olsr_hello_tap`; aliases time
out or are pruned in whatever way, and plugins look links up. -/
inductive Event where
  | tick (now : Nat)
  | helloLink (h : HelloInput)
  | lookupLink (remote remoteMain : IpAddr) (ifc : Interface)
  | insertMidAlias (random : Nat) (mainAddr adr : IpAddr) (vtime : Nat)
  | setLinkcost (id : Ptr) (cost : UInt32)
  | setWillingness (neighbor : Ptr) (willingness : Nat)
  | processMessageNeighbors (random : Ptr → Nat) (neighbor : Ptr) (message : HelloMessage)
  | expireNbr2List (x : Nbr2ListEntry)
  | expireLinkSym (l : LinkEntry)
  | expireLinkHello (l : LinkEntry) (hyst : Option LinkStatus)
  | deleteLink (l : LinkEntry)
  | insertNeighbor (mainAddr : IpAddr)
  | deleteNeighbor (mainAddr : IpAddr)
  | deleteTwoHop (twoHop : Ptr)
  | changeMid (mid : MidSet)

/-- The event can happen: timers belong to objects that are there, aliases are inserted by callers that have
looked for the alias, pointers come out of the tables. -/
def Event.Enabled (s : Nbh) : Event → Prop
  | .tick now => s.now ≤ now
  | .helloLink _ | .lookupLink .. | .setLinkcost .. | .insertNeighbor _ | .deleteNeighbor _ | .changeMid _ => True
  | .insertMidAlias _ mainAddr adr _ => midLookupMainAddr s.mid adr = none ∨ midLookupMainAddr s.mid adr = some mainAddr
  | .setWillingness neighbor _ | .processMessageNeighbors _ neighbor _ => ∃ l ∈ s.links, l.neighbor = neighbor
  | .expireNbr2List x => ∃ p e, s.nbr p = some e ∧ x ∈ e.nbr2List ∧ x.nbr2ListTimer.isSome
  | .expireLinkSym l => l ∈ s.links ∧ l.linkSymTimer.isSome
  | .expireLinkHello l _ | .deleteLink l => l ∈ s.links
  | .deleteTwoHop twoHop => (s.nbr2 twoHop).isSome

def step (env : Env) (s : Nbh) : Event → Option Nbh
  | .tick now => some { s with now := now }
  | .helloLink h => (Neighbor.helloLink env s h).map Prod.fst
  | .lookupLink remote remoteMain ifc => (lookupLinkEntry s remote remoteMain ifc).map Prod.fst
  | .insertMidAlias random mainAddr adr vtime => Neighbor.insertMidAlias env s random mainAddr adr vtime
  | .setLinkcost id cost => some (Neighbor.setLinkcost s id cost)
  | .setWillingness neighbor willingness => Neighbor.setWillingness s neighbor willingness
  | .processMessageNeighbors random neighbor message => Neighbor.processMessageNeighbors env s random neighbor message
  | .expireNbr2List x => olsrExpireNbr2List s x
  | .expireLinkSym l => olsrExpireLinkSymTimer env s l
  | .expireLinkHello l hyst => olsrExpireLinkHelloTimer env s l hyst
  | .deleteLink l => olsrDeleteLinkEntry s l
  | .insertNeighbor mainAddr => some (olsrInsertNeighborTable s mainAddr).1
  | .deleteNeighbor mainAddr => olsrDeleteNeighborTable s mainAddr
  | .deleteTwoHop twoHop => olsrDeleteTwoHopNeighborTable s twoHop
  | .changeMid mid => some { s with mid := mid }

def emptyNbh : Nbh where
  nbr := fun _ => none
  nbrTable := fun _ => []
  nbr2 := fun _ => none
  nbr2Table := fun _ => []
  links := []
  mid := emptyMidSet
  now := 0
  fresh := 0
  changesNeighborhood := false
  changesTopology := false
  linkChanges := false

/-- The states a node gets to by events that meet `ok`. -/
def Reachable (env : Env) (ok : Nbh → Event → Prop) : Nbh → Prop :=
  Run.Reaches (· = emptyNbh) (fun s e => e.Enabled s ∧ ok s e) (step env)

/-- A HELLO message is a sequence of events. -/
theorem reachable_hello {env : Env} {s s' : Nbh} {h : HelloInput} (hs : Reachable env (fun _ _ => True) s)
    (htap : olsrHelloTap env s h = some s') : Reachable env (fun _ _ => True) s' := by
  obtain ⟨⟨s₁, id⟩, h₁, htap⟩ := Option.bind_eq_some_iff.1 htap
  obtain ⟨s₂, h₂, htap⟩ := Option.bind_eq_some_iff.1 htap
  obtain ⟨n, hn, htap⟩ := Option.bind_eq_some_iff.1 htap
  obtain ⟨s₄, h₄, htap⟩ := Option.bind_eq_some_iff.1 htap
  have hs₁ : Reachable env (fun _ _ => True) s₁ := .step (.helloLink h) hs ⟨trivial, trivial⟩ (by simp [step, h₁])
  have hs₂ : Reachable env (fun _ _ => True) s₂ := by
    unfold helloAlias at h₂
    split at h₂
    · split at h₂
      · rename_i hnone
        exact .step (.insertMidAlias (h.random 1) _ _ _) hs₁ ⟨.inl hnone, trivial⟩ h₂
      · rename_i m hm
        split at h₂
        · rename_i heq
          exact .step (.insertMidAlias (h.random 1) _ _ _) hs₁ ⟨.inr (heq ▸ hm), trivial⟩ h₂
        · obtain rfl := Option.some.inj h₂; exact hs₁
    · obtain rfl := Option.some.inj h₂; exact hs₁
  have hs₃ : Reachable env (fun _ _ => True) (if env.cnf.lqLevel > 0 then setLinkcost s₂ id h.linkcost else s₂) := by
    split
    · exact .step (.setLinkcost id h.linkcost) hs₂ ⟨trivial, trivial⟩ rfl
    · exact hs₂
  generalize (if env.cnf.lqLevel > 0 then setLinkcost s₂ id h.linkcost else s₂) = s₃ at hn h₄ hs₃
  obtain ⟨l, hl, rfl⟩ := Option.map_eq_some_iff.1 hn
  have hlink : ∃ l' ∈ s₃.links, l'.neighbor = l.neighbor := ⟨l, List.mem_of_find?_eq_some hl, rfl⟩
  have hs₄ : Reachable env (fun _ _ => True) s₄ :=
    .step (.setWillingness l.neighbor h.message.willingness) hs₃ ⟨hlink, trivial⟩ h₄
  have hlinks : s₄.links = s₃.links := by
    obtain ⟨e, -, h₄⟩ := Option.bind_eq_some_iff.1 h₄
    split at h₄
    · obtain rfl := Option.some.inj h₄; rfl
    · obtain rfl := Option.some.inj h₄; rfl
  split at htap
  · obtain rfl := Option.some.inj htap; exact hs₄
  · exact .step (.processMessageNeighbors h.random l.neighbor h.message) hs₄ ⟨by
      show ∃ l' ∈ s₄.links, _
      rw [hlinks]; exact hlink, trivial⟩ htap

theorem reachable_hellos {env : Env} {s : Nbh} {hs : List HelloInput}
    (h : Run.forEach (olsrHelloTap env) hs emptyNbh = some s) : Reachable env (fun _ _ => True) s :=
  Run.forEach_invariant (fun _ _ _ _ => reachable_hello) (.init rfl) h

/-- An event that the state it happens in decides on, if there is one. -/
def Chooser : Type := (s : Nbh) → Option { ev : Event // ev.Enabled s }

namespace Chooser

def run (env : Env) (s : Nbh) (c : Chooser) : Option Nbh := (c s).bind fun ev => step env s ev.1

def hello (h : HelloInput) : Chooser := fun _ => some ⟨.helloLink h, trivial⟩

def tick (seconds : Nat) : Chooser := fun s => some ⟨.tick (s.now + 1000 * seconds), Nat.le_add_right ..⟩

/-- The address is an alias that nobody has yet. -/
def newAlias (mainAddr adr : IpAddr) : Chooser := fun s =>
  if h : midLookupMainAddr s.mid adr = none then some ⟨.insertMidAlias 0 mainAddr adr 6000, .inl h⟩ else none

/-- The symmetric link to `remote` becomes asymmetric. -/
def expireSym (remote : IpAddr) : Chooser := fun s =>
  match h : s.links.find? fun l => l.neighborIfaceAddr == remote && l.linkSymTimer.isSome with
  | some l => some ⟨.expireLinkSym l, List.mem_of_find?_eq_some h, by
      have hl := List.find?_some h
      exact (Bool.and_eq_true_iff.1 hl).2⟩
  | none => none

def deleteLink (remote : IpAddr) : Chooser := fun s =>
  match h : s.links.find? fun l => l.neighborIfaceAddr == remote with
  | some l => some ⟨.deleteLink l, List.mem_of_find?_eq_some h⟩
  | none => none

/-- A run of such events, all of which meet `ok`. -/
theorem reachable {env : Env} {ok : Nbh → Event → Prop} {cs : List Chooser} {s s' : Nbh} (hs : Reachable env ok s)
    (hrounds : Run.Rounds (fun s c => ∀ ev ∈ c s, ok s ev.1) (run env) cs s)
    (h : Run.forEach (run env) cs s = some s') : Reachable env ok s' := by
  refine Run.forEach_rounds (fun s c s' hreach hok hstep => ?_) hrounds hs h
  obtain ⟨ev, hev, hstep⟩ := Option.bind_eq_some_iff.1 hstep
  exact .step ev.1 hreach ⟨ev.2, hok ev hev⟩ hstep

end Chooser

/-- A node with the address 10.0.0.1 on its one interface. -/
def oneInterface : Env where
  cnf := { ipVersion := .inet, mainAddr := [10, 0, 0, 1], lqLevel := 2, denyEntries := denyIpv4Defaults }
  ifnet := [⟨some "eth0", [10, 0, 0, 1], 1⟩]
  tcRedundancy := 2

/-- A HELLO message on this interface, sent from `fromAddr` by a node that calls itself `source`. -/
def helloFrom (fromAddr source : IpAddr) (neighbors : List HelloNeighbor) : HelloInput where
  message := { vtime := 6000, sourceAddr := source, willingness := 3, neighbors := neighbors }
  inIf := ⟨some "eth0", [10, 0, 0, 1], 1⟩
  fromAddr := fromAddr
  random := fun _ => 0
  hyst := none
  linkcost := 1024

end Olsrd.Neighbor
