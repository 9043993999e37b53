/-
The HELLO messages that a node builds (`create_lq_hello` of `lq_packet.c`, `olsr_build_hello_packet` of `packet.c`), and
the neighbours that have chosen it as MPR (`mpr_selector_set.c`). The link quality of an entry is outside.
-/
import Olsrd.Message.HelloBlocks
import Olsrd.Neighbor.LqTc

namespace Olsrd.Sensing

open Olsrd.Message (NeighType)
open Olsrd.Neighbor

/-! ## The node -/

/-- `struct mpr_selector` -/
structure MprSelector where
  mainAddr : IpAddr
  timer : Option Timer

/-- A neighbourhood, the neighbour entries whose `is_mpr` is set, and the MPR selectors, the latest first. -/
structure Node where
  nbh : Nbh
  isMpr : Ptr → Bool
  mprs : List MprSelector

def emptyNode : Node := ⟨emptyNbh, fun _ => false, []⟩

/-- What a HELLO message says about a neighbour. -/
structure Listed where
  address : IpAddr
  link : LinkStatus
  status : NeighType
  deriving DecidableEq

/-- `struct hello_neighbor`; the main address is not sent. -/
structure HelloNeighbor extends Listed where
  mainAddress : IpAddr

/-! ## Building a HELLO -/

/-- The neighbour type of a neighbour entry. -/
def neighType (isMpr : Bool) (e : NeighborEntry) : NeighType :=
  if isMpr then .mprNeigh else if e.sym then .symNeigh else .notNeigh

/-- The body of the loop of `create_lq_hello`. -/
def addLqNeighbor (nd : Node) (outif : Interface) (neigh : List Listed) (walker : LinkEntry) :
    Option (List Listed) := do
  let e ← nd.nbh.nbr walker.neighbor
  -- this neighbor interface is visible via the output interface
  let link := if walker.localIfaceAddr = outif.ipAddr then lookupLinkStatus nd.nbh walker else .unspec
  pure (⟨walker.neighborIfaceAddr, link, neighType (nd.isMpr walker.neighbor) e⟩ :: neigh)

/-- `create_lq_hello` -/
def createLqHello (nd : Node) (outif : Interface) : Option (List Listed) :=
  Run.forEach (addLqNeighbor nd outif) nd.nbh.links []

/-- The body of the first loop of `olsr_build_hello_packet`. -/
def addLink (nd : Node) (outif : Interface) (neighbors : List HelloNeighbor) (l : LinkEntry) :
    Option (List HelloNeighbor) :=
  if l.localIfaceAddr = outif.ipAddr then do
    let e ← nd.nbh.nbr l.neighbor
    let status := neighType (nd.isMpr l.neighbor) e
    pure (⟨⟨l.neighborIfaceAddr, lookupLinkStatus nd.nbh l, status⟩, e.mainAddr⟩ :: neighbors)
  else some neighbors

/-- The body of the second loop of `olsr_build_hello_packet`: the neighbours that are not added yet. -/
def addNeighbor (nd : Node) (neighbors : List HelloNeighbor) (p : Ptr) : Option (List HelloNeighbor) := do
  let e ← nd.nbh.nbr p
  if neighbors.any fun n => n.mainAddress == e.mainAddr then pure neighbors
  else pure (⟨⟨e.mainAddr, .unspec, neighType (nd.isMpr p) e⟩, e.mainAddr⟩ :: neighbors)

/-- `olsr_build_hello_packet` -/
def olsrBuildHelloPacket (env : Env) (nd : Node) (outif : Interface) : Option (List HelloNeighbor) := do
  let neighbors ← Run.forEach (addLink nd outif) nd.nbh.links []
  -- the rest of the neighbors if running on multiple interfaces
  if 1 < env.ifnet.length then Run.forEach (addNeighbor nd) (allNbrEntries nd.nbh) neighbors else pure neighbors

/-- The neighbours in the HELLO of `generate_hello`. -/
def buildHello (env : Env) (nd : Node) (outif : Interface) : Option (List Listed) :=
  if env.cnf.lqLevel = 0 then (olsrBuildHelloPacket env nd outif).map (List.map HelloNeighbor.toListed)
  else createLqHello nd outif

/-! ## What it says -/

section

variable {env : Env} {nd : Node} {outif : Interface}

/-- An entry of a HELLO, unless its link is unspecified, is a link of the interface as it is. -/
def Stated (nd : Node) (outif : Interface) (n : Listed) : Prop :=
  n.link ≠ .unspec → ∃ l ∈ nd.nbh.links, l.localIfaceAddr = outif.ipAddr ∧ l.neighborIfaceAddr = n.address ∧
    lookupLinkStatus nd.nbh l = n.link ∧ (n.status = .mprNeigh → nd.isMpr l.neighbor = true)

theorem isMpr_of_neighType {b : Bool} {e : NeighborEntry} (h : neighType b e = .mprNeigh) : b = true := by
  unfold neighType at h
  cases b with
  | true => rfl
  | false =>
    rw [if_neg Bool.false_ne_true] at h
    split at h
    · cases h
    · cases h

theorem stated_createLqHello {ns : List Listed} (h : createLqHello nd outif = some ns) :
    ∀ n ∈ ns, Stated nd outif n := by
  refine Run.forEach_invariant (P := fun ns => ∀ n ∈ ns, Stated nd outif n) ?_
    (fun _ hn => absurd hn List.not_mem_nil) h
  intro neigh l neigh' hl hneigh hbody n hn
  obtain ⟨e, -, hbody⟩ := Option.bind_eq_some_iff.1 hbody
  obtain rfl := Option.some.inj hbody
  rcases List.mem_cons.1 hn with rfl | hn
  · intro hne
    dsimp only at hne ⊢
    split at hne
    · next hlocal =>
      rw [if_pos hlocal]
      exact ⟨l, hl, hlocal, rfl, rfl, isMpr_of_neighType⟩
    · exact absurd rfl hne
  · exact hneigh n hn

theorem stated_olsrBuildHelloPacket {ns : List HelloNeighbor} (h : olsrBuildHelloPacket env nd outif = some ns) :
    ∀ n ∈ ns, Stated nd outif n.toListed := by
  obtain ⟨ns₁, h₁, h⟩ := Option.bind_eq_some_iff.1 h
  have hlinks : ∀ n ∈ ns₁, Stated nd outif n.toListed := by
    refine Run.forEach_invariant (P := fun ns : List HelloNeighbor => ∀ n ∈ ns, Stated nd outif n.toListed) ?_
      (fun _ hn => absurd hn List.not_mem_nil) h₁
    intro neighbors l neighbors' hl hold hbody n hn
    unfold addLink at hbody
    split at hbody
    · next hlocal =>
      obtain ⟨e, -, hbody⟩ := Option.bind_eq_some_iff.1 hbody
      obtain rfl := Option.some.inj hbody
      rcases List.mem_cons.1 hn with rfl | hn
      · exact fun _ => ⟨l, hl, hlocal, rfl, rfl, isMpr_of_neighType⟩
      · exact hold n hn
    · obtain rfl := Option.some.inj hbody
      exact hold n hn
  split at h
  · refine Run.forEach_invariant (P := fun ns : List HelloNeighbor => ∀ n ∈ ns, Stated nd outif n.toListed) ?_ hlinks h
    intro neighbors p neighbors' _ hold hbody n hn
    obtain ⟨e, -, hbody⟩ := Option.bind_eq_some_iff.1 hbody
    split at hbody
    · obtain rfl := Option.some.inj hbody
      exact hold n hn
    · obtain rfl := Option.some.inj hbody
      rcases List.mem_cons.1 hn with rfl | hn
      · exact fun hne => absurd rfl hne
      · exact hold n hn
  · obtain rfl := Option.some.inj h
    exact hlinks

/-- What a HELLO says of links is true when it is built. -/
theorem stated_buildHello {ns : List Listed} (h : buildHello env nd outif = some ns) : ∀ n ∈ ns, Stated nd outif n := by
  unfold buildHello at h
  split at h
  · obtain ⟨ns₁, h₁, rfl⟩ := Option.map_eq_some_iff.1 h
    intro n hn
    obtain ⟨n₁, hn₁, rfl⟩ := List.mem_map.1 hn
    exact stated_olsrBuildHelloPacket h₁ n₁ hn₁
  · exact stated_createLqHello h

end

/-! ## MPR selectors -/

def olsrMprSelJitter : Nat := 5

/-- `olsr_lookup_mprs_set` -/
def olsrLookupMprsSet (mprs : List MprSelector) (addr : IpAddr) : Option MprSelector :=
  mprs.find? fun m => m.mainAddr == addr

/-- `olsr_set_mpr_sel_timer` -/
def olsrSetMprSelTimer (now random : Nat) (vtime : Nat) (m : MprSelector) : MprSelector :=
  { m with timer := olsrSetTimer now random m.timer vtime olsrMprSelJitter }

theorem clock_olsrSetMprSelTimer {now random vtime : Nat} {m : MprSelector} {t : Timer}
    (h : (olsrSetMprSelTimer now random vtime m).timer = some t) : t.clock ≤ now + vtime :=
  clock_olsrSetTimer (show olsrSetTimer now random m.timer vtime olsrMprSelJitter = some t from h)

/-- `olsr_add_mpr_selector` -/
def olsrAddMprSelector (now random : Nat) (mprs : List MprSelector) (addr : IpAddr) (vtime : Nat) : List MprSelector :=
  olsrSetMprSelTimer now random vtime ⟨addr, none⟩ :: mprs

/-- Set the timer of the first entry for `addr`. -/
def refreshMprSel (now random : Nat) (mprs : List MprSelector) (addr : IpAddr) (vtime : Nat) : List MprSelector :=
  mprs.modify (mprs.findIdx fun m => m.mainAddr == addr) (olsrSetMprSelTimer now random vtime)

/-- `olsr_update_mprs_set` -/
def olsrUpdateMprsSet (nd : Node) (random : Nat) (addr : IpAddr) (vtime : Nat) : Node :=
  match olsrLookupMprsSet nd.mprs addr with
  | none =>
    { nd with
      nbh := { nd.nbh with linkChanges := true }
      mprs := olsrAddMprSelector nd.nbh.now random nd.mprs addr vtime }
  | some _ => { nd with mprs := refreshMprSel nd.nbh.now random nd.mprs addr vtime }

/-- `olsr_expire_mpr_sel_entry` for entry number `k` -/
def olsrExpireMprSelEntry (nd : Node) (k : Nat) : Node :=
  { nd with nbh := { nd.nbh with linkChanges := true }, mprs := nd.mprs.eraseIdx k }

/-- Whom the selectors are after an update: those from before, and the one that was added or has a new timer. -/
theorem mem_olsrUpdateMprsSet {nd : Node} {random vtime : Nat} {addr : IpAddr} {m : MprSelector}
    (h : m ∈ (olsrUpdateMprsSet nd random addr vtime).mprs) :
    m ∈ nd.mprs ∨ m.mainAddr = addr ∧ ∀ t, m.timer = some t → t.clock ≤ nd.nbh.now + vtime := by
  unfold olsrUpdateMprsSet at h
  cases hfind : olsrLookupMprsSet nd.mprs addr with
  | none =>
    rw [hfind] at h
    rcases List.mem_cons.1 h with rfl | h
    · exact .inr ⟨rfl, fun t => clock_olsrSetMprSelTimer⟩
    · exact .inl h
  | some m₀ =>
    rw [hfind] at h
    obtain ⟨i, hi⟩ := List.getElem?_of_mem h
    unfold refreshMprSel at hi
    rw [List.getElem?_modify] at hi
    obtain ⟨m₁, hm₁, rfl⟩ := Option.map_eq_some_iff.1 hi
    split
    · next heq =>
      obtain ⟨hlt, rfl⟩ := List.getElem?_eq_some_iff.1 hm₁
      subst heq
      have hkey := List.findIdx_getElem (w := hlt)
      rw [beq_iff_eq] at hkey
      exact .inr ⟨hkey, fun t => clock_olsrSetMprSelTimer⟩
    · exact .inl (List.mem_of_getElem? hm₁)

end Olsrd.Sensing
