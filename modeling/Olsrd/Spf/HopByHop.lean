/-
Routing in a network whose nodes agree on the topology. What the nodes hand on by their next hops takes a cheapest way
to its destination, so it makes no loops.
-/
import Olsrd.Lib.HopByHop
import Olsrd.Neighbor.Advertised
import Olsrd.Spf.ShortestPaths

namespace Olsrd.Spf

open Olsrd.Topology (Lsdb addrOf edgeAt)
open HopByHop (Way Dist Greedy Trail)

variable {Lq Hq : Type} {env : Env Lq Hq} {n n' : Node Lq Hq} {s : Lsdb Lq} {r u v x : Topology.Ptr} {c k : Nat}
  {a b d : IpAddr} {w : SpfRun Neighbor.Ptr}

/-! ## Links between addresses -/

/-- The edges of a database that the SPF run takes, between the addresses of their entries. -/
def linksOf (s : Lsdb Lq) (a b : IpAddr) (c : Nat) : Prop :=
  ∃ u v, addrOf s u = some a ∧ addrOf s v = some b ∧ Linked s u v c ∧ c ≠ linkCostBroken

theorem addrOf_inj (hw : Topology.Wf s) (hu : addrOf s u = some a) (hv : addrOf s v = some a) : u = v :=
  Option.some.inj ((hw.lookup_iff.2 hu).symm.trans (hw.lookup_iff.2 hv))

theorem linksOf_unique (hw : Topology.Wf s) {c' : Nat} (h : linksOf s a b c) (h' : linksOf s a b c') : c = c' := by
  obtain ⟨u, v, hu, hv, hlink, -⟩ := h
  obtain ⟨u', v', hu', hv', hlink', -⟩ := h'
  obtain rfl := addrOf_inj hw hu hu'
  obtain rfl := addrOf_inj hw hv hv'
  obtain ⟨-, b₁, y, -, -, hb₁, hy, rfl, -⟩ := (linked_iff_edgeAt hw).1 hlink
  obtain ⟨-, b₂, y', -, -, hb₂, hy', rfl, -⟩ := (linked_iff_edgeAt hw).1 hlink'
  obtain rfl := Option.some.inj (hb₁.symm.trans hb₂)
  obtain rfl := Option.some.inj (hy.symm.trans hy')
  rfl

/-- The same, as a list. -/
def linkList (s : Lsdb Lq) : List (IpAddr × IpAddr × Nat) :=
  s.tcTree.flatMap fun x => (spfGraph s x.2).filterMap fun y => (addrOf s y.1).map fun b => (x.1, b, y.2)

theorem mem_linkList (hw : Topology.Wf s) : (a, b, c) ∈ linkList s ↔ linksOf s a b c := by
  unfold linkList
  constructor
  · intro h
    obtain ⟨⟨a', u⟩, hu, h⟩ := List.mem_flatMap.1 h
    obtain ⟨⟨v, c'⟩, hv, h⟩ := List.mem_filterMap.1 h
    obtain ⟨b', hb, h⟩ := Option.map_eq_some_iff.1 h
    cases h
    obtain ⟨hlink, hcost⟩ := (mem_spfGraph hw).1 hv
    exact ⟨u, v, (hw.tcTree.mem _ _).1 hu, hb, hlink, hcost⟩
  · rintro ⟨u, v, hu, hv, hlink, hcost⟩
    refine List.mem_flatMap.2 ⟨(a, u), (hw.tcTree.mem _ _).2 hu, ?_⟩
    refine List.mem_filterMap.2 ⟨(v, c), (mem_spfGraph hw).2 ⟨hlink, hcost⟩, ?_⟩
    show (addrOf s v).map _ = _
    rw [hv, Option.map_some]

theorem linked_addrOf (hw : Topology.Wf s) (h : Linked s u v c) : ∃ a b, addrOf s u = some a ∧ addrOf s v = some b := by
  obtain ⟨a, b, -, -, ha, hb, -⟩ := (linked_iff_edgeAt hw).1 h
  exact ⟨a, b, ha, hb⟩

/-- A path goes on with a way. -/
theorem CostPath.way (hw : Topology.Wf s) (h : CostPath s u v c) (hu : addrOf s u = some a) (hv : addrOf s v = some b)
    (hway : Way (linksOf s) d b k) : Way (linksOf s) d a (c + k) := by
  induction h generalizing b k with
  | nil =>
    obtain rfl := Option.some.inj (hu.symm.trans hv)
    rw [Nat.zero_add]
    exact hway
  | snoc _ hlink hcost ih =>
    obtain ⟨e, -, he, -⟩ := linked_addrOf hw hlink
    rw [Nat.add_assoc]
    exact ih he (.cons ⟨_, _, he, hv, hlink, hcost⟩ hway)

theorem CostPath.cons (hlink : Linked s u x c) (hcost : c ≠ linkCostBroken) (h : CostPath s x v k) :
    CostPath s u v (c + k) := by
  induction h with
  | nil =>
    rw [Nat.add_comm]
    exact .snoc .nil hlink hcost
  | snoc _ hlink' hcost' ih =>
    rw [← Nat.add_assoc]
    exact .snoc ih hlink' hcost'

theorem costPath_of_way (hw : Topology.Wf s) (h : Way (linksOf s) d a k) (hu : addrOf s u = some a) :
    ∃ v, addrOf s v = some d ∧ CostPath s u v k := by
  induction h generalizing u with
  | here => exact ⟨u, hu, .nil⟩
  | cons hlink _ ih =>
    obtain ⟨u', x, hu', hx, hlinked, hcost⟩ := hlink
    obtain rfl := addrOf_inj hw hu hu'
    obtain ⟨v, hv, hpath⟩ := ih hx
    exact ⟨v, hv, hpath.cons hlinked hcost⟩

/-- The least path costs of a database are those between the addresses. -/
theorem LeastCost.dist (hw : Topology.Wf s) (h : LeastCost s u v c) (hu : addrOf s u = some a)
    (hv : addrOf s v = some d) : Dist (linksOf s) d a c := by
  constructor
  · rw [← Nat.add_zero c]
    exact h.1.way hw hu hv .here
  · intro j hj
    obtain ⟨v', hv', hpath⟩ := costPath_of_way hw hj hu
    obtain rfl := addrOf_inj hw hv hv'
    exact h.2 j hpath

/-- The first edge of a path, and the rest. -/
theorem CostPathOver.split (h : CostPathOver s r x v c) :
    ∃ i k, Linked s r x i ∧ i ≠ linkCostBroken ∧ CostPath s x v k ∧ c = i + k := by
  induction h with
  | edge hlink hcost => exact ⟨_, 0, hlink, hcost, .nil, rfl⟩
  | snoc _ hlink hcost ih =>
    obtain ⟨i, k, hfirst, hi, hpath, rfl⟩ := ih
    exact ⟨i, _, hfirst, hi, hpath.snoc hlink hcost, Nat.add_assoc ..⟩

/-! ## One node -/

/-- What a finished SPF run leaves. -/
structure Routed (env : Env Lq Hq) (n : Node Lq Hq) (w : SpfRun Neighbor.Ptr) : Prop where
  lsdb : Topology.Wf n.own.lsdb
  tableWf : Neighbor.TableWf n.nbh
  links : (n.nbh.links.map Neighbor.LinkEntry.id).Nodup
  routes : ∃ root, addrOf n.own.lsdb root = some env.cnf.mainAddr ∧ CheapestPaths n.own.lsdb root w ∧
    NextHopsBest env n root w

/-- The node hands on for `d` to the neighbour with the main address `b`: the next hop is a link to it. -/
def Forwards (env : Env Lq Hq) (n : Node Lq Hq) (w : SpfRun Neighbor.Ptr) (d b : IpAddr) : Prop :=
  d ≠ env.cnf.mainAddr ∧ ∃ v ∈ w.pathList, addrOf n.own.lsdb v = some d ∧ ∃ l ∈ n.nbh.links,
    w.nextHop v = some l.id ∧ Neighbor.keyOf n.nbh l.neighbor = some b

/-- Neighbours are known by their main addresses. -/
def MainAddrs (n : Node Lq Hq) : Prop :=
  ∀ q b, Neighbor.keyOf n.nbh q = some b → Neighbor.midMainAddr n.nbh.mid b = b

/-- The links that `get_best_link_to_neighbor` has kept lead to the neighbour. -/
def Kept (nbh : Neighbor.Nbh) (b : IpAddr) (x : Neighbor.BestLink) : Prop :=
  ∀ l, x.goodLink = some l ∨ x.backupLink = some l → l ∈ nbh.links ∧ Neighbor.keyOf nbh l.neighbor = some b

theorem Kept.offer {nbh : Neighbor.Nbh} {x : Neighbor.BestLink} {l : Neighbor.LinkEntry} (h : Kept nbh b x)
    (hl : l ∈ nbh.links) (hkey : Neighbor.keyOf nbh l.neighbor = some b) (remote : IpAddr) (value : Nat) :
    Kept nbh b (x.offer nbh remote l value) := by
  unfold Neighbor.BestLink.offer
  split
  · split
    · rintro l' (hl' | hl')
      · obtain rfl := Option.some.inj hl'
        exact ⟨hl, hkey⟩
      · exact h l' (.inr hl')
    · rintro l' (hl' | hl')
      · exact h l' (.inl hl')
      · obtain rfl := Option.some.inj hl'
        exact ⟨hl, hkey⟩
  · exact h

theorem Kept.bestLinkLoop {nbh : Neighbor.Nbh} {remote : IpAddr} : ∀ {ls : List Neighbor.LinkEntry}
    {x x' : Neighbor.BestLink}, (∀ l ∈ ls, l ∈ nbh.links) → Kept nbh b x →
    Neighbor.bestLinkLoop env.neighbor nbh remote b ls x = some x' → Kept nbh b x'
  | [], x, x', _, hx, h => by
    obtain rfl := Option.some.inj h
    exact hx
  | l :: ls, x, x', hls, hx, h => by
    obtain ⟨e, he, h⟩ := Option.bind_eq_some_iff.1 h
    have hrest : ∀ l' ∈ ls, l' ∈ nbh.links := fun l' hl' => hls l' (List.mem_cons_of_mem _ hl')
    by_cases hmain : e.mainAddr = b
    · have hkey : Neighbor.keyOf nbh l.neighbor = some b := by rw [Neighbor.keyOf_eq he, hmain]
      have hoffer := hx.offer (hls l (List.mem_cons_self ..)) hkey remote
      rw [if_neg (not_not.2 hmain)] at h
      split at h
      · split at h
        · exact hx.bestLinkLoop hrest h
        · exact (hoffer _).bestLinkLoop hrest h
      · exact (hoffer _).bestLinkLoop hrest h
    · rw [if_pos hmain] at h
      exact hx.bestLinkLoop hrest h

/-- The best link leads to the neighbour it is looked up for. -/
theorem Usable.link {l : Neighbor.LinkEntry} (hmain : MainAddrs n) (h : Usable env n.nbh b l) :
    l ∈ n.nbh.links ∧ Neighbor.keyOf n.nbh l.neighbor = some b := by
  obtain ⟨q, e, he, heb, -, hbest, -⟩ := h
  obtain ⟨x, hx, hl⟩ := Option.bind_eq_some_iff.1 hbest
  rw [hmain q b (heb ▸ Neighbor.keyOf_eq he)] at hx
  have hkept : Kept n.nbh b x := by
    refine Kept.bestLinkLoop (fun _ => id) ?_ hx
    rintro l' (hl' | hl') <;> cases hl'
  refine hkept l ?_
  have hor := Option.some.inj hl
  rw [Option.or_eq_some_iff] at hor
  exact hor.imp_right And.right

/-- A node hands on along the first edge of a cheapest way. -/
theorem Routed.greedy (h : Routed env n w) (hmain : MainAddrs n) (hforward : Forwards env n w d b) :
    ∃ c k, linksOf n.own.lsdb env.cnf.mainAddr b c ∧ Way (linksOf n.own.lsdb) d b k ∧
      Dist (linksOf n.own.lsdb) d env.cnf.mainAddr (c + k) := by
  obtain ⟨root, hroot, hpaths, hhops⟩ := h.routes
  obtain ⟨hforeign, v, hv, hd, l, hl, hhop, hkey⟩ := hforward
  have hne : v ≠ root := by
    rintro rfl
    exact hforeign (Option.some.inj (hd.symm.trans hroot))
  obtain ⟨x, b', l', hover, hx, husable, hhop'⟩ := hhops v hv hne
  obtain ⟨hl', hkey'⟩ := husable.link hmain
  obtain rfl := List.inj_on_of_nodup_map h.links hl hl' (Option.some.inj (hhop.symm.trans hhop'))
  obtain rfl := Option.some.inj (hkey.symm.trans hkey')
  obtain ⟨c, k, hlink, hcost, hrest, hsum⟩ := hover.split
  refine ⟨c, k, ⟨root, x, hroot, hx, hlink, hcost⟩, ?_, ?_⟩
  · rw [← Nat.add_zero k]
    exact hrest.way h.lsdb hx hd .here
  · rw [← hsum]
    exact (hpaths.cost v hv).dist h.lsdb hroot hd

/-- A node that a way leads from has a next hop. -/
theorem Routed.forwards (h : Routed env n w) (hmain : MainAddrs n) (hforeign : d ≠ env.cnf.mainAddr)
    (hway : Way (linksOf n.own.lsdb) d env.cnf.mainAddr k) : ∃ b, Forwards env n w d b := by
  obtain ⟨root, hroot, hpaths, hhops⟩ := h.routes
  obtain ⟨v, hv, hpath⟩ := costPath_of_way h.lsdb hway hroot
  have hmem := (hpaths.mem v).2 ⟨k, hpath⟩
  have hne : v ≠ root := by
    rintro rfl
    exact hforeign (Option.some.inj (hv.symm.trans hroot))
  obtain ⟨x, b, l, -, -, husable, hhop⟩ := hhops v hmem hne
  obtain ⟨hl, hkey⟩ := husable.link hmain
  exact ⟨b, hforeign, v, hmem, hv, l, hl, hhop, hkey⟩

/-! ## Runs of a node -/

theorem reachable_linksWf {ok : Node Lq Hq → Event Hq → Prop} (h : Reachable env ok n) :
    Neighbor.LinksWf false n.nbh := by
  refine (Run.Reaches.invariant (P := fun n => NodeWf env n ∧ Neighbor.TableWf n.nbh ∧ Neighbor.LinksWf false n.nbh)
    (fun n₀ hs => ?_) ?_ h).2.2
  · refine ⟨(start_spec hs).1, hs.1 ▸ Neighbor.keyed_emptyNbh.toTableWf, ?_⟩
    rw [hs.1]
    exact ⟨List.nodup_nil, fun _ hx => absurd hx List.not_mem_nil, fun _ hx => absurd hx List.not_mem_nil, nofun⟩
  · rintro n₀ ev n₁ ⟨hn₀, hw, hlinks⟩ ⟨hen, -⟩ hstep
    refine ⟨hn₀.step hen hstep, ?_⟩
    cases ev with
    | nbh ev =>
      have hnbh := (nbhStep_spec hn₀ hstep).nbh
      exact ⟨hw.step hnbh, hlinks.step hw hnbh⟩
    | spf => rw [(neighborLoop_frame hn₀ hstep).2]; exact ⟨hw, hlinks⟩
    | linkquality id quality => rw [(OwnFrame.step hn₀ hen trivial hstep).nbh]; exact ⟨hw, hlinks⟩
    | inputTc symLink msg => rw [(OwnFrame.step hn₀ hen trivial hstep).nbh]; exact ⟨hw, hlinks⟩
    | expireTc tc => rw [(OwnFrame.step hn₀ hen trivial hstep).nbh]; exact ⟨hw, hlinks⟩
    | expireEdgeGc tc => rw [(OwnFrame.step hn₀ hen trivial hstep).nbh]; exact ⟨hw, hlinks⟩

/-- A node whose latest SPF run, from a reachable state, has left `w`: its own edges lead to symmetric neighbours, and
path costs do not come to `ROUTE_COST_BROKEN`. -/
def Computed (env : Env Lq Hq) (n : Node Lq Hq) (w : SpfRun Neighbor.Ptr) : Prop :=
  ∃ n₀ w₀ w₁ root, Reachable env (Event.Others env) n₀ ∧ spfPrepare env n₀ w₀ = some (n, w₁) ∧
    n.own.tcMyself = some root ∧ EdgesSymmetric n root ∧ SumsBelowBroken n.own.lsdb root ∧
    w₁.olsrSpfRunFull n.own.lsdb (n.own.lsdb.tcTree.length + 1) = some w

/-- Every edge from the root leads to an entry that has a next hop when the run starts. -/
theorem Prepared.preset {n₀ : Node Lq Hq} (hdone : Prepared env n₀ n r w) (hnbh : n.nbh = n₀.nbh)
    (htable : Neighbor.TableWf n₀.nbh) (hsym : EdgesSymmetric n r) (hlink : Linked n.own.lsdb r v c) :
    ∃ b l, addrOf n.own.lsdb v = some b ∧ Usable env n.nbh b l ∧ w.nextHop v = some l.id := by
  obtain ⟨-, b, y, -, -, hb, hy, -, -⟩ := (linked_iff_edgeAt hdone.nodeWf.lsdb).1 hlink
  obtain ⟨q, e, he, heb, -⟩ := hsym b y hy
  have hkey : Neighbor.keyOf n₀.nbh q = some b := by
    rw [← hnbh, Neighbor.keyOf_eq he, heb]
  obtain ⟨l, husable, hl⟩ := hdone.hop b v c ⟨q, (mem_allNbrEntries htable).2 ⟨b, hkey⟩, hkey⟩ hb hlink
  exact ⟨b, l, hb, hnbh ▸ husable, hl⟩

theorem Computed.routed (h : Computed env n w) : Routed env n w := by
  obtain ⟨n₀, w₀, w₁, root, hreach, hprep, hroot, hsym, hsums, hrun⟩ := h
  have hn := reachable_nodeWf hreach
  have htable := reachable_tableWf hreach
  obtain ⟨root', hdone⟩ := spfPrepare_spec hn hprep
  obtain rfl : root = root' := Option.some.inj (hroot.symm.trans hdone.tcMyself)
  have hnbh : n.nbh = n₀.nbh := (neighborLoop_frame hn hdone.loop).2
  have hown := hdone.nodeWf.own root hroot
  have hnone : w₁.nextHop root = none := hdone.noHop env.cnf.mainAddr root hown fun q _ hq =>
    reachable_keysIn hreach q _ hq rfl
  obtain ⟨w₂, hw₂, hpaths, hhops⟩ := cheapestPaths_of_run hdone.nodeWf.lsdb hdone.vertex hsums hdone.labels hnone
    fun v c hlink _ _ => by
      obtain ⟨b, l, -, -, hl⟩ := hdone.preset hnbh htable hsym hlink
      exact ⟨l.id, hl⟩
  obtain rfl := Option.some.inj (hrun.symm.trans hw₂)
  constructor
  · exact hdone.nodeWf.lsdb
  · exact hnbh ▸ htable
  · have hnodup := (reachable_linksWf hreach).nodup
    rw [← hnbh] at hnodup
    unfold Neighbor.refs at hnodup
    rwa [List.map_map] at hnodup
  · refine ⟨root, hown, hpaths, fun v hv hvr => ?_⟩
    obtain ⟨x, id, hover, hx, hnext⟩ := hhops v hv hvr
    obtain ⟨c, hlink⟩ := hover.first
    obtain ⟨b, l, hb, husable, hl⟩ := hdone.preset hnbh htable hsym hlink
    exact ⟨x, b, l, hover, hb, husable, by rw [hnext, ← hx, hl]⟩

/-! ## The network -/

section

variable {I : Type} {env : I → Env Lq Hq} {n : I → Node Lq Hq} {w : I → SpfRun Neighbor.Ptr}

/-- The node with the main address `a` hands on for `d` to the one with the main address `b`. -/
def HandsOn (env : I → Env Lq Hq) (n : I → Node Lq Hq) (w : I → SpfRun Neighbor.Ptr) (d a b : IpAddr) : Prop :=
  ∃ i, (env i).cnf.mainAddr = a ∧ Forwards (env i) (n i) (w i) d b

/-- The databases of all nodes have the same links, which are not free. -/
structure Agreed (n : I → Node Lq Hq) (G : IpAddr → IpAddr → Nat → Prop) : Prop where
  links : ∀ i a b c, linksOf (n i).own.lsdb a b c ↔ G a b c
  pos : ∀ a b c, G a b c → 0 < c

theorem Agreed.eq {G : IpAddr → IpAddr → Nat → Prop} (h : Agreed n G) (i : I) : linksOf (n i).own.lsdb = G := by
  funext a b c
  exact propext (h.links i a b c)

theorem handsOn_greedy {G : IpAddr → IpAddr → Nat → Prop} (hagreed : Agreed n G)
    (hrouted : ∀ i, Routed (env i) (n i) (w i)) (hmain : ∀ i, MainAddrs (n i)) (d : IpAddr) :
    Greedy G (HandsOn env n w d) d := by
  rintro a b ⟨i, rfl, hforward⟩
  rw [← hagreed.eq i]
  exact (hrouted i).greedy (hmain i) hforward

/-- In a network whose nodes have the same links in their databases, what node `i` hands on towards an address of its
path list comes to a node from which the rest costs what is left of the path cost at node `i`; it does not come back,
and it goes on until it is there. -/
theorem hop_by_hop (env : I → Env Lq Hq) (n : I → Node Lq Hq) (w : I → SpfRun Neighbor.Ptr)
    (G : IpAddr → IpAddr → Nat → Prop) (hagreed : Agreed n G) (hcomputed : ∀ i, Computed (env i) (n i) (w i))
    (hmain : ∀ i, MainAddrs (n i)) (i : I) (v : Topology.Ptr) (d : IpAddr) (hv : v ∈ (w i).pathList)
    (hd : addrOf (n i).own.lsdb v = some d) (b : IpAddr) (k m : Nat)
    (h : Trail G (HandsOn env n w d) (env i).cnf.mainAddr b k m) :
    m ≤ k ∧ (∃ rest, Dist G d b rest ∧ k + rest = (w i).pathCost v) ∧ (b = (env i).cnf.mainAddr → m = 0) ∧
      (b ≠ d → ∀ j, (env j).cnf.mainAddr = b → ∃ b' c, HandsOn env n w d b b' ∧ G b b' c) := by
  have hrouted := fun j => (hcomputed j).routed
  have hgreedy := handsOn_greedy hagreed hrouted hmain d
  have hone : ∀ a x c c', G a x c → G a x c' → c = c' := fun a x c c' hc hc' =>
    linksOf_unique (hrouted i).lsdb ((hagreed.links i a x c).2 hc) ((hagreed.links i a x c').2 hc')
  obtain ⟨root, hroot, hpaths, -⟩ := (hrouted i).routes
  have hdist : Dist G d (env i).cnf.mainAddr ((w i).pathCost v) := by
    rw [← hagreed.eq i]
    exact (hpaths.cost v hv).dist (hrouted i).lsdb hroot hd
  obtain ⟨hle, rest, hrest, hsum⟩ := h.rest hgreedy hone hagreed.pos hdist
  refine ⟨hle, ⟨rest, hrest, hsum⟩, ?_, ?_⟩
  · rintro rfl
    exact h.no_loop hgreedy hone hagreed.pos hdist
  · rintro hbd j rfl
    have hway := hrest.1
    rw [← hagreed.eq j] at hway
    obtain ⟨b', hforward⟩ := (hrouted j).forwards (hmain j) (Ne.symm hbd) hway
    obtain ⟨c, -, hlink, -⟩ := hgreedy _ b' ⟨j, rfl, hforward⟩
    exact ⟨b', c, ⟨j, rfl, hforward⟩, hlink⟩

end

/-! ## Two nodes -/

def pairAddr (i : Bool) : IpAddr := [10, 0, 0, if i then 2 else 1]

def pairEnv (i : Bool) : Env (UInt8 × UInt8) (UInt8 × UInt8) :=
  { ffEnv with cnf := { ffEnv.cnf with mainAddr := pairAddr i }, ifnet := [⟨some "eth0", pairAddr i, 1⟩] }

def pairStart (i : Bool) : Option (Node (UInt8 × UInt8) (UInt8 × UInt8)) :=
  (Topology.addMyself (pairEnv i).topology (Topology.emptyLsdb (UInt8 × UInt8))).map fun own =>
    ⟨Neighbor.emptyNbh, { own with changesTopology := false }, fun _ => (0, 0)⟩

/-- The other node announces its link to this one, without losses. -/
def pairTc (i : Bool) (seqno : UInt8) : Bytes.Mem := fun k =>
  ([202, 0x86, 0, 24] ++ pairAddr (!i) ++ [255, 0, 0, seqno, 0, seqno, 0, 0] ++ pairAddr i ++ [255, 255, 0, 0]).getD k 0

def pairHello (i : Bool) : Neighbor.HelloInput where
  message := { vtime := 6000, sourceAddr := pairAddr (!i), willingness := 3, neighbors :=
    [⟨pairAddr i, .sym, true, 1024⟩] }
  inIf := ⟨some "eth0", pairAddr i, 1⟩
  fromAddr := pairAddr (!i)
  random := fun _ => 0
  hyst := none
  linkcost := 1024

def pairRun (i : Bool) : List (Event (UInt8 × UInt8)) :=
  [.nbh (.helloLink (pairHello i)), .nbh (.setLinkcost 0 1024), .linkquality 0 (255, 255), .inputTc true (pairTc i 1),
    .inputTc true (pairTc i 2), .spf]

def pairLinks : List (IpAddr × IpAddr × Nat) :=
  [(pairAddr false, pairAddr true, 1024), (pairAddr true, pairAddr false, 1024)]

/-- What a node of the two has computed. -/
theorem pair_computed (i : Bool) : ∃ n w, Computed (pairEnv i) n w ∧ MainAddrs n ∧
    (∀ a b c, linksOf n.own.lsdb a b c ↔ (a, b, c) ∈ pairLinks) ∧ 2 ∈ w.pathList ∧
      addrOf n.own.lsdb 2 = some (pairAddr !i) := by
  have hrun : ((pairStart i).any fun n₀ => (Run.forEach (step (pairEnv i)) (pairRun i) n₀).any fun n =>
      (spfPrepare (pairEnv i) n blankRun).any fun x =>
        (x.2.olsrSpfRunFull x.1.own.lsdb (x.1.own.lsdb.tcTree.length + 1)).any fun w =>
          ((x.1.own.tcMyself == some 0) && (w.pathList.contains 2 && addrOf x.1.own.lsdb 2 == some (pairAddr !i))) &&
          ((linkList x.1.own.lsdb == pairLinks && spfGraph x.1.own.lsdb 0 == [(2, 1024)]) &&
          ((x.1.own.lsdb.tcTree.map Prod.snd).all fun u => u == 0 || u == 2)) &&
          (((x.1.own.lsdb.tc 0).any fun t => t.edgeTree.map Prod.fst == [pairAddr !i]) &&
          ((x.1.nbh.nbr 1).any fun e => e.mainAddr == pairAddr (!i) && e.sym) &&
          (Neighbor.allNbrEntries x.1.nbh).all fun q => (Neighbor.keyOf x.1.nbh q).all fun b =>
            Neighbor.midMainAddr x.1.nbh.mid b == b)) = true := by
    revert i
    decide +kernel
  obtain ⟨n₀, h₀, hrun⟩ := (Option.any_eq_true _ _).1 hrun
  obtain ⟨n₁, hn₁, hrun⟩ := (Option.any_eq_true _ _).1 hrun
  obtain ⟨⟨n, w₁⟩, hprep, hrun⟩ := (Option.any_eq_true _ _).1 hrun
  obtain ⟨w, hw, hrun⟩ := (Option.any_eq_true _ _).1 hrun
  simp only [Bool.and_eq_true, beq_iff_eq] at hrun
  obtain ⟨⟨⟨hp, hmem, haddr⟩, ⟨hlinks, hgraph⟩, htree⟩, ⟨hedges, hnbr⟩, hmain⟩ := hrun
  obtain ⟨t, ht, hedges⟩ := (Option.any_eq_true _ _).1 hedges
  obtain ⟨e, he, hsame⟩ := (Option.any_eq_true _ _).1 hnbr
  simp only [Bool.and_eq_true, beq_iff_eq] at hedges hsame
  have hother : ∀ j : Bool, pairAddr (!j) ≠ (pairEnv j).cnf.mainAddr := by decide
  have hforeign : ∀ seqno, (Topology.headerOf (pairEnv i).topology (pairTc i seqno)).originator ≠
      (pairEnv i).cnf.mainAddr := by
    intro seqno
    have horiginator : (Topology.headerOf (pairEnv i).topology (pairTc i seqno)).originator = pairAddr !i := by
      cases i <;> rfl
    rw [horiginator]
    exact hother i
  have hreach : Reachable (pairEnv i) (Event.Others (pairEnv i)) n₁ := by
    refine Run.reaches_forEach (.init ?_) ?_ hn₁
    · obtain ⟨own, hown, rfl⟩ := Option.map_eq_some_iff.1 h₀
      exact ⟨rfl, own, hown, rfl⟩
    · exact ⟨⟨trivial, hother i⟩, fun _ _ => ⟨⟨trivial, trivial⟩, fun _ _ => ⟨⟨trivial, trivial⟩, fun _ _ =>
        ⟨⟨hforeign 1, trivial⟩, fun _ _ => ⟨⟨hforeign 2, trivial⟩, fun _ _ => ⟨⟨trivial, trivial⟩, fun _ _ =>
          trivial⟩⟩⟩⟩⟩⟩
  obtain ⟨root, hdone⟩ := spfPrepare_spec (reachable_nodeWf hreach) hprep
  obtain rfl : 0 = root := Option.some.inj (hp.symm.trans hdone.tcMyself)
  have hwf := hdone.nodeWf.lsdb
  have hiff : ∀ a b c, linksOf n.own.lsdb a b c ↔ (a, b, c) ∈ pairLinks := fun a b c => by
    rw [← mem_linkList hwf, hlinks]
  refine ⟨n, w, ⟨n₁, blankRun, w₁, 0, hreach, hprep, hp, ?_, ?_, hw⟩, ?_, hiff, by simpa using hmem, haddr⟩
  · intro b d hd
    obtain ⟨t', ht', hd⟩ := Option.bind_eq_some_iff.1 hd
    obtain rfl := Option.some.inj (ht.symm.trans ht')
    obtain ⟨g, hg, -⟩ := Option.bind_eq_some_iff.1 hd
    have hb : b ∈ t.edgeTree.map Prod.fst :=
      (hwf.edgeTree 0 t ht).mem_keys.2 ⟨g, (hwf.edgeTree 0 t ht).find_iff.1 hg⟩
    rw [hedges, List.mem_singleton] at hb
    exact ⟨1, e, he, hsame.1.trans hb.symm, hsame.2⟩
  · rintro u v c d ⟨hpath, hleast⟩ hlink hcost
    -- the other node is one link away
    have hfirst := (mem_spfGraph hwf).1 (hgraph ▸ List.mem_singleton.2 rfl : (2, 1024) ∈ spfGraph n.own.lsdb 0)
    have hle : c ≤ 1024 := by
      obtain ⟨y, hy⟩ : Vertex n.own.lsdb u := by
        cases hpath with
        | nil => exact hdone.vertex
        | snoc _ hlink' _ => exact vertex_of_linked hwf hlink'
      have hu := List.all_eq_true.1 htree u ((vertex_iff hwf).1 ⟨y, hy⟩)
      rw [Bool.or_eq_true, beq_iff_eq, beq_iff_eq] at hu
      rcases hu with rfl | rfl
      · exact le_trans (hleast 0 .nil) (Nat.zero_le _)
      · exact hleast _ (CostPath.nil.snoc hfirst.1 hfirst.2)
    obtain ⟨a, b, ha, hb⟩ := linked_addrOf hwf hlink
    have hd := (hiff a b d).1 ⟨u, v, ha, hb, hlink, hcost⟩
    have hd : d = 1024 := by
      simp only [pairLinks, List.mem_cons, Prod.mk.injEq, List.not_mem_nil, or_false] at hd
      rcases hd with ⟨-, -, hd⟩ | ⟨-, -, hd⟩ <;> exact hd
    unfold routeCostBroken
    omega
  · intro q b hq
    have hnbh : n.nbh = n₁.nbh := (neighborLoop_frame (reachable_nodeWf hreach) hdone.loop).2
    have hall := List.all_eq_true.1 hmain q
      ((mem_allNbrEntries (hnbh ▸ reachable_tableWf hreach)).2 ⟨b, hq⟩)
    rw [hq, Option.all_some, beq_iff_eq] at hall
    exact hall

/-- The first node hands on to the second what is for it. -/
theorem hop_by_hop_pair : ∃ (n : Bool → Node (UInt8 × UInt8) (UInt8 × UInt8)) (w : Bool → SpfRun Neighbor.Ptr),
    (∀ i, Computed (pairEnv i) (n i) (w i)) ∧
      ∃ b c, HandsOn pairEnv n w (pairAddr true) (pairAddr false) b ∧ (pairAddr false, b, c) ∈ pairLinks := by
  choose n w hcomputed hmain hlinks hmem haddr using pair_computed
  have hagreed : Agreed n fun a b c => (a, b, c) ∈ pairLinks := by
    refine ⟨hlinks, fun a b c h => ?_⟩
    simp only [pairLinks, List.mem_cons, Prod.mk.injEq, List.not_mem_nil, or_false] at h
    rcases h with ⟨-, -, rfl⟩ | ⟨-, -, rfl⟩ <;> decide
  obtain ⟨-, -, -, hon⟩ :=
    hop_by_hop pairEnv n w _ hagreed hcomputed hmain false 2 (pairAddr true) (hmem false) (haddr false)
    (pairAddr false) 0 0 .nil
  obtain ⟨b, c, hb, hc⟩ := hon (by decide) false rfl
  exact ⟨n, w, hcomputed, b, c, hb, hc⟩

end Olsrd.Spf
