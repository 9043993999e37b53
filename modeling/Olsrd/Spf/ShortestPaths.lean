/-
Cheapest paths. After the SPF run of a node, the path list has the entries that `tc_myself` has paths to, in the order
of their path costs, and the next hop of each is the best link to a neighbour that a cheapest path begins with.
-/
import Olsrd.Spf.HopCount

namespace Olsrd.Spf

open Olsrd.Topology (Lsdb TcEdgeEntry edgeAt)
open ShortestPath (Graph Walk Least Search)

variable {Lq Hq L : Type} {env : Env Lq Hq} {n n' : Node Lq Hq} {s : Lsdb Lq} {r u v x : Topology.Ptr} {c : Nat}

/-! ## Paths -/

/-- A path over edges that have an inverse edge and are not broken, with its cost. -/
inductive CostPath (s : Lsdb Lq) (root : Topology.Ptr) : Topology.Ptr → Nat → Prop
  | nil : CostPath s root root 0
  | snoc {u v : Topology.Ptr} {c d : Nat} : CostPath s root u c → Linked s u v d → d ≠ linkCostBroken →
      CostPath s root v (c + d)

/-- Such a path that begins with an edge to `x`. -/
inductive CostPathOver (s : Lsdb Lq) (root x : Topology.Ptr) : Topology.Ptr → Nat → Prop
  | edge {d : Nat} : Linked s root x d → d ≠ linkCostBroken → CostPathOver s root x x d
  | snoc {u v : Topology.Ptr} {c d : Nat} : CostPathOver s root x u c → Linked s u v d → d ≠ linkCostBroken →
      CostPathOver s root x v (c + d)

/-- The least path cost. -/
def LeastCost (s : Lsdb Lq) (root v : Topology.Ptr) (c : Nat) : Prop :=
  CostPath s root v c ∧ ∀ d, CostPath s root v d → c ≤ d

/-- A cheapest path with one edge more costs less than `ROUTE_COST_BROKEN`. -/
def SumsBelowBroken (s : Lsdb Lq) (root : Topology.Ptr) : Prop :=
  ∀ u v c d, LeastCost s root u c → Linked s u v d → d ≠ linkCostBroken → c + d < routeCostBroken

theorem costPath_iff (hw : Topology.Wf s) : CostPath s r v c ↔ ∃ k, Walk (spfGraph s) r v c k := by
  constructor
  · intro h
    induction h with
    | nil => exact ⟨0, .nil⟩
    | snoc _ hlink hcost ih =>
      obtain ⟨k, hway⟩ := ih
      exact ⟨k + 1, hway.snoc ((mem_spfGraph hw).2 ⟨hlink, hcost⟩)⟩
  · rintro ⟨k, h⟩
    induction h with
    | nil => exact .nil
    | snoc _ hmem ih =>
      obtain ⟨hlink, hcost⟩ := (mem_spfGraph hw).1 hmem
      exact ih.snoc hlink hcost

theorem leastCost_iff (hw : Topology.Wf s) : LeastCost s r v c ↔ Least (spfGraph s) r v c := by
  unfold LeastCost Least
  rw [costPath_iff hw]
  refine and_congr_right fun _ => ⟨fun h d k hway => h d ((costPath_iff hw).2 ⟨k, hway⟩), fun h d hpath => ?_⟩
  obtain ⟨k, hway⟩ := (costPath_iff hw).1 hpath
  exact h d k hway

theorem sumsFit_of_below (hw : Topology.Wf s) (h : SumsBelowBroken s r) : SumsFit s r := by
  intro u c hleast v d hmem
  obtain ⟨hlink, hcost⟩ := (mem_spfGraph hw).1 hmem
  exact h u v c d ((leastCost_iff hw).2 hleast) hlink hcost

theorem costPathOver_of_way (hw : Topology.Wf s) (h : Search.WayOver (spfGraph s) r x v c) :
    CostPathOver s r x v c := by
  induction h with
  | edge hmem =>
    obtain ⟨hlink, hcost⟩ := (mem_spfGraph hw).1 hmem
    exact .edge hlink hcost
  | snoc _ hmem ih =>
    obtain ⟨hlink, hcost⟩ := (mem_spfGraph hw).1 hmem
    exact ih.snoc hlink hcost

theorem CostPathOver.first (h : CostPathOver s r x v c) : ∃ d, Linked s r x d := by
  induction h with
  | edge hlink _ => exact ⟨_, hlink⟩
  | snoc _ _ _ ih => exact ih

/-! ## The result of a run -/

/-- The path list and the path costs. -/
structure CheapestPaths (s : Lsdb Lq) (root : Topology.Ptr) (w : SpfRun L) : Prop where
  nodup : w.pathList.Nodup
  mem : ∀ v, v ∈ w.pathList ↔ ∃ c, CostPath s root v c
  order : w.pathList.Pairwise fun u v => w.pathCost u ≤ w.pathCost v
  cost : ∀ v ∈ w.pathList, LeastCost s root v (w.pathCost v)
  others : ∀ v, Vertex s v → v ∉ w.pathList → w.pathCost v = routeCostBroken

/-- The next hops that the neighbours had before the run are those of the cheapest paths over them. -/
def NextHops (s : Lsdb Lq) (root : Topology.Ptr) (preset : Topology.Ptr → Option L) (w : SpfRun L) : Prop :=
  ∀ v ∈ w.pathList, v ≠ root → ∃ x l, CostPathOver s root x v (w.pathCost v) ∧ preset x = some l ∧ w.nextHop v = some l

theorem cheapestPaths_of_run (hw : Topology.Wf s) (hr : Vertex s r) (hsums : SumsBelowBroken s r) {w : SpfRun L}
    (h : Labels s w (Search.start r w.nextHop)) (hroot : w.nextHop r = none)
    (hpreset : ∀ v d, Linked s r v d → d ≠ linkCostBroken → v ≠ r → ∃ l, w.nextHop v = some l) :
    ∃ w', w.olsrSpfRunFull s (s.tcTree.length + 1) = some w' ∧ CheapestPaths s r w' ∧ NextHops s r w.nextHop w' := by
  obtain ⟨w', b, hw', hb, hlabels⟩ := olsrSpfRunFull_total hw hr (sumsFit_of_below hw hsums) h
  obtain ⟨hinv, hqueue⟩ := (Search.inv_start (spfGraph s) r w.nextHop).run hb
  have hsettled : ∀ v, v ∈ w'.pathList ↔ v ∈ b.settled := fun v => by rw [hlabels.pathList]
  have hmem : ∀ v, v ∈ w'.pathList ↔ ∃ c, CostPath s r v c := by
    intro v
    rw [hsettled, hinv.mem_settled_iff hqueue]
    exact exists_congr fun c => (costPath_iff hw).symm
  have hvertex : ∀ v ∈ w'.pathList, Vertex s v := by
    intro v hv
    obtain ⟨c, hc⟩ := (hmem v).1 hv
    cases hc with
    | nil => exact hr
    | snoc _ hlink _ => exact vertex_of_linked hw hlink
  have hcost : ∀ v ∈ w'.pathList, b.cost v = some (w'.pathCost v) := by
    intro v hv
    obtain ⟨c, hc⟩ := hinv.settledCost v ((hsettled v).1 hv)
    rw [hlabels.cost v (hvertex v hv), hc, Option.getD_some]
  have hnodup : w'.pathList.Nodup := by
    rw [hlabels.pathList]
    exact (List.nodup_append.1 hinv.nodup).2.1
  have horder : w'.pathList.Pairwise fun u v => w'.pathCost u ≤ w'.pathCost v := by
    have hpairs := hinv.order
    rw [← hlabels.pathList] at hpairs
    exact hpairs.imp_of_mem fun hu hv huv => huv _ _ (hcost _ hu) (hcost _ hv)
  have hothers : ∀ v, Vertex s v → v ∉ w'.pathList → w'.pathCost v = routeCostBroken := by
    intro v hv hno
    rw [hlabels.cost v hv]
    cases hc : b.cost v with
    | none => rfl
    | some c => exact absurd ((hmem v).2 ⟨c, (costPath_iff hw).2 ⟨_, hinv.walk v c hc⟩⟩) hno
  refine ⟨w', hw', ⟨hnodup, hmem, horder, fun v hv => ?_, hothers⟩, fun v hv hvr => ?_⟩
  · exact (leastCost_iff hw).2 ((hinv.cost_iff hqueue).1 (hcost v hv))
  · have hpreset' : ∀ x d, (x, d) ∈ spfGraph s r → x ≠ r → ∃ l, w.nextHop x = some l := by
      intro x d hx hxr
      obtain ⟨hlink, hbroken⟩ := (mem_spfGraph hw).1 hx
      exact hpreset x d hlink hbroken hxr
    obtain ⟨x, l, hway, hl, hvia⟩ := Search.via_of_run hroot hpreset' hb hvr (hcost v hv)
    exact ⟨x, l, costPathOver_of_way hw hway, hl, by rw [hlabels.nextHop v (hvertex v hv), hvia]⟩

/-! ## Runs of a node -/

/-- Every edge of `tc_myself` leads to a symmetric neighbour. -/
def EdgesSymmetric (n : Node Lq Hq) (p : Topology.Ptr) : Prop :=
  ∀ b d, edgeAt n.own.lsdb p b = some d → ∃ q e, n.nbh.nbr q = some e ∧ e.mainAddr = b ∧ e.sym = true

/-- Messages of this node are dropped by the parser, so that no event brings its main address. -/
def Event.Others (env : Env Lq Hq) (_ : Node Lq Hq) : Event Hq → Prop
  | .nbh ev => ev.Brings (· ≠ env.cnf.mainAddr)
  | _ => True

theorem reachable_keysIn (h : Reachable env (Event.Others env) n) : Neighbor.KeysIn (· ≠ env.cnf.mainAddr) n.nbh := by
  refine (Run.Reaches.invariant (P := fun n => NodeWf env n ∧ Neighbor.KeysIn (· ≠ env.cnf.mainAddr) n.nbh)
    (fun n₀ hs => ?_) ?_ h).2
  · refine ⟨(start_spec hs).1, fun q a hq => ?_⟩
    rw [hs.1] at hq
    cases hq
  · rintro n₀ ev n₁ ⟨hn₀, hkeys⟩ ⟨hen, hok⟩ hstep
    refine ⟨hn₀.step hen hstep, ?_⟩
    cases ev with
    | nbh ev => exact hkeys.step hok (nbhStep_spec hn₀ hstep).nbh
    | spf => rw [(neighborLoop_frame hn₀ hstep).2]; exact hkeys
    | linkquality id quality => rw [(OwnFrame.step hn₀ hen trivial hstep).nbh]; exact hkeys
    | inputTc symLink msg => rw [(OwnFrame.step hn₀ hen trivial hstep).nbh]; exact hkeys
    | expireTc tc => rw [(OwnFrame.step hn₀ hen trivial hstep).nbh]; exact hkeys
    | expireEdgeGc tc => rw [(OwnFrame.step hn₀ hen trivial hstep).nbh]; exact hkeys

/-- The next hop of every entry of the path list but `root` is the best link to a symmetric neighbour that some cheapest
path begins with. -/
def NextHopsBest (env : Env Lq Hq) (n : Node Lq Hq) (root : Topology.Ptr) (w : SpfRun Neighbor.Ptr) : Prop :=
  ∀ v ∈ w.pathList, v ≠ root → ∃ x b l, CostPathOver n.own.lsdb root x v (w.pathCost v) ∧
    Topology.addrOf n.own.lsdb x = some b ∧ Usable env n.nbh b l ∧ w.nextHop v = some l.id

/-- If the neighbour loop has left edges to symmetric neighbours only, the SPF run of a node ends with the cheapest
paths and their next hops. -/
theorem reachable_cheapestPaths (env : Env Lq Hq) (n : Node Lq Hq) (h : Reachable env (Event.Others env) n)
    (w : SpfRun Neighbor.Ptr) : (LinksLive n.nbh → n.own.tcMyself ≠ none → ∃ x, spfPrepare env n w = some x) ∧
      ∀ n' w₁ root, spfPrepare env n w = some (n', w₁) → n'.own.tcMyself = some root → EdgesSymmetric n' root →
        SumsBelowBroken n'.own.lsdb root →
        ∃ w₂, w₁.olsrSpfRunFull n'.own.lsdb (n'.own.lsdb.tcTree.length + 1) = some w₂ ∧
          CheapestPaths n'.own.lsdb root w₂ ∧ NextHopsBest env n' root w₂ := by
  have hn := reachable_nodeWf h
  have htable := reachable_tableWf h
  refine ⟨fun hlive hp => ?_, fun n' w₁ root hprep hp hsym hsums => ?_⟩
  · obtain ⟨p, hp⟩ := Option.ne_none_iff_exists'.1 hp
    exact spfPrepare_total hn htable hlive hp w
  obtain ⟨root', hdone⟩ := spfPrepare_spec hn hprep
  obtain rfl : root = root' := Option.some.inj (hp.symm.trans hdone.tcMyself)
  have hnbh : n'.nbh = n.nbh := (neighborLoop_frame hn hdone.loop).2
  have hown := hdone.nodeWf.own root hp
  -- no neighbour has the address of the node itself
  have hroot : w₁.nextHop root = none := hdone.noHop env.cnf.mainAddr root hown fun q _ hq =>
    reachable_keysIn h q _ hq rfl
  have hpreset : ∀ v d, Linked n'.own.lsdb root v d → ∃ b l, Topology.addrOf n'.own.lsdb v = some b ∧
      Usable env n'.nbh b l ∧ w₁.nextHop v = some l.id := by
    intro v d hlinked
    obtain ⟨-, b, x, -, -, hb, hx, -, -⟩ := (linked_iff_edgeAt hdone.nodeWf.lsdb).1 hlinked
    obtain ⟨q, e, he, heb, -⟩ := hsym b x hx
    have hkey : Neighbor.keyOf n.nbh q = some b := by
      rw [← hnbh, Neighbor.keyOf_eq he, heb]
    obtain ⟨l, husable, hl⟩ := hdone.hop b v d ⟨q, (mem_allNbrEntries htable).2 ⟨b, hkey⟩, hkey⟩ hb hlinked
    exact ⟨b, l, hb, by rw [hnbh]; exact husable, hl⟩
  obtain ⟨w₂, hw₂, hpaths, hhops⟩ := cheapestPaths_of_run hdone.nodeWf.lsdb hdone.vertex hsums hdone.labels hroot
    fun v d hlinked _ _ => by
      obtain ⟨b, l, -, -, hl⟩ := hpreset v d hlinked
      exact ⟨l.id, hl⟩
  refine ⟨w₂, hw₂, hpaths, fun v hv hvr => ?_⟩
  obtain ⟨x, id, hpath, hx, hnext⟩ := hhops v hv hvr
  obtain ⟨d, hlinked⟩ := hpath.first
  obtain ⟨b, l, hb, husable, hl⟩ := hpreset x d hlinked
  exact ⟨x, b, l, hpath, hb, husable, by rw [hnext, ← hx, hl]⟩

/-- A neighbour with a perfect link that announces a link to this node, with a run of the neighbour loop before. -/
def perfectNeighbor : List (Event (UInt8 × UInt8)) :=
  newNeighbor [10, 0, 0, 2] 255 ++ [.inputTc true ownTc, .spf]

/-- The cheapest path to the neighbour costs what its link costs. -/
theorem reachable_cheapestPaths_neighbor : ∃ (n' : Node (UInt8 × UInt8) (UInt8 × UInt8)) (w₂ : SpfRun Neighbor.Ptr),
    CheapestPaths n'.own.lsdb 0 w₂ ∧ NextHopsBest ffEnv n' 0 w₂ ∧ LeastCost n'.own.lsdb 0 2 1024 := by
  have hrun : (ffStart.any fun n₀ => (Run.forEach (step ffEnv) perfectNeighbor n₀).any fun n =>
      (spfPrepare ffEnv n blankRun).any fun x => x.1.own.tcMyself == some 0 &&
        (x.1.own.lsdb.tcTree.map Prod.snd == [0, 2] && spfGraph x.1.own.lsdb 0 == [(2, 1024)] &&
          spfGraph x.1.own.lsdb 2 == []) &&
        ((x.1.own.lsdb.tc 0).any fun t => t.edgeTree.map Prod.fst == [[10, 0, 0, 2]]) &&
        (x.1.nbh.nbr 1).any fun e => e.mainAddr == [10, 0, 0, 2] && e.sym) = true := by decide +kernel
  obtain ⟨n₀, h₀, hrun⟩ := (Option.any_eq_true _ _).1 hrun
  obtain ⟨n, hn, hrun⟩ := (Option.any_eq_true _ _).1 hrun
  obtain ⟨⟨n', w₁⟩, hprep, hrun⟩ := (Option.any_eq_true _ _).1 hrun
  simp only [Bool.and_eq_true, beq_iff_eq] at hrun
  obtain ⟨⟨⟨hp, ⟨htree, hzero⟩, htwo⟩, hedges⟩, hnbr⟩ := hrun
  obtain ⟨t, ht, hedges⟩ := (Option.any_eq_true _ _).1 hedges
  obtain ⟨e, he, hmain⟩ := (Option.any_eq_true _ _).1 hnbr
  simp only [Bool.and_eq_true, beq_iff_eq] at hedges hmain
  have hforeign : (Topology.headerOf ffEnv.topology ownTc).originator ≠ ffEnv.cnf.mainAddr := by decide
  have hother : Neighbor.Event.Brings (· ≠ ffEnv.cnf.mainAddr) (symHello [10, 0, 0, 2]) := by
    show ([10, 0, 0, 2] : IpAddr) ≠ [10, 0, 0, 1]
    decide
  have hreach : Reachable ffEnv (Event.Others ffEnv) n := by
    refine Run.reaches_forEach (.init (start_ffStart h₀)) ?_ hn
    exact ⟨⟨trivial, hother⟩, fun _ _ => ⟨⟨trivial, trivial⟩, fun _ _ => ⟨⟨trivial, trivial⟩, fun _ _ =>
      ⟨⟨hforeign, trivial⟩, fun _ _ => ⟨⟨trivial, trivial⟩, fun _ _ => trivial⟩⟩⟩⟩⟩
  obtain ⟨root, hdone⟩ := spfPrepare_spec (reachable_nodeWf hreach) hprep
  obtain rfl : 0 = root := Option.some.inj (hp.symm.trans hdone.tcMyself)
  have hw := hdone.nodeWf.lsdb
  have hsym : EdgesSymmetric n' 0 := by
    intro b d hd
    obtain ⟨t', ht', hd⟩ := Option.bind_eq_some_iff.1 hd
    obtain rfl := Option.some.inj (ht.symm.trans ht')
    obtain ⟨g, hg, -⟩ := Option.bind_eq_some_iff.1 hd
    have hb : b ∈ t.edgeTree.map Prod.fst :=
      (hw.edgeTree 0 t ht).mem_keys.2 ⟨g, (hw.edgeTree 0 t ht).find_iff.1 hg⟩
    rw [hedges, List.mem_singleton] at hb
    exact ⟨1, e, he, hmain.1.trans hb.symm, hmain.2⟩
  -- the one edge that is not broken leads from the node to its neighbour
  have hlink : ∀ u v d, Linked n'.own.lsdb u v d → d ≠ linkCostBroken → u = 0 ∧ v = 2 ∧ d = 1024 := by
    intro u v d hlinked hcost
    have hmem := (mem_spfGraph hw).2 ⟨hlinked, hcost⟩
    obtain ⟨g, d', -, -, hd', rfl, -⟩ := hlinked
    have hu := (vertex_iff hw).1 (hw.edgeTc g d' hd')
    rw [htree] at hu
    obtain hu | hu : d'.tc = 0 ∨ d'.tc = 2 := by simpa using hu
    · rw [hu, hzero, List.mem_singleton] at hmem
      obtain ⟨rfl, rfl⟩ := Prod.mk.inj hmem
      exact ⟨hu, rfl, rfl⟩
    · rw [hu, htwo] at hmem
      exact (List.not_mem_nil hmem).elim
  have hsums : SumsBelowBroken n'.own.lsdb 0 := by
    rintro u v c d ⟨-, hleast⟩ hlinked hcost
    obtain ⟨rfl, -, rfl⟩ := hlink u v d hlinked hcost
    have hle := hleast 0 .nil
    exact Nat.lt_of_le_of_lt (Nat.add_le_add_right hle 1024) (by decide)
  obtain ⟨w₂, -, hpaths, hhops⟩ :=
    (reachable_cheapestPaths ffEnv n hreach blankRun).2 n' w₁ 0 hprep hp hsym hsums
  obtain ⟨hlinked, hcost⟩ := (mem_spfGraph hw).1 (hzero ▸ List.mem_singleton.2 rfl : (2, 1024) ∈ spfGraph n'.own.lsdb 0)
  refine ⟨n', w₂, hpaths, hhops, CostPath.nil.snoc hlinked hcost, fun d hd => ?_⟩
  cases hd with
  | snoc _ hlinked hcost =>
    obtain ⟨-, -, rfl⟩ := hlink _ _ _ hlinked hcost
    exact Nat.le_add_left ..

/-! ## A cost that a run reads -/

/-- 10.0.0.2 announces a perfect link to this node. -/
def perfectTc : Bytes.Mem := fun i =>
  [202, 0x86, 0, 24, 10, 0, 0, 2, 255, 0, 0, 1, 0, 0, 0, 0, 10, 0, 0, 1, 255, 255, 0, 0].getD i 0

/-- The first message of a neighbour after an SPF run. The next run takes its edge to this node, whose cost it reads
from an entry of the path list, for broken. -/
theorem readCost_stale : ∃ (n n' : Node (UInt8 × UInt8) (UInt8 × UInt8)) (w₁ w₂ : SpfRun Neighbor.Ptr),
    1 ≤ ffEnv.cnf.lqLevel ∧ Reachable ffEnv (fun _ _ => True) n ∧ spfPrepare ffEnv n blankRun = some (n', w₁) ∧
      w₁.olsrSpfRunFull n'.own.lsdb (n'.own.lsdb.tcTree.length + 1) = some w₂ ∧ ∃ e d, n'.own.lsdb.edge e = some d ∧
      d.tc ∈ w₂.pathList ∧ d.edgeInv.isSome = true ∧ d.cost = linkCostBroken ∧ d.linkquality = (255, 255) ∧
      ffEnv.lq.calcTcCost d.linkquality = 1024 := by
  have hrun : (ffStart.any fun n₀ => (Run.forEach (step ffEnv)
      (newNeighbor [10, 0, 0, 2] 255 ++ [.spf, .inputTc true perfectTc]) n₀).any fun n =>
      (spfPrepare ffEnv n blankRun).any fun x =>
        (x.2.olsrSpfRunFull x.1.own.lsdb (x.1.own.lsdb.tcTree.length + 1)).any fun w₂ =>
          (x.1.own.lsdb.tc 3).any fun t => t.edgeTree.any fun y => (x.1.own.lsdb.edge y.2).any fun d =>
            decide (d.tc ∈ w₂.pathList ∧ d.edgeInv.isSome = true ∧ d.cost = linkCostBroken ∧
              d.linkquality = (255, 255) ∧ ffEnv.lq.calcTcCost d.linkquality = 1024)) = true := by decide +kernel
  obtain ⟨n₀, h₀, hrun⟩ := (Option.any_eq_true _ _).1 hrun
  obtain ⟨n, hn, hrun⟩ := (Option.any_eq_true _ _).1 hrun
  obtain ⟨⟨n', w₁⟩, hprep, hrun⟩ := (Option.any_eq_true _ _).1 hrun
  obtain ⟨w₂, hw₂, hrun⟩ := (Option.any_eq_true _ _).1 hrun
  obtain ⟨t, -, hrun⟩ := (Option.any_eq_true _ _).1 hrun
  obtain ⟨⟨b, e⟩, -, hrun⟩ := List.any_eq_true.1 hrun
  obtain ⟨d, hd, hrun⟩ := (Option.any_eq_true _ _).1 hrun
  have hforeign : (Topology.headerOf ffEnv.topology perfectTc).originator ≠ ffEnv.cnf.mainAddr := by decide
  have hreach : Reachable ffEnv (fun _ _ => True) n := by
    refine Run.reaches_forEach (.init (start_ffStart h₀)) ?_ hn
    exact ⟨⟨trivial, trivial⟩, fun _ _ => ⟨⟨trivial, trivial⟩, fun _ _ => ⟨⟨trivial, trivial⟩, fun _ _ =>
      ⟨⟨trivial, trivial⟩, fun _ _ => ⟨⟨hforeign, trivial⟩, fun _ _ => trivial⟩⟩⟩⟩⟩
  exact ⟨n, n', w₁, w₂, by decide, hreach, hprep, hw₂, e, d, hd, of_decide_eq_true hrun⟩

end Olsrd.Spf
