/-
The SPF run of `olsr_spf.c` on the link state database. The labels of the entries are kept under their pointers. With
path costs that do not wrap, the run is Dijkstra's algorithm on the edges that have an inverse edge and are not broken.
-/
import Olsrd.Lib.ShortestPath
import Olsrd.Spf.OwnEdges

namespace Olsrd.Spf

open Olsrd.Topology (Lsdb TcEntry TcEdgeEntry)
open ShortestPath (Graph Walk Least Search)

/-- `ROUTE_COST_BROKEN` -/
def routeCostBroken : Nat := 0xffffffff

/-- `LINK_COST_BROKEN` -/
def linkCostBroken : Nat := Neighbor.linkCostBroken.toNat

/-! ## The run -/

/-- The fields of the entries that a run writes, with `L` for the links, and its candidate tree and path list. -/
structure SpfRun (L : Type) where
  pathCost : Topology.Ptr → Nat
  hops : Topology.Ptr → UInt8
  nextHop : Topology.Ptr → Option L
  candTree : List (Nat × Topology.Ptr)
  pathList : List Topology.Ptr

section

variable {Lq L : Type}

namespace SpfRun

/-- `olsr_spf_add_cand_tree`: of equal path costs the new one is the last. -/
def olsrSpfAddCandTree (w : SpfRun L) (tc : Topology.Ptr) : SpfRun L :=
  { w with candTree := Keyed.insert (fun a b => a < b) (w.pathCost tc) tc w.candTree }

def olsrSpfDelCandTree (w : SpfRun L) (tc : Topology.Ptr) : SpfRun L :=
  { w with candTree := Keyed.erase tc w.candTree }

def olsrSpfAddPathList (w : SpfRun L) (tc : Topology.Ptr) : SpfRun L := { w with pathList := w.pathList ++ [tc] }

def olsrSpfExtractBest (w : SpfRun L) : Option Topology.Ptr := w.candTree.head?.map Prod.snd

/-- A better path to `newTc` over `tc`. -/
def betterPath (w : SpfRun L) (tc newTc : Topology.Ptr) (newCost : Nat) : SpfRun L :=
  -- if this node has been on the candidate tree delete it
  let w := if w.pathCost newTc < routeCostBroken then w.olsrSpfDelCandTree newTc else w
  let w := { w with pathCost := Function.update w.pathCost newTc newCost }
  let w := w.olsrSpfAddCandTree newTc
  -- pull-up the next-hop and bump the hop count
  let w := match w.nextHop tc with
    | some link => { w with nextHop := Function.update w.nextHop newTc (some link) }
    | none => w
  { w with hops := Function.update w.hops newTc (w.hops tc + 1) }

/-- The loop body of `olsr_spf_relax`. -/
def relaxEdge (s : Lsdb Lq) (tc : Topology.Ptr) (w : SpfRun L) (tcEdge : Topology.Ptr) : Option (SpfRun L) := do
  let d ← s.edge tcEdge
  match d.edgeInv with
  | none => pure w
  | some inv =>
    if d.cost = linkCostBroken then pure w
    else do
      let newCost := (w.pathCost tc + d.cost) % 4294967296
      let newTc := (← s.edge inv).tc
      pure (if newCost < w.pathCost newTc then w.betterPath tc newTc newCost else w)

def olsrSpfRelax (s : Lsdb Lq) (tc : Topology.Ptr) (w : SpfRun L) : Option (SpfRun L) := do
  let t ← s.tc tc
  Run.forEach (relaxEdge s tc) (t.edgeTree.map Prod.snd) w

/-- `olsr_spf_run_full`; the number bounds the rounds of its loop. -/
def olsrSpfRunFull (s : Lsdb Lq) : Nat → SpfRun L → Option (SpfRun L)
  | 0, _ => none
  | fuel + 1, w =>
    match w.olsrSpfExtractBest with
    | none => some w
    | some tc => do
      let w ← w.olsrSpfRelax s tc
      olsrSpfRunFull s fuel ((w.olsrSpfDelCandTree tc).olsrSpfAddPathList tc)

/-- Initialize a vertex in the lsdb. -/
def initVertex (w : SpfRun L) (tc : Topology.Ptr) : SpfRun L :=
  { w with
    nextHop := Function.update w.nextHop tc none
    pathCost := Function.update w.pathCost tc routeCostBroken
    hops := Function.update w.hops tc 0 }

/-- Prepare the candidate tree and the result list, and initialize the vertices. -/
def init (s : Lsdb Lq) (w : SpfRun L) : SpfRun L :=
  (s.tcTree.map Prod.snd).foldl initVertex { w with candTree := [], pathList := [] }

/-- Zero ourselves and add us to the candidate tree. -/
def zero (w : SpfRun L) (tcMyself : Topology.Ptr) : SpfRun L :=
  { w with pathCost := Function.update w.pathCost tcMyself 0 }.olsrSpfAddCandTree tcMyself

end SpfRun

end

/-! ## The graph of a database -/

section

variable {Lq L : Type} {s : Lsdb Lq} {u v : Topology.Ptr} {c : Nat}

/-- Where an edge leads and what it costs, if it has an inverse edge and is not broken. -/
def usableEdge (s : Lsdb Lq) (tcEdge : Topology.Ptr) : Option (Topology.Ptr × Nat) := do
  let d ← s.edge tcEdge
  let i ← s.edge (← d.edgeInv)
  if d.cost = linkCostBroken then none else some (i.tc, d.cost)

def spfGraph (s : Lsdb Lq) : Graph Topology.Ptr := fun u =>
  match s.tc u with
  | none => []
  | some t => t.edgeTree.filterMap fun x => usableEdge s x.2

/-- There is an edge with an inverse edge from `u` to `v`, of cost `c`. -/
def Linked (s : Lsdb Lq) (u v : Topology.Ptr) (c : Nat) : Prop :=
  ∃ e d f i, s.edge e = some d ∧ d.tc = u ∧ d.cost = c ∧ d.edgeInv = some f ∧ s.edge f = some i ∧ i.tc = v

theorem usableEdge_eq_some {e : Topology.Ptr} : usableEdge s e = some (v, c) ↔
    ∃ d f i, s.edge e = some d ∧ d.edgeInv = some f ∧ s.edge f = some i ∧ i.tc = v ∧ d.cost = c ∧
    c ≠ linkCostBroken := by
  constructor
  · intro h
    obtain ⟨d, hd, h⟩ := Option.bind_eq_some_iff.1 h
    obtain ⟨f, hf, h⟩ := Option.bind_eq_some_iff.1 h
    obtain ⟨i, hi, h⟩ := Option.bind_eq_some_iff.1 h
    split at h
    · cases h
    · next hcost =>
      obtain ⟨rfl, rfl⟩ := Prod.mk.inj (Option.some.inj h)
      exact ⟨d, f, i, hd, hf, hi, rfl, rfl, hcost⟩
  · rintro ⟨d, f, i, hd, hf, hi, rfl, rfl, hcost⟩
    simp only [usableEdge, hd, hf, hi, Option.bind_eq_bind, Option.bind_some, if_neg hcost]

/-- The edges of the graph are those with an inverse edge that are not broken. -/
theorem mem_spfGraph (hw : Topology.Wf s) : (v, c) ∈ spfGraph s u ↔ Linked s u v c ∧ c ≠ linkCostBroken := by
  constructor
  · intro h
    unfold spfGraph at h
    split at h
    · exact (List.not_mem_nil h).elim
    · next t ht =>
      obtain ⟨⟨b, e⟩, he, husable⟩ := List.mem_filterMap.1 h
      obtain ⟨d, f, i, hd, hf, hi, hv, hc, hcost⟩ := usableEdge_eq_some.1 husable
      obtain ⟨d', hd', htc, -⟩ := ((hw.edgeTree u t ht).mem b e).1 he
      obtain rfl := Option.some.inj (hd.symm.trans hd')
      exact ⟨⟨e, d, f, i, hd, htc, hc, hf, hi, hv⟩, hcost⟩
  · rintro ⟨⟨e, d, f, i, hd, rfl, hc, hf, hi, hv⟩, hcost⟩
    obtain ⟨t, ht⟩ := hw.edgeTc e d hd
    unfold spfGraph
    rw [ht]
    refine List.mem_filterMap.2 ⟨(d.destAddr, e), ((hw.edgeTree _ t ht).mem _ e).2 ⟨d, hd, rfl, rfl⟩, ?_⟩
    exact usableEdge_eq_some.2 ⟨d, f, i, hd, hf, hi, hv, hc, hcost⟩

/-- A vertex is an entry of the database. -/
def Vertex (s : Lsdb Lq) (v : Topology.Ptr) : Prop := ∃ t, s.tc v = some t

theorem vertex_iff (hw : Topology.Wf s) : Vertex s v ↔ v ∈ s.tcTree.map Prod.snd := (Topology.mem_tcTree_iff hw v).symm

theorem vertex_of_linked (hw : Topology.Wf s) (h : Linked s u v c) : Vertex s v := by
  obtain ⟨-, -, f, i, -, -, -, -, hi, rfl⟩ := h
  exact hw.edgeTc f i hi

/-! ## The run is Dijkstra's algorithm -/

/-- The labels of the entries are those of the search, with `ROUTE_COST_BROKEN` where it has none. -/
structure Labels (s : Lsdb Lq) (w : SpfRun L) (a : Search Topology.Ptr L) : Prop where
  cost : ∀ v, Vertex s v → w.pathCost v = (a.cost v).getD routeCostBroken
  bounded : ∀ v c, a.cost v = some c → c < routeCostBroken
  hops : ∀ v, Vertex s v → w.hops v = UInt8.ofNat (a.hops v)
  nextHop : ∀ v, Vertex s v → w.nextHop v = a.via v
  candTree : w.candTree = a.queue
  pathList : w.pathList = a.settled

variable {w : SpfRun L} {a : Search Topology.Ptr L} {r : Topology.Ptr}

theorem Labels.better_iff (h : Labels s w a) (hv : Vertex s v) (hc : c < routeCostBroken) :
    c < w.pathCost v ↔ a.Better c v := by
  rw [h.cost v hv]
  cases hcost : a.cost v with
  | none => exact iff_of_true hc fun c' hc' => by rw [hcost] at hc'; cases hc'
  | some c' =>
    refine ⟨fun hlt d hd => ?_, fun hb => hb c' hcost⟩
    obtain rfl := Option.some.inj (hcost.symm.trans hd)
    exact hlt

theorem Labels.betterPath (h : Labels s w a) (ha : a.Inv (spfGraph s) r) (hu : Vertex s u) (hv : Vertex s v)
    (hc : c < routeCostBroken) : Labels s (w.betterPath u v c) (a.label u v c) := by
  have hdel : (if w.pathCost v < routeCostBroken then w.olsrSpfDelCandTree v else w) =
      { w with candTree := Keyed.erase v a.queue } := by
    rw [h.cost v hv, ← h.candTree]
    cases hcost : a.cost v with
    | some d =>
      rw [Option.getD_some, if_pos (h.bounded v d hcost)]
      rfl
    | none =>
      -- what has no label is not in the tree
      have hnot : Keyed.erase v w.candTree = w.candTree := by
        refine List.filter_eq_self.2 fun e he => ?_
        rw [h.candTree] at he
        have hne : e.2 ≠ v := by
          rintro rfl
          rw [ha.queueCost e.1 e.2 he] at hcost
          cases hcost
        simpa using hne
      rw [Option.getD_none, if_neg (lt_irrefl _), hnot]
  have hvia := h.nextHop u hu
  have hupdate : ∀ {α : Type} {f g : Topology.Ptr → α} {x : α}, (∀ y, Vertex s y → f y = g y) →
      ∀ y, Vertex s y → Function.update f v x y = Function.update g v x y := by
    intro α f g x hfg y hy
    by_cases hyv : y = v
    · rw [hyv, Function.update_self, Function.update_self]
    · rw [Function.update_of_ne hyv, Function.update_of_ne hyv, hfg y hy]
  have hqueue : Keyed.insert (fun a b : Nat => a < b) (Function.update w.pathCost v c v) v (Keyed.erase v a.queue) =
      Keyed.insert ShortestPath.ltKey c v (Keyed.erase v a.queue) := by
    rw [Function.update_self]
    rfl
  have hcost : ∀ y, Vertex s y → Function.update w.pathCost v c y =
      (Function.update a.cost v (some c) y).getD routeCostBroken := by
    intro y hy
    by_cases hyv : y = v
    · rw [hyv, Function.update_self, Function.update_self, Option.getD_some]
    · rw [Function.update_of_ne hyv, Function.update_of_ne hyv, h.cost y hy]
  have hbounded : ∀ y d, Function.update a.cost v (some c) y = some d → d < routeCostBroken := by
    intro y d hd
    by_cases hyv : y = v
    · rw [hyv, Function.update_self] at hd
      obtain rfl := Option.some.inj hd
      exact hc
    · rw [Function.update_of_ne hyv] at hd
      exact h.bounded y d hd
  have hhops : w.hops u + 1 = UInt8.ofNat (a.hops u + 1) := by
    rw [h.hops u hu, UInt8.ofNat_add]
    rfl
  have hhop : ∀ y, Vertex s y → Function.update w.hops v (w.hops u + 1) y =
      UInt8.ofNat (Function.update a.hops v (a.hops u + 1) y) := by
    intro y hy
    by_cases hyv : y = v
    · rw [hyv, Function.update_self, Function.update_self, hhops]
    · rw [Function.update_of_ne hyv, Function.update_of_ne hyv, h.hops y hy]
  unfold SpfRun.betterPath Search.label
  rw [hdel]
  cases hnext : a.via u with
  | none =>
    rw [hnext] at hvia
    simp only [SpfRun.olsrSpfAddCandTree, hvia, Option.isSome_none, Bool.false_eq_true, if_false]
    exact ⟨hcost, hbounded, hhop, h.nextHop, hqueue, h.pathList⟩
  | some l =>
    rw [hnext] at hvia
    simp only [SpfRun.olsrSpfAddCandTree, hvia, Option.isSome_some, if_true]
    exact ⟨hcost, hbounded, hhop, hupdate h.nextHop, hqueue, h.pathList⟩

/-- One edge, whose path cost does not reach `ROUTE_COST_BROKEN`. -/
theorem Labels.relaxEdge (hw : Topology.Wf s) (h : Labels s w a) (ha : a.Inv (spfGraph s) r) (hf : a.Front u c)
    (hu : Vertex s u) {e : Topology.Ptr} {d : TcEdgeEntry Lq} (hd : s.edge e = some d)
    (hsmall : ∀ x, usableEdge s e = some x → c + x.2 < routeCostBroken) :
    ∃ w', w.relaxEdge s u e = some w' ∧
      Labels s w' (((usableEdge s e).toList).foldl (Search.relaxEdge u c) a) := by
  unfold SpfRun.relaxEdge
  simp only [hd, Option.bind_eq_bind, Option.bind_some]
  cases hinv : d.edgeInv with
  | none =>
    have hnone : usableEdge s e = none := by
      simp only [usableEdge, hd, hinv, Option.bind_eq_bind, Option.bind_some]; rfl
    rw [hnone]
    exact ⟨w, rfl, h⟩
  | some f =>
    obtain ⟨i, hi, -⟩ := (hw.edgeInv e d hd f).1 hinv
    dsimp only
    by_cases hcost : d.cost = linkCostBroken
    · have hnone : usableEdge s e = none := by
        simp only [usableEdge, hd, hinv, hi, Option.bind_eq_bind, Option.bind_some, if_pos hcost]
      rw [if_pos hcost, hnone]
      exact ⟨w, rfl, h⟩
    · have husable : usableEdge s e = some (i.tc, d.cost) :=
        usableEdge_eq_some.2 ⟨d, f, i, hd, hinv, hi, rfl, rfl, hcost⟩
      have hv : Vertex s i.tc := hw.edgeTc f i hi
      have hlt := hsmall _ husable
      have hnew : (w.pathCost u + d.cost) % 4294967296 = c + d.cost := by
        rw [h.cost u hu, ha.queueCost c u hf.mem, Option.getD_some]
        exact Nat.mod_eq_of_lt (hlt.trans (by decide))
      rw [if_neg hcost, husable]
      simp only [hi, Option.bind_some, hnew]
      refine ⟨_, rfl, ?_⟩
      show Labels s _ (if a.Better (c + d.cost) i.tc then a.label u i.tc (c + d.cost) else a)
      by_cases hb : a.Better (c + d.cost) i.tc
      · rw [if_pos hb, if_pos ((h.better_iff hv hlt).2 hb)]
        exact h.betterPath ha hu hv hlt
      · rw [if_neg hb, if_neg (mt (h.better_iff hv hlt).1 hb)]
        exact h

theorem Labels.relaxEdges (hw : Topology.Wf s) (hu : Vertex s u) : ∀ (l : List (IpAddr × Topology.Ptr)) {w : SpfRun L}
    {a : Search Topology.Ptr L}, (∀ x ∈ l, ∃ d, s.edge x.2 = some d) →
    (∀ x ∈ l.filterMap fun x => usableEdge s x.2, x ∈ spfGraph s u ∧ c + x.2 < routeCostBroken) →
    Labels s w a → a.Inv (spfGraph s) r → a.Front u c →
    ∃ w', Run.forEach (SpfRun.relaxEdge s u) (l.map Prod.snd) w = some w' ∧
      Labels s w' ((l.filterMap fun x => usableEdge s x.2).foldl (Search.relaxEdge u c) a)
  | [], w, a, _, _, h, _, _ => ⟨w, rfl, h⟩
  | x :: l, w, a, hl, husable, h, ha, hf => by
    obtain ⟨d, hd⟩ := hl x (List.mem_cons_self ..)
    have hsplit : (x :: l).filterMap (fun x => usableEdge s x.2) =
        (usableEdge s x.2).toList ++ l.filterMap fun x => usableEdge s x.2 := by
      rw [List.filterMap_cons]
      cases usableEdge s x.2 <;> rfl
    rw [hsplit] at husable ⊢
    have hfirst : ∀ y ∈ (usableEdge s x.2).toList, y ∈ spfGraph s u := fun y hy =>
      (husable y (List.mem_append_left _ hy)).1
    obtain ⟨w₁, hw₁, h₁⟩ := h.relaxEdge hw ha hf hu hd fun y hy =>
      (husable y (List.mem_append_left _ (by rw [hy]; exact List.mem_singleton.2 rfl))).2
    have hex := Search.explored_edges _ hfirst ha hf
    obtain ⟨w', hw', h'⟩ := Labels.relaxEdges hw hu l (fun y hy => hl y (List.mem_cons_of_mem _ hy))
      (fun y hy => husable y (List.mem_append_right _ hy)) h₁ hex.inv hex.front
    rw [List.foldl_append]
    exact ⟨w', Run.forEach_cons.2 ⟨w₁, hw₁, hw'⟩, h'⟩

/-- The sums that occur in a run do not reach `ROUTE_COST_BROKEN`: a least path cost with an edge added. -/
def SumsFit (s : Lsdb Lq) (r : Topology.Ptr) : Prop :=
  ∀ u c, Least (spfGraph s) r u c → ∀ v x, (v, x) ∈ spfGraph s u → c + x < routeCostBroken

theorem Labels.round (hw : Topology.Wf s) (hfit : SumsFit s r) (h : Labels s w a) (ha : a.Inv (spfGraph s) r)
    {q : List (Nat × Topology.Ptr)} (hq : a.queue = (c, u) :: q) (hu : Vertex s u) :
    ∃ w', w.olsrSpfRelax s u = some w' ∧
      Labels s ((w'.olsrSpfDelCandTree u).olsrSpfAddPathList u) (a.round (spfGraph s) u c) := by
  obtain ⟨t, ht⟩ := hu
  have hf := Search.front_of_queue ha hq
  have hgraph : spfGraph s u = t.edgeTree.filterMap fun x => usableEdge s x.2 := by
    rw [spfGraph, ht]
  have hedges : ∀ x ∈ t.edgeTree, ∃ d, s.edge x.2 = some d := by
    rintro ⟨b, e⟩ hx
    obtain ⟨d, hd, -⟩ := ((hw.edgeTree u t ht).mem b e).1 hx
    exact ⟨d, hd⟩
  obtain ⟨w', hw', h'⟩ := Labels.relaxEdges hw ⟨t, ht⟩ t.edgeTree hedges (fun x hx => by
    rw [← hgraph] at hx
    exact ⟨hx, hfit u c (ha.front_least hf) x.1 x.2 hx⟩) h ha hf
  refine ⟨w', by simp only [SpfRun.olsrSpfRelax, ht, Option.bind_eq_bind, Option.bind_some, hw'], ?_⟩
  rw [← hgraph] at h'
  refine ⟨h'.cost, h'.bounded, h'.hops, h'.nextHop, ?_, ?_⟩
  · rw [SpfRun.olsrSpfAddPathList, SpfRun.olsrSpfDelCandTree, h'.candTree]
    rfl
  · rw [SpfRun.olsrSpfAddPathList, SpfRun.olsrSpfDelCandTree, h'.pathList]
    rfl

theorem Labels.run (hw : Topology.Wf s) (hr : Vertex s r) (hfit : SumsFit s r) : ∀ {fuel : Nat} {w : SpfRun L}
    {a b : Search Topology.Ptr L}, Labels s w a → a.Inv (spfGraph s) r → a.run (spfGraph s) fuel = some b →
    ∃ w', w.olsrSpfRunFull s fuel = some w' ∧ Labels s w' b
  | fuel + 1, w, a, b, h, ha, hrun => by
    rw [Search.run] at hrun
    rw [SpfRun.olsrSpfRunFull, SpfRun.olsrSpfExtractBest, h.candTree]
    split at hrun
    · next hq =>
      obtain rfl := Option.some.inj hrun
      rw [hq]
      exact ⟨w, rfl, h⟩
    · next c u q hq =>
      have hf := Search.front_of_queue ha hq
      have hu : Vertex s u := by
        refine (vertex_iff hw).2 ((ha.walk u c (ha.queueCost c u hf.mem)).mem ((vertex_iff hw).1 hr) ?_)
        intro x _ v d hv
        exact (vertex_iff hw).1 (vertex_of_linked hw ((mem_spfGraph hw).1 hv).1)
      obtain ⟨w₁, hw₁, h₁⟩ := h.round hw hfit ha hq hu
      obtain ⟨w', hw', h'⟩ := Labels.run hw hr hfit h₁ (ha.round hf).1 hrun
      refine ⟨w', ?_, h'⟩
      rw [hq]
      simp only [List.head?_cons, Option.map_some, hw₁, Option.bind_eq_bind, Option.bind_some, hw']

/-- With as many rounds as there are entries, and one more, the run has ended. -/
theorem olsrSpfRunFull_total (hw : Topology.Wf s) (hr : Vertex s r) (hfit : SumsFit s r) {via : Topology.Ptr → Option L}
    (h : Labels s w (Search.start r via)) : ∃ w' b, w.olsrSpfRunFull s (s.tcTree.length + 1) = some w' ∧
      (Search.start r via).run (spfGraph s) (s.tcTree.length + 1) = some b ∧ Labels s w' b := by
  have hinv := Search.inv_start (spfGraph s) r via
  have hclosed : ∀ u ∈ s.tcTree.map Prod.snd, ∀ v d, (v, d) ∈ spfGraph s u → v ∈ s.tcTree.map Prod.snd :=
    fun u _ v d hv => (vertex_iff hw).1 (vertex_of_linked hw ((mem_spfGraph hw).1 hv).1)
  obtain ⟨b, hb⟩ := Search.run_total ((vertex_iff hw).1 hr) hclosed (s.tcTree.length + 1) hinv
    (by rw [List.length_map]; exact Nat.lt_of_lt_of_le (Nat.lt_succ_self _) (Nat.le_add_right ..))
  obtain ⟨w', hw', h'⟩ := h.run hw hr hfit hinv hb
  exact ⟨w', b, hw', hb, h'⟩

end

end Olsrd.Spf
