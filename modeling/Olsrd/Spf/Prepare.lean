/-
What `olsr_calculate_routing_table` does before the SPF run: the vertices get their initial labels, and the neighbour
loop keeps the own edges and gives the neighbours their links as next hops.
-/
import Olsrd.Spf.Calculate
import Olsrd.Spf.Mirror

namespace Olsrd.Spf

open Olsrd.Topology (Lsdb TcEntry TcEdgeEntry edgeAt)
open ShortestPath (Search)

/-! ## The neighbour loop with its next hops -/

section

variable {Lq Hq : Type}

/-- Set the next hop of a neighbour, after the round of the neighbour loop for its edge. -/
def presetNextHop (env : Env Lq Hq) (n : Node Lq Hq) (neigh : Neighbor.Ptr) (w : SpfRun Neighbor.Ptr) :
    Option (SpfRun Neighbor.Ptr) := do
  let e ← n.nbh.nbr neigh
  match ← edgeLink env n.nbh e with
  | none => pure w
  | some link => do
    let tcMyself ← n.own.tcMyself
    let tcEdge ← Topology.olsrLookupTcEdge n.own.lsdb tcMyself e.mainAddr
    let d ← n.own.lsdb.edge (← tcEdge)
    match d.edgeInv with
    | none => pure w
    | some inv => do
      let i ← n.own.lsdb.edge inv
      pure { w with nextHop := Function.update w.nextHop i.tc (some link.id) }

/-- The body of the neighbour loop. -/
def spfRound (env : Env Lq Hq) (x : Node Lq Hq × SpfRun Neighbor.Ptr) (neigh : Neighbor.Ptr) :
    Option (Node Lq Hq × SpfRun Neighbor.Ptr) := do
  let n ← spfNeighbor env x.1 neigh
  let w ← presetNextHop env n neigh x.2
  pure (n, w)

/-- `olsr_calculate_routing_table` up to `olsr_spf_run_full`, if the node has an entry of its own. -/
def spfPrepare (env : Env Lq Hq) (n : Node Lq Hq) (w : SpfRun Neighbor.Ptr) :
    Option (Node Lq Hq × SpfRun Neighbor.Ptr) := do
  let w := w.init n.own.lsdb
  let own ← Topology.olsrChangeMyselfTc env.topology n.own
  let tcMyself ← own.tcMyself
  Run.forEach (spfRound env) (Neighbor.allNbrEntries n.nbh) ({ n with own := own }, w.zero tcMyself)

end

/-! ## The preparation -/

section

variable {L : Type}

/-- The labels of a vertex before a run. -/
structure Initial (w : SpfRun L) (v : Topology.Ptr) : Prop where
  pathCost : w.pathCost v = routeCostBroken
  hops : w.hops v = 0
  nextHop : w.nextHop v = none

theorem Initial.initVertex {w : SpfRun L} {u v : Topology.Ptr} (h : Initial w v ∨ v = u) :
    Initial (w.initVertex u) v := by
  by_cases hv : v = u
  · subst hv
    exact ⟨Function.update_self .., Function.update_self .., Function.update_self ..⟩
  · obtain h | h := h
    · exact ⟨(Function.update_of_ne hv _ _).trans h.pathCost, (Function.update_of_ne hv _ _).trans h.hops,
        (Function.update_of_ne hv _ _).trans h.nextHop⟩
    · exact absurd h hv

theorem initial_foldl {v : Topology.Ptr} : ∀ (l : List Topology.Ptr) {w : SpfRun L}, Initial w v ∨ v ∈ l →
    Initial (l.foldl SpfRun.initVertex w) v
  | [], _, h => h.resolve_right List.not_mem_nil
  | u :: l, w, h => by
    refine initial_foldl l ?_
    obtain h | h := h
    · exact .inl (.initVertex (.inl h))
    · exact (List.mem_cons.1 h).imp (fun h => .initVertex (.inr h)) id

theorem trees_foldl : ∀ (l : List Topology.Ptr) (w : SpfRun L),
    (l.foldl SpfRun.initVertex w).candTree = w.candTree ∧ (l.foldl SpfRun.initVertex w).pathList = w.pathList
  | [], _ => ⟨rfl, rfl⟩
  | u :: l, w => trees_foldl l (w.initVertex u)

end

section

variable {Lq Hq : Type} {env : Env Lq Hq} {n n' : Node Lq Hq} {s s' : Lsdb Lq} {w w' : SpfRun Neighbor.Ptr}
  {p : Topology.Ptr}

theorem vertex_iff_addrOf {v : Topology.Ptr} : Vertex s v ↔ ∃ a, Topology.addrOf s v = some a := by
  constructor
  · rintro ⟨t, ht⟩
    exact ⟨_, Topology.addrOf_some ht⟩
  · rintro ⟨a, ha⟩
    obtain ⟨t, ht, -⟩ := Topology.exists_tc_of_addrOf ha
    exact ⟨t, ht⟩

theorem presetNextHop_frame {q : Neighbor.Ptr} (h : presetNextHop env n q w = some w') :
    ∃ f, w' = { w with nextHop := f } := by
  obtain ⟨e, -, h⟩ := Option.bind_eq_some_iff.1 h
  obtain ⟨link, -, h⟩ := Option.bind_eq_some_iff.1 h
  cases link with
  | none =>
    obtain rfl := Option.some.inj h
    exact ⟨w.nextHop, rfl⟩
  | some l =>
    obtain ⟨tcMyself, -, h⟩ := Option.bind_eq_some_iff.1 h
    obtain ⟨tcEdge, -, h⟩ := Option.bind_eq_some_iff.1 h
    obtain ⟨e, -, h⟩ := Option.bind_eq_some_iff.1 h
    obtain ⟨d, -, h⟩ := Option.bind_eq_some_iff.1 h
    cases hinv : d.edgeInv with
    | none =>
      rw [hinv] at h
      obtain rfl := Option.some.inj h
      exact ⟨w.nextHop, rfl⟩
    | some inv =>
      rw [hinv] at h
      obtain ⟨i, -, h⟩ := Option.bind_eq_some_iff.1 h
      obtain rfl := Option.some.inj h
      exact ⟨_, rfl⟩

/-- The next hops aside, the loop is the neighbour loop for the edges. -/
theorem spfRounds_spec : ∀ {qs : List Neighbor.Ptr} {n : Node Lq Hq} {w : SpfRun Neighbor.Ptr},
    Run.forEach (spfRound env) qs (n, w) = some (n', w') →
    Run.forEach (spfNeighbor env) qs n = some n' ∧ ∃ f, w' = { w with nextHop := f }
  | [], n, w, h => by
    obtain ⟨rfl, rfl⟩ := Prod.mk.inj (Option.some.inj h)
    exact ⟨rfl, w.nextHop, rfl⟩
  | q :: qs, n, w, h => by
    obtain ⟨⟨n₁, w₁⟩, hround, h⟩ := Run.forEach_cons.1 h
    obtain ⟨n₂, hn₂, hround⟩ := Option.bind_eq_some_iff.1 hround
    obtain ⟨w₂, hw₂, hround⟩ := Option.bind_eq_some_iff.1 hround
    obtain ⟨rfl, rfl⟩ := Prod.mk.inj (Option.some.inj hround)
    obtain ⟨f, rfl⟩ := presetNextHop_frame hw₂
    obtain ⟨hloop, g, rfl⟩ := spfRounds_spec h
    exact ⟨Run.forEach_cons.2 ⟨n₂, hn₂, hloop⟩, g, rfl⟩

/-- What rounds of the loop for the entries `qs` leave as it was. -/
structure LoopFrame (env : Env Lq Hq) (p : Topology.Ptr) (qs : List Neighbor.Ptr) (n n' : Node Lq Hq) : Prop where
  nodeWf : NodeWf env n'
  tcMyself : n'.own.tcMyself = some p
  nbh : n'.nbh = n.nbh
  linkquality : n'.linkquality = n.linkquality
  addrOf : ∀ v, Topology.addrOf n'.own.lsdb v = Topology.addrOf n.own.lsdb v
  others : ∀ v, v ≠ p → edgeAt n'.own.lsdb v = edgeAt n.own.lsdb v
  rest : ∀ b, (∀ q ∈ qs, Neighbor.keyOf n.nbh q ≠ some b) → edgeAt n'.own.lsdb p b = edgeAt n.own.lsdb p b
  tcTree : n'.own.lsdb.tcTree = n.own.lsdb.tcTree
  trees : ∀ v, v ≠ p → (n'.own.lsdb.tc v).map TcEntry.edgeTree = (n.own.lsdb.tc v).map TcEntry.edgeTree

theorem loopFrame (h : NodeWf env n) (hp : n.own.tcMyself = some p) {qs : List Neighbor.Ptr}
    (hloop : Run.forEach (spfNeighbor env) qs n = some n') : LoopFrame env p qs n n' := by
  refine Run.forEach_invariant (P := LoopFrame env p qs n) ?_ ⟨h, hp, rfl, rfl, fun _ => rfl, fun _ _ => rfl,
    fun _ _ => rfl, rfl, fun _ _ => rfl⟩ hloop
  intro n₀ q n₁ hq h₀ hround
  obtain ⟨e, he, hdone⟩ := spfNeighbor_spec h₀.nodeWf h₀.tcMyself hround
  obtain ⟨link, -, hset⟩ := hdone.edge
  refine ⟨hdone.nodeWf h₀.nodeWf, hdone.tcMyself.trans h₀.tcMyself, hdone.nbh.trans h₀.nbh,
    hdone.linkquality.trans h₀.linkquality, fun v => (hset.addrOf v).trans (h₀.addrOf v), fun v hv =>
    (hset.others v hv).trans (h₀.others v hv), fun b hb => ?_,
    hset.tcTree.trans h₀.tcTree, fun v hv => (hset.trees v hv).trans (h₀.trees v hv)⟩
  have hne : b ≠ e.mainAddr := by
    rintro rfl
    rw [h₀.nbh] at he
    exact hb q hq (Neighbor.keyOf_eq he)
  rw [hset.edges, Function.update_of_ne hne, h₀.rest b hb]

theorem LoopFrame.vertex_iff {qs : List Neighbor.Ptr} (h : LoopFrame env p qs n n') {v : Topology.Ptr} :
    Vertex n'.own.lsdb v ↔ Vertex n.own.lsdb v := by
  rw [vertex_iff_addrOf, vertex_iff_addrOf, h.addrOf v]

/-! ## The next hops -/

/-- What setting the next hop of the neighbour with the entry `e` does, if `link` is what its round has found. -/
structure PresetDone (n : Node Lq Hq) (p : Topology.Ptr) (e : Neighbor.NeighborEntry) (link : Option Neighbor.LinkEntry)
    (w w' : SpfRun Neighbor.Ptr) : Prop where
  hop : ∀ l v c, link = some l → Linked n.own.lsdb p v c → Topology.addrOf n.own.lsdb v = some e.mainAddr →
    w'.nextHop v = some l.id
  others : ∀ v, Topology.addrOf n.own.lsdb v ≠ some e.mainAddr → w'.nextHop v = w.nextHop v
  unlinked : ∀ v, (∀ c, ¬Linked n.own.lsdb p v c) → w'.nextHop v = w.nextHop v

theorem presetNextHop_spec (h : NodeWf env n) (hp : n.own.tcMyself = some p) {q : Neighbor.Ptr}
    {e : Neighbor.NeighborEntry} (he : n.nbh.nbr q = some e) {link : Option Neighbor.LinkEntry}
    (hlink : edgeLink env n.nbh e = some link)
    (hedge : ∀ l, link = some l → ∃ x, edgeAt n.own.lsdb p e.mainAddr = some x) (w : SpfRun Neighbor.Ptr) :
    ∃ w', presetNextHop env n q w = some w' ∧ PresetDone n p e link w w' := by
  simp only [presetNextHop, he, hlink, Option.bind_eq_bind, Option.bind_some]
  cases link with
  | none => exact ⟨w, rfl, nofun, fun _ _ => rfl, fun _ _ => rfl⟩
  | some l =>
    obtain ⟨x, hx⟩ := hedge l rfl
    obtain ⟨t, ht, hx⟩ := Option.bind_eq_some_iff.1 hx
    obtain ⟨g, hg, hx⟩ := Option.bind_eq_some_iff.1 hx
    obtain ⟨d, hd, -⟩ := Option.bind_eq_some_iff.1 hx
    have hlookup : Topology.olsrLookupTcEdge n.own.lsdb p e.mainAddr = some (some g) := by
      simp [Topology.olsrLookupTcEdge, ht, hg]
    obtain ⟨d', hd', htc, hdest⟩ := (h.lsdb.edgeTree p t ht).find_iff.1 hg
    obtain rfl := Option.some.inj (hd.symm.trans hd')
    -- an edge with an inverse edge to the entry of the neighbour is this one
    have hsame : ∀ v c, Linked n.own.lsdb p v c → Topology.addrOf n.own.lsdb v = some e.mainAddr →
        ∃ f i, d.edgeInv = some f ∧ n.own.lsdb.edge f = some i ∧ i.tc = v := by
      rintro v c ⟨g', d', f, i, hg', htc', -, hinv, hi, rfl⟩ hv
      obtain ⟨i', hi', -, haddr⟩ := (h.lsdb.edgeInv g' d' hg' f).1 hinv
      obtain rfl := Option.some.inj (hi.symm.trans hi')
      have hdest' : d'.destAddr = e.mainAddr := Option.some.inj (haddr.symm.trans hv)
      obtain rfl := (h.lsdb.edgeTree p t ht).unique ⟨d', hg', htc', hdest'⟩ ⟨d, hd, htc, hdest⟩
      obtain rfl := Option.some.inj (hd.symm.trans hg')
      exact ⟨f, i, hinv, hi, rfl⟩
    simp only [hp, hlookup, hd, Option.bind_some]
    cases hinv : d.edgeInv with
    | none =>
      refine ⟨w, rfl, fun l' v c _ hlinked hv => ?_, fun _ _ => rfl, fun _ _ => rfl⟩
      obtain ⟨f, -, hf, -⟩ := hsame v c hlinked hv
      rw [hinv] at hf; cases hf
    | some f =>
      obtain ⟨i, hi, -, haddr⟩ := (h.lsdb.edgeInv g d hd f).1 hinv
      simp only [hi, Option.bind_some]
      refine ⟨_, rfl, fun l' v c hl' hlinked hv => ?_, fun v hv => ?_, fun v hv => ?_⟩
      · obtain ⟨f', i', hf', hi', rfl⟩ := hsame v c hlinked hv
        obtain rfl := Option.some.inj (hinv.symm.trans hf')
        obtain rfl := Option.some.inj (hi.symm.trans hi')
        obtain rfl := Option.some.inj hl'
        exact Function.update_self ..
      · refine Function.update_of_ne ?_ _ _
        rintro rfl
        rw [haddr, hdest] at hv
        exact hv rfl
      · refine Function.update_of_ne ?_ _ _
        rintro rfl
        exact hv d.cost ⟨g, d, f, i, hd, htc, rfl, hinv, hi, rfl⟩

theorem spfRound_spec (h : NodeWf env n) (hp : n.own.tcMyself = some p) {q : Neighbor.Ptr}
    (hround : spfNeighbor env n q = some n') (w : SpfRun Neighbor.Ptr) : ∃ e link w', n.nbh.nbr q = some e ∧
      edgeLink env n.nbh e = some link ∧ RoundDone env p e n n' ∧ spfRound env (n, w) q = some (n', w') ∧
      PresetDone n' p e link w w' := by
  obtain ⟨e, he, hdone⟩ := spfNeighbor_spec h hp hround
  obtain ⟨link, hlink, hset⟩ := hdone.edge
  have hedge : ∀ l, link = some l → ∃ x, edgeAt n'.own.lsdb p e.mainAddr = some x := by
    rintro l rfl
    rw [hset.edges, Function.update_self]
    cases edgeAt n.own.lsdb p e.mainAddr with
    | none => exact ⟨_, rfl⟩
    | some d => exact ⟨_, rfl⟩
  obtain ⟨w', hw', hpreset⟩ :=
    presetNextHop_spec (hdone.nodeWf h) (hdone.tcMyself.trans hp) (by rw [hdone.nbh]; exact he)
    (by rw [hdone.nbh]; exact hlink) hedge w
  refine ⟨e, link, w', he, hlink, hdone, ?_, hpreset⟩
  simp only [spfRound, hround, hw', Option.bind_eq_bind, Option.bind_some]
  rfl

/-- In terms of the edges by destination. -/
theorem linked_iff_edgeAt (hw : Topology.Wf s) {u v : Topology.Ptr} {c : Nat} : Linked s u v c ↔
    ∃ a b x y, Topology.addrOf s u = some a ∧ Topology.addrOf s v = some b ∧ edgeAt s u b = some x ∧ x.cost = c ∧
      edgeAt s v a = some y := by
  constructor
  · rintro ⟨e, d, f, i, hd, rfl, rfl, hinv, hi, rfl⟩
    obtain ⟨i', hi', ha, hb⟩ := (hw.edgeInv e d hd f).1 hinv
    obtain rfl := Option.some.inj (hi.symm.trans hi')
    exact ⟨_, _, d.core, i.core, ha, hb, (Topology.edgeAt_eq_some_iff hw).2 ⟨rfl, rfl, e, by rw [hd]; rfl⟩, rfl,
      (Topology.edgeAt_eq_some_iff hw).2 ⟨rfl, rfl, f, by rw [hi]; rfl⟩⟩
  · rintro ⟨a, b, x, y, ha, hb, hx, rfl, hy⟩
    obtain ⟨hxu, hxb, e, he⟩ := (Topology.edgeAt_eq_some_iff hw).1 hx
    obtain ⟨hyv, hya, f, hf⟩ := (Topology.edgeAt_eq_some_iff hw).1 hy
    obtain ⟨d, hd, rfl⟩ := Option.map_eq_some_iff.1 he
    obtain ⟨i, hi, rfl⟩ := Option.map_eq_some_iff.1 hf
    have htc : d.tc = u := hxu
    have hitc : i.tc = v := hyv
    have hinv : Topology.Inverse s d f := by
      refine ⟨i, hi, ?_, ?_⟩
      · rw [htc, ha]
        exact congrArg some hya.symm
      · rw [hitc, hb]
        exact congrArg some hxb.symm
    exact ⟨e, d, f, i, hd, htc, rfl, (hw.edgeInv e d hd f).2 hinv, hi, hitc⟩

/-- No round of the loop touches the edge to `v` or its inverse edge. -/
theorem LoopFrame.linked {qs : List Neighbor.Ptr} (h : LoopFrame env p qs n n') (hn : NodeWf env n) {v : Topology.Ptr}
    {b : IpAddr} {c : Nat} (hv : Topology.addrOf n'.own.lsdb v = some b)
    (hrest : ∀ q ∈ qs, Neighbor.keyOf n.nbh q ≠ some b) (hlinked : Linked n'.own.lsdb p v c) :
    Linked n.own.lsdb p v c := by
  obtain ⟨a, b', x, y, ha, hb', hx, hc, hy⟩ := (linked_iff_edgeAt h.nodeWf.lsdb).1 hlinked
  obtain rfl := Option.some.inj (hv.symm.trans hb')
  rw [h.rest b hrest] at hx
  refine (linked_iff_edgeAt hn.lsdb).2 ⟨a, b, x, y, (h.addrOf p).symm.trans ha, (h.addrOf v).symm.trans hv, hx, hc, ?_⟩
  by_cases hvp : v = p
  · subst hvp
    obtain rfl := Option.some.inj (ha.symm.trans hv)
    rwa [h.rest a hrest] at hy
  · rwa [h.others v hvp] at hy

/-- What the loop over the neighbour entries `qs` does to the next hops. -/
structure HopsPreset (env : Env Lq Hq) (p : Topology.Ptr) (qs : List Neighbor.Ptr) (n n' : Node Lq Hq)
    (w w' : SpfRun Neighbor.Ptr) : Prop where
  hop : ∀ b v c, (∃ q ∈ qs, Neighbor.keyOf n.nbh q = some b) → Topology.addrOf n'.own.lsdb v = some b →
    Linked n'.own.lsdb p v c → ∃ l, Usable env n.nbh b l ∧ w'.nextHop v = some l.id
  others : ∀ b v, Topology.addrOf n'.own.lsdb v = some b → (∀ q ∈ qs, Neighbor.keyOf n.nbh q ≠ some b) →
    w'.nextHop v = w.nextHop v

/-- The last round for a main address has the last word on its edge and its next hop. -/
theorem hopsPreset : ∀ {qs : List Neighbor.Ptr} {n : Node Lq Hq} {w : SpfRun Neighbor.Ptr}, NodeWf env n →
    n.own.tcMyself = some p → Run.forEach (spfRound env) qs (n, w) = some (n', w') → HopsPreset env p qs n n' w w'
  | [], n, w, _, _, h => by
    obtain ⟨rfl, rfl⟩ := Prod.mk.inj (Option.some.inj h)
    exact ⟨fun _ _ _ ⟨_, hq, _⟩ => (List.not_mem_nil hq).elim, fun _ _ _ _ => rfl⟩
  | q :: qs, n, w, hn, hp, h => by
    obtain ⟨⟨n₁, w₁⟩, hround, h⟩ := Run.forEach_cons.1 h
    obtain ⟨n₂, hn₂, hround'⟩ := Option.bind_eq_some_iff.1 hround
    obtain ⟨e, link, w₂, he, hlink, hdone, hround₂, hpreset⟩ := spfRound_spec hn hp hn₂ w
    obtain ⟨rfl, rfl⟩ := Prod.mk.inj (Option.some.inj (hround₂.symm.trans hround))
    have hn₁ := hdone.nodeWf hn
    have hp₁ := hdone.tcMyself.trans hp
    have hlater := hopsPreset hn₁ hp₁ h
    have hframe := loopFrame hn₁ hp₁ (spfRounds_spec h).1
    have hkey : Neighbor.keyOf n.nbh q = some e.mainAddr := Neighbor.keyOf_eq he
    refine ⟨fun b v c hq hv hlinked => ?_, fun b v hv hrest => ?_⟩
    · by_cases hagain : ∃ q' ∈ qs, Neighbor.keyOf n.nbh q' = some b
      · rw [← hdone.nbh] at hagain ⊢
        exact hlater.hop b v c hagain hv hlinked
      · have hrest : ∀ q' ∈ qs, Neighbor.keyOf n₂.nbh q' ≠ some b := by
          rw [hdone.nbh]
          exact fun q' hq' hb => hagain ⟨q', hq', hb⟩
        obtain rfl : e.mainAddr = b := by
          obtain ⟨q', hq', hb⟩ := hq
          obtain rfl | hq' := List.mem_cons.1 hq'
          · exact Option.some.inj (hkey.symm.trans hb)
          · exact absurd ⟨q', hq', hb⟩ hagain
        have hlinked₁ := hframe.linked hn₁ hv hrest hlinked
        have hv₁ := (hframe.addrOf v).symm.trans hv
        -- the edge is there, so that the round has found a link
        obtain ⟨link', hlink', hset⟩ := hdone.edge
        obtain rfl := Option.some.inj (hlink.symm.trans hlink')
        obtain ⟨-, b', x, -, -, hb', hx, -, -⟩ := (linked_iff_edgeAt hn₁.lsdb).1 hlinked₁
        obtain rfl := Option.some.inj (hv₁.symm.trans hb')
        rw [hset.edges, Function.update_self] at hx
        cases link with
        | none => cases hx
        | some l =>
          refine ⟨l, usable_iff.2 ⟨q, e, he, rfl, hlink⟩, ?_⟩
          rw [hlater.others _ v hv hrest]
          exact hpreset.hop l v c rfl hlinked₁ hv₁
    · have hne : Topology.addrOf n₂.own.lsdb v ≠ some e.mainAddr := by
        rw [← hframe.addrOf v, hv]
        exact fun heq => hrest q (List.mem_cons_self ..) (hkey.trans heq.symm)
      rw [hlater.others b v hv, hpreset.others v hne]
      rw [hdone.nbh]
      exact fun q' hq' => hrest q' (List.mem_cons_of_mem _ hq')

/-! ## The code before the run -/

/-- What the code before `olsr_spf_run_full` leaves. -/
structure Prepared (env : Env Lq Hq) (n n' : Node Lq Hq) (p : Topology.Ptr) (w : SpfRun Neighbor.Ptr) : Prop where
  loop : neighborLoop env n = some n'
  nodeWf : NodeWf env n'
  tcMyself : n'.own.tcMyself = some p
  vertex : Vertex n'.own.lsdb p
  labels : Labels n'.own.lsdb w (Search.start p w.nextHop)
  hop : ∀ b v c, (∃ q ∈ Neighbor.allNbrEntries n.nbh, Neighbor.keyOf n.nbh q = some b) →
    Topology.addrOf n'.own.lsdb v = some b → Linked n'.own.lsdb p v c →
    ∃ l, Usable env n.nbh b l ∧ w.nextHop v = some l.id
  noHop : ∀ b v, Topology.addrOf n'.own.lsdb v = some b →
    (∀ q ∈ Neighbor.allNbrEntries n.nbh, Neighbor.keyOf n.nbh q ≠ some b) → w.nextHop v = none

theorem spfPrepare_spec (h : NodeWf env n) (hprep : spfPrepare env n w = some (n', w')) :
    ∃ p, Prepared env n n' p w' := by
  obtain ⟨own, hown, hprep⟩ := Option.bind_eq_some_iff.1 hprep
  obtain ⟨p, hp, hprep⟩ := Option.bind_eq_some_iff.1 hprep
  obtain ⟨p', hp', heq⟩ | ⟨hnone, heq⟩ := changeMyself_of_nodeWf h
  swap
  · obtain rfl := Option.some.inj (heq.symm.trans hown)
    rw [show n.own.tcMyself = some p from hp] at hnone; cases hnone
  obtain rfl := Option.some.inj (heq.symm.trans hown)
  have hhops := hopsPreset h hp hprep
  obtain ⟨hloop, f, rfl⟩ := spfRounds_spec hprep
  have hframe := loopFrame h hp hloop
  have hroot : Vertex n'.own.lsdb p := vertex_iff_addrOf.2 ⟨_, hframe.nodeWf.own p hframe.tcMyself⟩
  -- every vertex but `p` has its initial labels
  have hinitial : ∀ v, Vertex n'.own.lsdb v → Initial (w.init n.own.lsdb) v := fun v hv =>
    initial_foldl _ (.inr ((vertex_iff h.lsdb).1 (hframe.vertex_iff.1 hv)))
  obtain ⟨hcand, hpath⟩ :=
    trees_foldl (n.own.lsdb.tcTree.map Prod.snd) { w with candTree := [], pathList := [] }
  refine ⟨p, ?_, hframe.nodeWf, hframe.tcMyself, hroot, ⟨fun v hv => ?_, fun v c hc => ?_,
    fun v hv => (hinitial v hv).hops, fun v hv => rfl, ?_, hpath⟩, hhops.hop, fun b v hv hrest => ?_⟩
  · simp only [neighborLoop, heq, Option.bind_eq_bind, Option.bind_some, hp]
    exact hloop
  · show Function.update (w.init n.own.lsdb).pathCost p 0 v = (Function.update (fun _ => none) p (some 0) v).getD _
    by_cases hvp : v = p
    · rw [hvp, Function.update_self, Function.update_self, Option.getD_some]
    · rw [Function.update_of_ne hvp, Function.update_of_ne hvp, (hinitial v hv).pathCost, Option.getD_none]
  · rw [show (Search.start p f).cost = Function.update (fun _ => none) p (some 0) from rfl] at hc
    by_cases hvp : v = p
    · rw [hvp, Function.update_self] at hc
      rw [← Option.some.inj hc]
      decide
    · rw [Function.update_of_ne hvp] at hc
      cases hc
  · show Keyed.insert _ (Function.update (w.init n.own.lsdb).pathCost p 0 p) p (w.init n.own.lsdb).candTree = [(0, p)]
    rw [Function.update_self, show (w.init n.own.lsdb).candTree = [] from hcand]
    rfl
  · rw [hhops.others b v hv hrest]
    exact (hinitial v (vertex_iff_addrOf.2 ⟨b, hv⟩)).nextHop

/-- If no link leads to a neighbour entry that has been freed, the code before `olsr_spf_run_full` gets there. -/
theorem spfPrepare_total (h : NodeWf env n) (hw : Neighbor.TableWf n.nbh) (hlive : LinksLive n.nbh)
    (hp : n.own.tcMyself = some p) (w : SpfRun Neighbor.Ptr) : ∃ x, spfPrepare env n w = some x := by
  obtain ⟨p', hp', heq⟩ | ⟨hnone, -⟩ := changeMyself_of_nodeWf h
  swap
  · rw [hp] at hnone; cases hnone
  let P : List Neighbor.Ptr → Node Lq Hq × SpfRun Neighbor.Ptr → Prop := fun qs x =>
    NodeWf env x.1 ∧ x.1.own.tcMyself = some p ∧ x.1.nbh = n.nbh ∧ ∀ q ∈ qs, ∃ e, n.nbh.nbr q = some e
  have hround : ∀ q qs x, P (q :: qs) x → ∃ x', spfRound env x q = some x' ∧ P qs x' := by
    rintro q qs ⟨n₀, w₀⟩ ⟨hn₀, hp₀, hnbh₀, hqs⟩
    obtain ⟨e, he⟩ := hqs q (List.mem_cons_self ..)
    obtain ⟨n₁, hn₁⟩ := spfNeighbor_total hn₀ hp₀ (hnbh₀ ▸ hlive) (by rw [hnbh₀]; exact he)
    obtain ⟨e', link, w₁, -, -, hdone, hx, -⟩ := spfRound_spec hn₀ hp₀ hn₁ w₀
    exact ⟨(n₁, w₁), hx, hdone.nodeWf hn₀, hdone.tcMyself.trans hp₀, hdone.nbh.trans hnbh₀,
      fun q' hq' => hqs q' (List.mem_cons_of_mem _ hq')⟩
  have hentries : ∀ q ∈ Neighbor.allNbrEntries n.nbh, ∃ e, n.nbh.nbr q = some e := by
    intro q hq
    obtain ⟨b, hb⟩ := (mem_allNbrEntries hw).1 hq
    obtain ⟨e, he, -⟩ := Option.map_eq_some_iff.1 hb
    exact ⟨e, he⟩
  obtain ⟨x, hx, -⟩ := Run.forEach_total (s := (n, (w.init n.own.lsdb).zero p)) hround ⟨h, hp, rfl, hentries⟩
  refine ⟨x, ?_⟩
  simp only [spfPrepare, heq, Option.bind_eq_bind, Option.bind_some, hp]
  exact hx

end

end Olsrd.Spf
