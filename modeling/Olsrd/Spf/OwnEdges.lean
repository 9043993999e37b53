/-
The edges a node keeps to its neighbours. One round of the neighbour loop sets the edge to one main
address, and the whole loop those to the main addresses in the neighbour table. What is under another
address when the loop starts stays there.
-/
import Olsrd.Neighbor.BestLink
import Olsrd.Spf.Node

namespace Olsrd.Spf

open Olsrd.Topology (Lsdb OwnTopology TcEdgeEntry edgeAt edgeAt_eq_some_iff edgeAt_eq_none_iff)
open Olsrd.Neighbor (Nbh NeighborEntry LinkEntry)

variable {Lq Hq : Type} {env : Env Lq Hq} {n n' : Node Lq Hq}

/-! ## The database of a node -/

/-- The database is in order, and `tc_myself` is the entry of the main address, if the node has one. -/
structure NodeWf (env : Env Lq Hq) (n : Node Lq Hq) : Prop where
  lsdb : Topology.Wf n.own.lsdb
  ordered : Topology.Ordered env.topology n.own.lsdb
  own : ∀ p, n.own.tcMyself = some p → Topology.addrOf n.own.lsdb p = some env.cnf.mainAddr
  main : n.own.tcMyself = none → ¬ env.cnf.HasMainAddr

/-- The edge that a round of the loop leaves for the main address `b`, from the quality of the link and the edge
before. -/
def ownEdge (env : Env Lq Hq) (p : Topology.Ptr) (b : IpAddr) :
    Option Hq → Option (TcEdgeEntry Lq) → Option (TcEdgeEntry Lq)
  | none, _ => none
  | some _, none => some (Topology.newEdge env.topology p b 0).core
  | some quality, some d =>
    some (Topology.olsrCalcTcEdgeEntryEtx env.topology { d with linkquality := env.copyLinkLqIntoTc quality }).1

/-- The database with the own edge to `b` set to `o`, and the other edges as they were. -/
structure OwnEdgeSet (env : Env Lq Hq) (p : Topology.Ptr) (b : IpAddr) (o : Option (TcEdgeEntry Lq)) (s s' : Lsdb Lq) :
    Prop where
  wf : Topology.Wf s'
  ordered : Topology.Ordered env.topology s → Topology.Ordered env.topology s'
  addrOf : ∀ q, Topology.addrOf s' q = Topology.addrOf s q
  edges : edgeAt s' p = Function.update (edgeAt s p) b o
  others : ∀ q, q ≠ p → edgeAt s' q = edgeAt s q
  tcTree : s'.tcTree = s.tcTree
  trees : ∀ q, q ≠ p → (s'.tc q).map Topology.TcEntry.edgeTree = (s.tc q).map Topology.TcEntry.edgeTree

variable {s s' : Lsdb Lq} {p : Topology.Ptr} {t : Topology.TcEntry} {b : IpAddr}

theorem OwnEdgeSet.refl (h : Topology.Wf s) (hnone : edgeAt s p b = none) : OwnEdgeSet env p b none s s :=
  ⟨h, id, fun _ => rfl, by rw [← hnone, Function.update_eq_self], fun _ _ => rfl, rfl, fun _ _ => rfl⟩

theorem deleteEdgeIfAny_spec (h : Topology.Wf s) (ht : s.tc p = some t)
    (hs' : deleteEdgeIfAny s (Keyed.find b t.edgeTree) = some s') : OwnEdgeSet env p b none s s' := by
  cases hf : Keyed.find b t.edgeTree with
  | none =>
    rw [hf] at hs'
    obtain rfl := Option.some.inj hs'
    exact .refl h ((edgeAt_eq_none_iff h ht).2 hf)
  | some e =>
    rw [hf] at hs'
    obtain ⟨d, hd, rfl, rfl⟩ := (h.edgeTree p t ht).find_iff.1 hf
    obtain ⟨s'', hs'', hw, hdel⟩ := Topology.olsrDeleteTcEdgeEntry_spec h hd
    obtain rfl : s' = s'' := Option.some.inj (hs'.symm.trans hs'')
    refine ⟨hw, hdel.ordered, hdel.addrOf, Topology.edgeAt_deleted h hw hd hdel,
      fun q hq => Topology.edgeAt_deleted_other h hw hd hdel hq, hdel.tcTree, fun q hq => ?_⟩
    obtain ⟨t', -, htc⟩ := hdel.tc
    rw [htc, Function.update_of_ne hq]

theorem newEdge_ends (env : Topology.Env Lq) (p : Topology.Ptr) (b : IpAddr) (ansn : UInt16) :
    (Topology.newEdge env p b ansn).tc = p ∧ (Topology.newEdge env p b ansn).destAddr = b := by
  have hends := (Topology.olsrCalcTcEdgeEntryEtx_core env ⟨b, none, p, 0, ansn, env.lq.zeroLq⟩).2.1
  exact ⟨congrArg Prod.fst hends, congrArg Prod.snd hends⟩

theorem addEdge_spec (h : Topology.Wf s) (ht : s.tc p = some t) (hf : Keyed.find b t.edgeTree = none)
    {x : Lsdb Lq × Topology.Ptr} (hx : Topology.olsrAddTcEdgeEntry env.topology s p b 0 = some x) :
    OwnEdgeSet env p b (some (Topology.newEdge env.topology p b 0).core) s x.1 := by
  obtain ⟨s₁, hs₁, hw, hadd⟩ := Topology.olsrAddTcEdgeEntry_spec env.topology h 0 ht hf
  obtain rfl := Option.some.inj (hs₁.symm.trans hx)
  obtain ⟨htc, hdest⟩ := newEdge_ends env.topology p b 0
  have hold : ∀ x, (s.edge s.fresh).map TcEdgeEntry.core = some x → False := by
    intro x hx; rw [(h.fresh _ le_rfl).2.1] at hx; cases hx
  refine ⟨hw, fun ho => hadd.ordered ht ho, Topology.addrOf_update hadd.tc ht rfl, ?_, fun q hq => ?_, hadd.tcTree,
    fun q hq => by rw [hadd.tc, Function.update_of_ne hq]⟩
  · have hat := Topology.edgeAt_update (y := (Topology.newEdge env.topology p b 0).core) h hw htc hadd.new hadd.others
      fun x hx => (hold x hx).elim
    have hkey : (Topology.newEdge env.topology p b 0).core.destAddr = b := hdest
    rwa [hkey] at hat
  · refine Topology.edgeAt_other h hw hq (fun x hx => ?_) hadd.others fun x hx => (hold x hx).elim
    rw [hadd.new] at hx
    rw [← Option.some.inj hx]; exact htc

theorem calc_core (env : Topology.Env Lq) (d : TcEdgeEntry Lq) (quality : Lq) :
    (Topology.olsrCalcTcEdgeEntryEtx env { d with linkquality := quality }).1.core =
      (Topology.olsrCalcTcEdgeEntryEtx env { d.core with linkquality := quality }).1 := by
  unfold Topology.olsrCalcTcEdgeEntryEtx
  split <;> rfl

/-- Changing an edge, but not its ends. -/
theorem setEdge_spec (h : Topology.Wf s) {e : Topology.Ptr} {d d' : TcEdgeEntry Lq} (hd : s.edge e = some d)
    (htc : d'.tc = d.tc) (hdest : d'.destAddr = d.destAddr) (hinv : d'.edgeInv = d.edgeInv) :
    OwnEdgeSet env d.tc d.destAddr (some d'.core) s (s.setEdge e d') := by
  have hw := Topology.wf_setEdge h hd htc hdest hinv
  have hset : ((s.setEdge e d').edge e).map TcEdgeEntry.core = some d'.core := by
    show (Function.update s.edge e _ e).map _ = _
    rw [Function.update_self]; rfl
  have hothers : ∀ g, g ≠ e → ((s.setEdge e d').edge g).map TcEdgeEntry.core = (s.edge g).map TcEdgeEntry.core := by
    intro g hg
    show (Function.update s.edge e _ g).map _ = _
    rw [Function.update_of_ne hg]
  have hold : ∀ x, (s.edge e).map TcEdgeEntry.core = some x → x.tc = d.tc ∧ x.destAddr = d.destAddr := by
    intro x hx
    rw [hd, Option.map_some] at hx
    rw [← Option.some.inj hx]
    exact ⟨rfl, rfl⟩
  refine ⟨hw, id, Topology.addrOf_of_tc_eq rfl, ?_, fun q hq => ?_, rfl, fun _ _ => rfl⟩
  · rw [← hdest]
    refine Topology.edgeAt_update (y := d'.core) h hw htc hset hothers fun x hx => ?_
    exact ⟨(hold x hx).1, (hold x hx).2.trans hdest.symm⟩
  · refine Topology.edgeAt_other h hw hq (fun x hx => ?_) hothers fun x hx => (hold x hx).1
    rw [hset] at hx
    rw [← Option.some.inj hx]; exact htc

theorem updateEdge_spec (h : Topology.Wf s) (ht : s.tc p = some t) {e : Topology.Ptr} {quality : Hq}
    (hf : Keyed.find b t.edgeTree = some e) (hs' : updateEdge env s e quality = some s') :
    OwnEdgeSet env p b (ownEdge env p b (some quality) (edgeAt s p b)) s s' := by
  obtain ⟨d, hd, rfl, rfl⟩ := (h.edgeTree p t ht).find_iff.1 hf
  have hat : edgeAt s d.tc d.destAddr = some d.core := (edgeAt_eq_some_iff h).2 ⟨rfl, rfl, e, by rw [hd]; rfl⟩
  obtain ⟨d', hd', hs'⟩ := Option.bind_eq_some_iff.1 hs'
  obtain rfl : d = d' := Option.some.inj (hd.symm.trans hd')
  obtain rfl := Option.some.inj hs'
  let f : TcEdgeEntry Lq := { d with linkquality := env.copyLinkLqIntoTc quality }
  obtain ⟨-, hends, hinv⟩ := Topology.olsrCalcTcEdgeEntryEtx_core env.topology f
  have hset := @setEdge_spec _ _ env _ h _ _ _ hd (congrArg Prod.fst hends) (congrArg Prod.snd hends) hinv
  rw [hat, ownEdge, ← calc_core]
  exact hset

/-! ## A round of the loop -/

/-- What a round of the loop for the neighbour entry `e` does, with `p` for `tc_myself`. -/
structure RoundDone (env : Env Lq Hq) (p : Topology.Ptr) (e : NeighborEntry) (n n' : Node Lq Hq) : Prop where
  nbh : n'.nbh = n.nbh
  linkquality : n'.linkquality = n.linkquality
  tcMyself : n'.own.tcMyself = n.own.tcMyself
  edge : ∃ link, edgeLink env n.nbh e = some link ∧
    OwnEdgeSet env p e.mainAddr (ownEdge env p e.mainAddr (link.map fun l => n.linkquality l.id)
      (edgeAt n.own.lsdb p e.mainAddr)) n.own.lsdb n'.own.lsdb

theorem RoundDone.nodeWf {e : NeighborEntry} (h : RoundDone env p e n n') (hn : NodeWf env n) : NodeWf env n' := by
  obtain ⟨link, -, hset⟩ := h.edge
  refine ⟨hset.wf, hset.ordered hn.ordered, fun q hq => ?_, fun hnone => ?_⟩
  · rw [hset.addrOf]
    exact hn.own q (h.tcMyself ▸ hq)
  · exact hn.main (h.tcMyself ▸ hnone)

theorem spfNeighbor_spec (h : NodeWf env n) (hp : n.own.tcMyself = some p) {q : Neighbor.Ptr}
    (hstep : spfNeighbor env n q = some n') : ∃ e, n.nbh.nbr q = some e ∧ RoundDone env p e n n' := by
  obtain ⟨e, he, hstep⟩ := Option.bind_eq_some_iff.1 hstep
  obtain ⟨p', hp', hstep⟩ := Option.bind_eq_some_iff.1 hstep
  obtain rfl : p = p' := Option.some.inj (hp.symm.trans hp')
  obtain ⟨t, ht, -⟩ := Topology.exists_tc_of_addrOf (h.own p hp)
  obtain ⟨tcEdge, hedge, hstep⟩ := Option.bind_eq_some_iff.1 hstep
  obtain ⟨link, hlink, hstep⟩ := Option.bind_eq_some_iff.1 hstep
  have hfind : Keyed.find e.mainAddr t.edgeTree = tcEdge := by
    simpa [Topology.olsrLookupTcEdge, ht] using hedge
  refine ⟨e, he, ?_⟩
  cases link with
  | none =>
    obtain ⟨s', hs', rfl⟩ := Option.map_eq_some_iff.1 hstep
    rw [← hfind] at hs'
    exact ⟨rfl, rfl, rfl, none, hlink, deleteEdgeIfAny_spec h.lsdb ht hs'⟩
  | some l =>
    cases tcEdge with
    | none =>
      obtain ⟨x, hx, rfl⟩ := Option.map_eq_some_iff.1 hstep
      refine ⟨rfl, rfl, rfl, some l, hlink, ?_⟩
      rw [(edgeAt_eq_none_iff h.lsdb ht).2 hfind]
      exact addEdge_spec h.lsdb ht hfind hx
    | some g =>
      obtain ⟨s', hs', rfl⟩ := Option.map_eq_some_iff.1 hstep
      exact ⟨rfl, rfl, rfl, some l, hlink, updateEdge_spec h.lsdb ht hfind hs'⟩

/-! ## The loop -/

/-- What the loop over the neighbour entries `qs` does. -/
structure LoopDone (env : Env Lq Hq) (p : Topology.Ptr) (qs : List Neighbor.Ptr) (n n' : Node Lq Hq) : Prop where
  nodeWf : NodeWf env n'
  nbh : n'.nbh = n.nbh
  linkquality : n'.linkquality = n.linkquality
  tcMyself : n'.own.tcMyself = n.own.tcMyself
  set : ∀ q ∈ qs, ∃ e link, n.nbh.nbr q = some e ∧ edgeLink env n.nbh e = some link ∧
    edgeAt n'.own.lsdb p e.mainAddr = ownEdge env p e.mainAddr (link.map fun l => n.linkquality l.id)
      (edgeAt n.own.lsdb p e.mainAddr)
  rest : ∀ b, (∀ q ∈ qs, Neighbor.keyOf n.nbh q ≠ some b) → edgeAt n'.own.lsdb p b = edgeAt n.own.lsdb p b

theorem loop_spec (hkeys : Neighbor.UniqueKeys n.nbh) : ∀ {qs : List Neighbor.Ptr} {n₀ : Node Lq Hq}, n₀.nbh = n.nbh →
    NodeWf env n₀ → n₀.own.tcMyself = some p → qs.Nodup → Run.forEach (spfNeighbor env) qs n₀ = some n' →
    LoopDone env p qs n₀ n'
  | [], n₀, _, h, _, _, hloop => by
    obtain rfl := Option.some.inj hloop
    exact ⟨h, rfl, rfl, rfl, by simp, fun _ _ => rfl⟩
  | q :: qs, n₀, hnbh, h, hp, hnodup, hloop => by
    obtain ⟨hq, hnodup'⟩ := List.nodup_cons.1 hnodup
    obtain ⟨n₁, hn₁, hloop⟩ := Run.forEach_cons.1 hloop
    obtain ⟨e, he, hround⟩ := spfNeighbor_spec h hp hn₁
    obtain ⟨link, hlink, hset⟩ := hround.edge
    have hdone := loop_spec hkeys (hround.nbh.trans hnbh) (hround.nodeWf h) (hround.tcMyself.trans hp) hnodup' hloop
    have hkey : Neighbor.keyOf n₀.nbh q = some e.mainAddr := Neighbor.keyOf_eq he
    refine ⟨hdone.nodeWf, hdone.nbh.trans hround.nbh, hdone.linkquality.trans hround.linkquality,
      hdone.tcMyself.trans hround.tcMyself, fun q' hq' => ?_, fun b hb => ?_⟩
    · rcases List.mem_cons.1 hq' with rfl | hq'
      · -- no later round has this main address
        refine ⟨e, link, he, hlink, ?_⟩
        rw [hdone.rest, hset.edges, Function.update_self]
        intro q'' hq'' hkey''
        rw [hround.nbh, hnbh] at hkey''
        rw [hnbh] at hkey
        exact hq (hkeys q'' q' _ hkey'' hkey ▸ hq'')
      · obtain ⟨e', link', he', hlink', hedge⟩ := hdone.set q' hq'
        rw [hround.nbh] at he' hlink'
        have hne : e'.mainAddr ≠ e.mainAddr := by
          intro heq
          have hkey' := Neighbor.keyOf_eq he'
          rw [heq] at hkey'
          rw [hnbh] at hkey hkey'
          exact hq (hkeys q' q _ hkey' hkey ▸ hq')
        refine ⟨e', link', he', hlink', ?_⟩
        rw [hedge, hround.linkquality, hset.edges, Function.update_of_ne hne]
    · have hne : b ≠ e.mainAddr := by
        rintro rfl
        exact hb q (List.mem_cons_self ..) hkey
      rw [hdone.rest b fun q' hq' => ?_, hset.edges, Function.update_of_ne hne]
      rw [hround.nbh]
      exact hb q' (List.mem_cons_of_mem _ hq')

/-- With a main address that does not change, `olsr_change_myself_tc` does nothing that matters. -/
theorem changeMyself_of_nodeWf (h : NodeWf env n) : (∃ p, n.own.tcMyself = some p ∧
    Topology.olsrChangeMyselfTc env.topology n.own = some n.own) ∨ (n.own.tcMyself = none ∧
      Topology.olsrChangeMyselfTc env.topology n.own = some { n.own with changesTopology := true }) := by
  cases hp : n.own.tcMyself with
  | some p =>
    obtain ⟨t, ht, ha⟩ := Topology.exists_tc_of_addrOf (h.own p hp)
    have heq : ipequal env.topology.cnf t.addr env.topology.cnf.mainAddr = true := by
      rw [ha]; simp [ipequal, Env.topology]
    exact .inl ⟨p, rfl, by simp [Topology.olsrChangeMyselfTc, hp, ht, heq]⟩
  | none =>
    have hmain : ipequal env.topology.cnf env.topology.cnf.mainAddr (List.replicate env.topology.cnf.ipsize 0) = true :=
      Bool.not_eq_false _ ▸ h.main hp
    refine .inr ⟨rfl, ?_⟩
    simp [Topology.olsrChangeMyselfTc, hp, Topology.addMyself, Topology.olsrAddTcEntry, hmain]

theorem neighborLoop_cases (h : NodeWf env n) (hloop : neighborLoop env n = some n') :
    (∃ p, n.own.tcMyself = some p ∧ Run.forEach (spfNeighbor env) (Neighbor.allNbrEntries n.nbh) n = some n') ∨
      (n.own.tcMyself = none ∧ n' = { n with own := { n.own with changesTopology := true } }) := by
  obtain ⟨own, hown, hloop⟩ := Option.bind_eq_some_iff.1 hloop
  rcases changeMyself_of_nodeWf h with ⟨p, hp, heq⟩ | ⟨hp, heq⟩
  · obtain rfl := Option.some.inj (heq.symm.trans hown)
    rw [hp] at hloop
    exact .inl ⟨p, hp, hloop⟩
  · obtain rfl := Option.some.inj (heq.symm.trans hown)
    simp only [hp] at hloop
    rw [← hp] at hloop
    exact .inr ⟨hp, (Option.some.inj hloop).symm⟩

theorem neighborLoop_frame (h : NodeWf env n) (hloop : neighborLoop env n = some n') :
    NodeWf env n' ∧ n'.nbh = n.nbh := by
  rcases neighborLoop_cases h hloop with ⟨p, hp, hloop⟩ | ⟨hp, rfl⟩
  · have hframe := Run.forEach_invariant (P := fun n₀ => NodeWf env n₀ ∧ n₀.own.tcMyself = some p ∧ n₀.nbh = n.nbh)
      (fun n₀ q n₁ _ h₀ hround => by
        obtain ⟨e, -, hdone⟩ := spfNeighbor_spec h₀.1 h₀.2.1 hround
        exact ⟨hdone.nodeWf h₀.1, hdone.tcMyself.trans h₀.2.1, hdone.nbh.trans h₀.2.2⟩) ⟨h, hp, rfl⟩ hloop
    exact ⟨hframe.1, hframe.2.2⟩
  · exact ⟨⟨h.lsdb, h.ordered, h.own, h.main⟩, rfl⟩

/-- The links lead to neighbour entries that are there. -/
def LinksLive (nbh : Nbh) : Prop := ∀ l ∈ nbh.links, ∃ e, nbh.nbr l.neighbor = some e

theorem edgeLink_total {nbh : Nbh} (hlive : LinksLive nbh) (e : NeighborEntry) : ∃ link, edgeLink env nbh e =
    some link := by
  have hlinks : Neighbor.LinksLive nbh nbh.links := fun l hl => Option.isSome_iff_exists.2 (hlive l hl)
  unfold edgeLink
  split
  · rw [Neighbor.getBestLinkToNeighbor, Neighbor.bestLinkLoop_eq _ hlinks]
    exact ⟨_, rfl⟩
  · exact ⟨none, rfl⟩

/-- A round has a result if the best link is found. -/
theorem spfNeighbor_of_link (h : NodeWf env n) (hp : n.own.tcMyself = some p) {q : Neighbor.Ptr} {e : NeighborEntry}
    (he : n.nbh.nbr q = some e) {link : Option LinkEntry} (hlink : edgeLink env n.nbh e = some link) :
    ∃ n', spfNeighbor env n q = some n' := by
  obtain ⟨t, ht, -⟩ := Topology.exists_tc_of_addrOf (h.own p hp)
  have hlookup : Topology.olsrLookupTcEdge n.own.lsdb p e.mainAddr = some (Keyed.find e.mainAddr t.edgeTree) := by
    simp [Topology.olsrLookupTcEdge, ht]
  simp only [spfNeighbor, he, hp, hlookup, hlink, Option.bind_eq_bind, Option.bind_some]
  cases hf : Keyed.find e.mainAddr t.edgeTree with
  | none =>
    cases link with
    | none => exact ⟨_, rfl⟩
    | some l =>
      obtain ⟨s₁, hs₁, -⟩ := Topology.olsrAddTcEdgeEntry_spec env.topology h.lsdb 0 ht hf
      exact ⟨_, by simp only [hs₁]; rfl⟩
  | some g =>
    obtain ⟨d, hd, -⟩ := (h.lsdb.edgeTree p t ht).find_iff.1 hf
    cases link with
    | none =>
      obtain ⟨s₁, hs₁, -⟩ := Topology.olsrDeleteTcEdgeEntry_spec h.lsdb hd
      exact ⟨_, by simp only [deleteEdgeIfAny, hs₁]; rfl⟩
    | some l => exact ⟨_, by simp only [updateEdge, hd]; rfl⟩

/-- It has a result if no link leads to a neighbour entry that has been freed. -/
theorem spfNeighbor_total (h : NodeWf env n) (hp : n.own.tcMyself = some p) (hlive : LinksLive n.nbh) {q : Neighbor.Ptr}
    {e : NeighborEntry} (he : n.nbh.nbr q = some e) : ∃ n', spfNeighbor env n q = some n' := by
  obtain ⟨link, hlink⟩ := @edgeLink_total _ _ env _ hlive e
  exact spfNeighbor_of_link h hp he hlink

/-- The loop has a result if no link leads to a neighbour entry that has been freed. -/
theorem neighborLoop_total (h : NodeWf env n) (hw : Neighbor.TableWf n.nbh) (hlive : LinksLive n.nbh) :
    ∃ n', neighborLoop env n = some n' := by
  rcases changeMyself_of_nodeWf h with ⟨p, hp, heq⟩ | ⟨hp, heq⟩
  · let P : List Neighbor.Ptr → Node Lq Hq → Prop := fun qs n₀ =>
      NodeWf env n₀ ∧ n₀.own.tcMyself = some p ∧ n₀.nbh = n.nbh ∧ ∀ q ∈ qs, ∃ e, n.nbh.nbr q = some e
    have hround : ∀ q qs n₀, P (q :: qs) n₀ → ∃ n₁, spfNeighbor env n₀ q = some n₁ ∧ P qs n₁ := by
      rintro q qs n₀ ⟨hn₀, hp₀, hnbh₀, hqs⟩
      obtain ⟨e, he⟩ := hqs q (List.mem_cons_self ..)
      obtain ⟨n₁, hn₁⟩ := spfNeighbor_total hn₀ hp₀ (hnbh₀ ▸ hlive) (by rw [hnbh₀]; exact he)
      obtain ⟨e', -, hdone⟩ := spfNeighbor_spec hn₀ hp₀ hn₁
      exact ⟨n₁, hn₁, hdone.nodeWf hn₀, hdone.tcMyself.trans hp₀, hdone.nbh.trans hnbh₀,
        fun q' hq' => hqs q' (List.mem_cons_of_mem _ hq')⟩
    have hentries : ∀ q ∈ Neighbor.allNbrEntries n.nbh, ∃ e, n.nbh.nbr q = some e := by
      intro q hq
      obtain ⟨bucket, -, hq⟩ := List.mem_flatMap.1 hq
      obtain ⟨b, hb, -⟩ := (hw.queued q bucket).1 hq
      obtain ⟨e, he, -⟩ := Option.map_eq_some_iff.1 hb
      exact ⟨e, he⟩
    obtain ⟨n', hn', -⟩ := Run.forEach_total (s := n) hround ⟨h, hp, rfl, hentries⟩
    refine ⟨n', ?_⟩
    simp only [neighborLoop, heq, Option.bind_eq_bind, Option.bind_some, hp]
    exact hn'
  · exact ⟨_, by simp only [neighborLoop, heq, Option.bind_eq_bind, Option.bind_some, hp]; rfl⟩

/-! ## Events -/

/-- The node has the neighbours it had, and `tc_myself` the edges it had. -/
structure OwnFrame (env : Env Lq Hq) (n n' : Node Lq Hq) : Prop where
  nodeWf : NodeWf env n'
  nbh : n'.nbh = n.nbh
  tcMyself : n'.own.tcMyself = n.own.tcMyself
  edges : ∀ p, n.own.tcMyself = some p → edgeAt n'.own.lsdb p = edgeAt n.own.lsdb p

theorem ownFrame_setLsdb (h : NodeWf env n) (hw : Topology.Wf s) (ho : Topology.Ordered env.topology s)
    (hframe : ∀ p, n.own.tcMyself = some p → Topology.addrOf s p = Topology.addrOf n.own.lsdb p ∧
      edgeAt s p = edgeAt n.own.lsdb p) : OwnFrame env n (n.setLsdb s) := by
  refine ⟨⟨hw, ho, fun p hp => ?_, h.main⟩, rfl, rfl, fun p hp => (hframe p hp).2⟩
  exact (hframe p hp).1.trans (h.own p hp)

/-- Changes of link qualities, TC messages and timeouts of entries. -/
def Event.Foreign : Event Hq → Prop
  | .nbh _ | .spf => False
  | _ => True

/-- They do not touch the own edges. -/
theorem OwnFrame.step (h : NodeWf env n) {ev : Event Hq} (hen : ev.Enabled env n) (hforeign : ev.Foreign)
    (hstep : step env n ev = some n') : OwnFrame env n n' := by
  cases ev with
  | nbh ev => cases hforeign
  | spf => cases hforeign
  | linkquality id quality =>
    obtain rfl := Option.some.inj hstep
    exact ⟨⟨h.lsdb, h.ordered, h.own, h.main⟩, rfl, rfl, fun _ _ => rfl⟩
  | inputTc symLink msg =>
    obtain ⟨r, hr, rfl⟩ := Option.map_eq_some_iff.1 hstep
    have hframe := Topology.olsrInputTc_frame h.lsdb h.ordered hr
    refine ownFrame_setLsdb h hframe.wf hframe.ordered fun p hp => ?_
    have hpa := h.own p hp
    exact ⟨((hframe.addrOf p _ (Ne.symm hen)).2 hpa).trans hpa.symm, hframe.edges p _ (Ne.symm hen) hpa⟩
  | expireTc tc =>
    obtain ⟨s₁, hs₁, rfl⟩ := Option.map_eq_some_iff.1 hstep
    obtain ⟨t, ht, -⟩ := Option.bind_eq_some_iff.1 hs₁
    obtain ⟨s₂, hs₂, hw, haddr, hord⟩ := Topology.olsrDeleteTcEntry_spec env.topology h.lsdb ht
    obtain rfl : s₁ = s₂ := Option.some.inj (hs₁.symm.trans hs₂)
    refine ownFrame_setLsdb h hw (hord h.ordered) fun p hp => ?_
    have hne : p ≠ tc := fun hpt => hen (hpt ▸ hp)
    exact ⟨by rw [haddr, if_neg hne], (Topology.othersKept_deleteEntry env.topology h.lsdb hs₁).edgeAt h.lsdb hw hne⟩
  | expireEdgeGc tc =>
    obtain ⟨s₁, hs₁, rfl⟩ := Option.map_eq_some_iff.1 hstep
    obtain ⟨t, ht, -⟩ := Option.bind_eq_some_iff.1 hs₁
    have hdel := Topology.edgesDeleted_outdated env.topology h.lsdb ht hs₁
    refine ownFrame_setLsdb h hdel.wf (hdel.ordered h.ordered) fun p hp => ?_
    have hne : p ≠ tc := fun hpt => hen (hpt ▸ hp)
    exact ⟨hdel.addrOf p, hdel.others.edgeAt h.lsdb hdel.wf hne⟩

/-- What an event of the neighbourhood does: `olsr_delete_link_entry` deletes the edge to the address of the link,
other events do not touch edges. -/
structure NbhDone (env : Env Lq Hq) (ev : Neighbor.Event) (n n' : Node Lq Hq) : Prop where
  nodeWf : NodeWf env n'
  nbh : Neighbor.step env.neighbor n.nbh ev = some n'.nbh
  linkquality : n'.linkquality = n.linkquality
  tcMyself : n'.own.tcMyself = n.own.tcMyself
  deleted : ∀ p l, n.own.tcMyself = some p → ev = .deleteLink l →
    edgeAt n'.own.lsdb p = Function.update (edgeAt n.own.lsdb p) l.neighborIfaceAddr none
  same : (∀ l, ev ≠ .deleteLink l) → n'.own.lsdb = n.own.lsdb

theorem nbhStep_spec (h : NodeWf env n) {ev : Neighbor.Event} (hstep : step env n (.nbh ev) = some n') :
    NbhDone env ev n n' := by
  obtain ⟨s₁, hs₁, hstep⟩ := Option.bind_eq_some_iff.1 hstep
  obtain ⟨nbh, hnbh, hstep⟩ := Option.bind_eq_some_iff.1 hstep
  obtain rfl := Option.some.inj hstep
  by_cases hdel : ∃ l, ev = .deleteLink l
  · obtain ⟨l, rfl⟩ := hdel
    obtain ⟨p, hp, hs₁⟩ := Option.bind_eq_some_iff.1 hs₁
    obtain ⟨tcEdge, hedge, hs₁⟩ := Option.bind_eq_some_iff.1 hs₁
    obtain ⟨t, ht, -⟩ := Topology.exists_tc_of_addrOf (h.own p hp)
    have hfind : Keyed.find l.neighborIfaceAddr t.edgeTree = tcEdge := by
      simpa [Topology.olsrLookupTcEdge, ht] using hedge
    rw [← hfind] at hs₁
    have hset : OwnEdgeSet env p l.neighborIfaceAddr none n.own.lsdb s₁ := deleteEdgeIfAny_spec h.lsdb ht hs₁
    refine ⟨⟨hset.wf, hset.ordered h.ordered, fun q hq => ?_, h.main⟩, hnbh, rfl, rfl, ?_,
      fun hno => absurd rfl (hno l)⟩
    · exact (hset.addrOf q).trans (h.own q hq)
    · rintro p' l' hp' hl'
      obtain rfl : p = p' := Option.some.inj (hp.symm.trans hp')
      obtain rfl : l = l' := Neighbor.Event.deleteLink.inj hl'
      exact hset.edges
  · have heq : n.own.lsdb = s₁ := by
      cases ev with
      | deleteLink l => exact absurd ⟨l, rfl⟩ hdel
      | _ => exact Option.some.inj hs₁
    subst heq
    exact ⟨⟨h.lsdb, h.ordered, h.own, h.main⟩, hnbh, rfl, rfl, fun p l _ hl => absurd ⟨l, hl⟩ hdel, fun _ => rfl⟩

theorem NodeWf.step (h : NodeWf env n) {ev : Event Hq} (hen : ev.Enabled env n) (hstep : Spf.step env n ev = some n') :
    NodeWf env n' := by
  cases ev with
  | nbh ev => exact (nbhStep_spec h hstep).nodeWf
  | spf => exact (neighborLoop_frame h hstep).1
  | linkquality id quality => exact (OwnFrame.step h hen trivial hstep).nodeWf
  | inputTc symLink msg => exact (OwnFrame.step h hen trivial hstep).nodeWf
  | expireTc tc => exact (OwnFrame.step h hen trivial hstep).nodeWf
  | expireEdgeGc tc => exact (OwnFrame.step h hen trivial hstep).nodeWf

/-- What `olsr_init_tc` leaves: no edge, and an entry for the main address if there is one. -/
theorem start_spec (h : Start env n) : NodeWf env n ∧ ∀ e, n.own.lsdb.edge e = none := by
  obtain ⟨-, own, hown, heq⟩ := h
  have hlsdb : n.own.lsdb = own.lsdb := by rw [heq]
  have htc : n.own.tcMyself = own.tcMyself := by rw [heq]
  obtain ⟨⟨s₁, o⟩, hs₁, hown⟩ := Option.bind_eq_some_iff.1 hown
  obtain rfl := Option.some.inj hown
  obtain ⟨s₂, o₂, hs₂, hw, hz, hadd⟩ := Topology.olsrAddTcEntry_spec env.topology (Topology.wf_empty Lq)
    (a := env.topology.cnf.mainAddr) rfl
  obtain ⟨rfl, rfl⟩ := Prod.mk.inj (Option.some.inj (hs₁.symm.trans hs₂))
  have hedge : s₁.edge = fun _ => none := Topology.edge_addEntry hs₁
  have hno : ∀ e, s₁.edge e = none := fun e => by rw [hedge]
  refine ⟨⟨hlsdb ▸ hw, ?_, fun p hp => ?_, fun hnone => ?_⟩, fun e => by rw [hlsdb]; exact hno e⟩
  · rw [hlsdb]
    intro q t hq
    have htree : t.edgeTree = [] := by
      cases hl : t.edgeTree with
      | nil => rfl
      | cons x l =>
        obtain ⟨d, hd, -⟩ := ((hw.edgeTree q t hq).mem x.1 x.2).1 (by rw [hl]; exact List.mem_cons_self ..)
        rw [hno] at hd; cases hd
    rw [htree]; exact List.Pairwise.nil
  · rw [hlsdb, (hadd p (htc.symm.trans hp)).addrOf, if_pos rfl]; rfl
  · intro hmain
    have hzero := hz (htc.symm.trans hnone)
    have hmain' : ipequal env.topology.cnf env.topology.cnf.mainAddr (List.replicate env.topology.cnf.ipsize 0) =
      false := hmain
    rw [hzero] at hmain'; cases hmain'

theorem reachable_nodeWf {ok : Node Lq Hq → Event Hq → Prop} (h : Reachable env ok n) : NodeWf env n :=
  Run.Reaches.invariant (fun _ hs => (start_spec hs).1) (fun _ _ _ hn hok hstep => hn.step hok.1 hstep) h

end Olsrd.Spf
