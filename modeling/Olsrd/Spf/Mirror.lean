/-
The own edges as a mirror of the neighbourhood. The neighbour loop visits the neighbours that are there, so
that an edge to a node that is no neighbour any more has to be gone before; and it gives an edge the quality
of the link only if it has created the edge in an earlier run.
-/
import Olsrd.Spf.EdgeCosts
import Olsrd.Neighbor.Status

namespace Olsrd.Spf

open Olsrd.Topology (Lsdb TcEdgeEntry edgeAt)
open Olsrd.Neighbor (Nbh NeighborEntry LinkEntry keyOf)

variable {Lq Hq : Type} {env : Env Lq Hq} {n n' : Node Lq Hq}

/-! ## The mirror -/

/-- `l` is the best link to the symmetric neighbour with the main address `b`, and not lost. -/
def Usable (env : Env Lq Hq) (nbh : Nbh) (b : IpAddr) (l : LinkEntry) : Prop :=
  ∃ q e, nbh.nbr q = some e ∧ e.mainAddr = b ∧ e.sym = true ∧
    Neighbor.getBestLinkToNeighbor env.neighbor nbh b = some (some l) ∧ Neighbor.lookupLinkStatus nbh l ≠ .lost

/-- The edges of `tc_myself` are those to the neighbours with a usable link, with the quality and the cost of this
link. -/
structure Mirrors (env : Env Lq Hq) (n : Node Lq Hq) (p : Topology.Ptr) : Prop where
  edges : ∀ b, (∃ d, edgeAt n.own.lsdb p b = some d) ↔ ∃ l, Usable env n.nbh b l
  quality : ∀ b d l, edgeAt n.own.lsdb p b = some d → Usable env n.nbh b l →
    d.linkquality = env.copyLinkLqIntoTc (n.linkquality l.id) ∧
      d.cost = env.lq.calcTcCost (env.copyLinkLqIntoTc (n.linkquality l.id))

theorem edgeLink_eq_some {nbh : Nbh} {e : NeighborEntry} {l : LinkEntry} : edgeLink env nbh e = some (some l) ↔
    e.sym = true ∧ Neighbor.getBestLinkToNeighbor env.neighbor nbh e.mainAddr = some (some l) ∧
      Neighbor.lookupLinkStatus nbh l ≠ .lost := by
  unfold edgeLink
  by_cases hsym : e.sym = true
  · rw [if_pos hsym]
    constructor
    · intro h
      obtain ⟨link, hlink, h⟩ := Option.bind_eq_some_iff.1 h
      obtain ⟨rfl, hlost⟩ := Option.filter_eq_some_iff.1 (Option.some.inj h)
      exact ⟨hsym, hlink, by simpa using hlost⟩
    · rintro ⟨-, hlink, hlost⟩
      simp [hlink, Option.filter, hlost]
  · rw [if_neg hsym]
    simp [hsym]

theorem usable_iff {b : IpAddr} {l : LinkEntry} : Usable env n.nbh b l ↔
    ∃ q e, n.nbh.nbr q = some e ∧ e.mainAddr = b ∧ edgeLink env n.nbh e = some (some l) := by
  refine exists_congr fun q => exists_congr fun e => and_congr_right fun _ => and_congr_right fun hb => ?_
  rw [edgeLink_eq_some, hb]

/-! ## The loop -/

/-- A link whose edge the loop has yet to create has the quality of a new edge. -/
def NewEdgesZero (env : Env Lq Hq) (n : Node Lq Hq) : Prop :=
  ∀ p b l, n.own.tcMyself = some p → Usable env n.nbh b l → edgeAt n.own.lsdb p b = none →
    env.copyLinkLqIntoTc (n.linkquality l.id) = env.lq.zeroLq

/-- Every own edge leads to a node of the neighbour table. -/
def EdgesToNeighbors (n : Node Lq Hq) : Prop :=
  ∀ p b d, n.own.tcMyself = some p → edgeAt n.own.lsdb p b = some d → ∃ q, keyOf n.nbh q = some b

theorem mem_allNbrEntries {nbh : Nbh} (hw : Neighbor.TableWf nbh) {q : Neighbor.Ptr} :
    q ∈ Neighbor.allNbrEntries nbh ↔ ∃ b, keyOf nbh q = some b := by
  unfold Neighbor.allNbrEntries
  rw [List.mem_flatMap]
  constructor
  · rintro ⟨bucket, -, hq⟩
    obtain ⟨b, hb, -⟩ := (hw.queued q bucket).1 hq
    exact ⟨b, hb⟩
  · rintro ⟨b, hb⟩
    exact ⟨_, List.mem_range.2 (Neighbor.olsrIpHashing_lt b), (hw.queued q _).2 ⟨b, hb, rfl⟩⟩

theorem nodup_allNbrEntries {nbh : Nbh} (hw : Neighbor.TableWf nbh) : (Neighbor.allNbrEntries nbh).Nodup := by
  refine List.nodup_flatMap.2 ⟨fun bucket _ => hw.nodup bucket, ?_⟩
  refine List.Pairwise.imp_of_mem ?_ List.nodup_range
  intro i j _ _ hne
  rw [Function.onFun, List.disjoint_left]
  intro q hi hj
  obtain ⟨a, ha, rfl⟩ := (hw.queued q i).1 hi
  obtain ⟨b, hb, rfl⟩ := (hw.queued q j).1 hj
  rw [ha] at hb
  exact hne (by rw [Option.some.inj hb])

theorem ownEdge_quality (hlq : 1 ≤ env.cnf.lqLevel) {p : Topology.Ptr} {b : IpAddr} {quality : Hq}
    {o : Option (TcEdgeEntry Lq)} {d : TcEdgeEntry Lq} (h : ownEdge env p b (some quality) o = some d)
    (hnew : o = none → env.copyLinkLqIntoTc quality = env.lq.zeroLq) :
    d.linkquality = env.copyLinkLqIntoTc quality ∧ d.cost = env.lq.calcTcCost (env.copyLinkLqIntoTc quality) := by
  have hcost := costRight_ownEdge hlq p b h
  suffices hq : d.linkquality = env.copyLinkLqIntoTc quality from ⟨hq, hq ▸ hcost⟩
  cases o with
  | none =>
    obtain rfl := Option.some.inj h
    exact (@newEdge_of_lq _ env.topology hlq p b 0).2.trans (hnew rfl).symm
  | some d₀ =>
    obtain rfl := Option.some.inj h
    unfold Topology.olsrCalcTcEdgeEntryEtx
    split <;> rfl

/-- The loop makes the edges a mirror of the neighbourhood if there are no edges to other nodes, and no edge to create
for a link that has a quality already. -/
theorem mirrors_neighborLoop (hlq : 1 ≤ env.cnf.lqLevel) (h : NodeWf env n) (hkeyed : Neighbor.Keyed n.nbh)
    (hedges : EdgesToNeighbors n) (hzero : NewEdgesZero env n) (hloop : neighborLoop env n = some n') {p : Topology.Ptr}
    (hp : n'.own.tcMyself = some p) : Mirrors env n' p := by
  rcases neighborLoop_cases h hloop with ⟨p', hp', hloop⟩ | ⟨hnone, rfl⟩
  swap
  · rw [show n.own.tcMyself = some p from hp] at hnone; cases hnone
  have hdone := loop_spec hkeyed.unique rfl h hp' (nodup_allNbrEntries hkeyed.toTableWf) hloop
  obtain rfl : p' = p := Option.some.inj ((hp'.symm.trans hdone.tcMyself.symm).trans hp)
  -- the edge to a neighbour is what its round has left
  have hset : ∀ q e, n.nbh.nbr q = some e → ∃ link, edgeLink env n.nbh e = some link ∧
      edgeAt n'.own.lsdb p' e.mainAddr = ownEdge env p' e.mainAddr (link.map fun l => n.linkquality l.id)
        (edgeAt n.own.lsdb p' e.mainAddr) := by
    intro q e he
    obtain ⟨e', link, he', hlink, hedge⟩ :=
      hdone.set q ((mem_allNbrEntries hkeyed.toTableWf).2 ⟨_, Neighbor.keyOf_eq he⟩)
    obtain rfl : e = e' := Option.some.inj (he.symm.trans he')
    exact ⟨link, hlink, hedge⟩
  refine ⟨fun b => ⟨?_, ?_⟩, ?_⟩
  · rintro ⟨d, hd⟩
    by_cases hb : ∃ q, keyOf n.nbh q = some b
    · obtain ⟨q, hq⟩ := hb
      obtain ⟨e, he, rfl⟩ := Option.map_eq_some_iff.1 hq
      obtain ⟨link, hlink, hedge⟩ := hset q e he
      cases link with
      | none => rw [hedge] at hd; cases hd
      | some l => exact ⟨l, usable_iff.2 ⟨q, e, by rw [hdone.nbh]; exact he, rfl, by rw [hdone.nbh]; exact hlink⟩⟩
    · rw [hdone.rest b fun q _ hq => hb ⟨q, hq⟩] at hd
      exact absurd (hedges p' b d hp' hd) hb
  · rintro ⟨l, husable⟩
    obtain ⟨q, e, he, rfl, hlink⟩ := usable_iff.1 husable
    rw [hdone.nbh] at he hlink
    obtain ⟨link, hlink', hedge⟩ := hset q e he
    obtain rfl : some l = link := Option.some.inj (hlink.symm.trans hlink')
    rw [hedge]
    cases edgeAt n.own.lsdb p' e.mainAddr with
    | none => exact ⟨_, rfl⟩
    | some d => exact ⟨_, rfl⟩
  · intro b d l hd husable
    rw [hdone.nbh] at husable
    obtain ⟨q, e, he, rfl, hlink⟩ := usable_iff.1 husable
    obtain ⟨link, hlink', hedge⟩ := hset q e he
    obtain rfl : some l = link := Option.some.inj (hlink.symm.trans hlink')
    rw [hdone.linkquality]
    exact ownEdge_quality hlq (hedge.symm.trans hd) fun hnone => hzero p' _ l hp' husable hnone

/-! ## Runs -/

/-- The event takes no main address from the neighbour table to which there is an own edge, unless it deletes the
edge; no entry is moved to the main address of another; an SPF run creates edges only for links with the quality of
a new edge. -/
def MirrorKept (env : Env Lq Hq) (n : Node Lq Hq) : Event Hq → Prop
  | .nbh ev => Neighbor.MovesFree n.nbh ev ∧ ∀ nbh', Neighbor.step env.neighbor n.nbh ev = some nbh' →
      ∀ p b d, n.own.tcMyself = some p → edgeAt n.own.lsdb p b = some d → (∀ q, keyOf nbh' q ≠ some b) →
        ∃ l, ev = .deleteLink l ∧ l.neighborIfaceAddr = b
  | .spf => NewEdgesZero env n
  | _ => True

/-- What a run keeps for the mirror. -/
structure MirrorInv (env : Env Lq Hq) (n : Node Lq Hq) : Prop where
  nodeWf : NodeWf env n
  keyed : Neighbor.Keyed n.nbh
  edges : EdgesToNeighbors n

theorem MirrorInv.nbhStep (h : MirrorInv env n) {ev : Neighbor.Event} (hok : MirrorKept env n (.nbh ev))
    (hstep : step env n (.nbh ev) = some n') : MirrorInv env n' := by
  have hdone := nbhStep_spec h.nodeWf hstep
  refine ⟨hdone.nodeWf, (h.keyed.step_iff hdone.nbh).2 hok.1, fun p b d hp hd => ?_⟩
  rw [hdone.tcMyself] at hp
  by_contra hgone
  have hgone' : ∀ q, keyOf n'.nbh q ≠ some b := fun q hq => hgone ⟨q, hq⟩
  by_cases hdel : ∃ l, ev = .deleteLink l
  · obtain ⟨l, rfl⟩ := hdel
    rw [hdone.deleted p l hp rfl] at hd
    by_cases hb : b = l.neighborIfaceAddr
    · rw [hb, Function.update_self] at hd; cases hd
    · rw [Function.update_of_ne hb] at hd
      obtain ⟨l', hl', hb'⟩ := hok.2 _ hdone.nbh p b d hp hd hgone'
      obtain rfl := Neighbor.Event.deleteLink.inj hl'
      exact hb hb'.symm
  · rw [hdone.same fun l hl => hdel ⟨l, hl⟩] at hd
    obtain ⟨l, hl, -⟩ := hok.2 _ hdone.nbh p b d hp hd hgone'
    exact hdel ⟨l, hl⟩

/-- The loop leaves edges to neighbours only. -/
theorem EdgesToNeighbors.neighborLoop (h : EdgesToNeighbors n) (hn : NodeWf env n) (hkeyed : Neighbor.Keyed n.nbh)
    (hloop : Spf.neighborLoop env n = some n') : EdgesToNeighbors n' := by
  rcases neighborLoop_cases hn hloop with ⟨p', hp', hloop⟩ | ⟨-, rfl⟩
  · have hdone := loop_spec hkeyed.unique rfl hn hp' (nodup_allNbrEntries hkeyed.toTableWf) hloop
    intro p b d hp hd
    obtain rfl : p' = p := Option.some.inj ((hp'.symm.trans hdone.tcMyself.symm).trans hp)
    rw [hdone.nbh]
    by_contra hgone
    rw [hdone.rest b fun q _ hq => hgone ⟨q, hq⟩] at hd
    exact hgone (h p' b d hp' hd)
  · exact h

theorem OwnFrame.mirrorInv (h : OwnFrame env n n') (hinv : MirrorInv env n) : MirrorInv env n' := by
  refine ⟨h.nodeWf, h.nbh ▸ hinv.keyed, fun p b d hp hd => ?_⟩
  rw [h.tcMyself] at hp
  rw [h.edges p hp] at hd
  rw [h.nbh]
  exact hinv.edges p b d hp hd

theorem MirrorInv.step (h : MirrorInv env n) {ev : Event Hq} (hen : ev.Enabled env n) (hok : MirrorKept env n ev)
    (hstep : Spf.step env n ev = some n') : MirrorInv env n' := by
  cases ev with
  | nbh ev => exact h.nbhStep hok hstep
  | spf =>
    obtain ⟨hn, hnbh⟩ := neighborLoop_frame h.nodeWf hstep
    exact ⟨hn, hnbh ▸ h.keyed, h.edges.neighborLoop h.nodeWf h.keyed hstep⟩
  | linkquality id quality => exact (OwnFrame.step h.nodeWf hen trivial hstep).mirrorInv h
  | inputTc symLink msg => exact (OwnFrame.step h.nodeWf hen trivial hstep).mirrorInv h
  | expireTc tc => exact (OwnFrame.step h.nodeWf hen trivial hstep).mirrorInv h
  | expireEdgeGc tc => exact (OwnFrame.step h.nodeWf hen trivial hstep).mirrorInv h

theorem mirrorInv_start (h : Start env n) : MirrorInv env n := by
  obtain ⟨hn, hno⟩ := start_spec h
  refine ⟨hn, h.1 ▸ Neighbor.keyed_emptyNbh, fun p b d _ hd => ?_⟩
  obtain ⟨-, -, e, he⟩ := (Topology.edgeAt_eq_some_iff hn.lsdb).1 hd
  rw [hno] at he; cases he

theorem reachable_tableWf {ok : Node Lq Hq → Event Hq → Prop} (h : Reachable env ok n) : Neighbor.TableWf n.nbh := by
  refine (Run.Reaches.invariant (P := fun n => NodeWf env n ∧ Neighbor.TableWf n.nbh) (fun n₀ hs => ?_) ?_ h).2
  · exact ⟨(start_spec hs).1, hs.1 ▸ Neighbor.keyed_emptyNbh.toTableWf⟩
  · rintro n₀ ev n₁ ⟨hn₀, hw⟩ ⟨hen, -⟩ hstep
    refine ⟨hn₀.step hen hstep, ?_⟩
    cases ev with
    | nbh ev => exact hw.step (nbhStep_spec hn₀ hstep).nbh
    | spf => rw [(neighborLoop_frame hn₀ hstep).2]; exact hw
    | linkquality id quality => rw [(OwnFrame.step hn₀ hen trivial hstep).nbh]; exact hw
    | inputTc symLink msg => rw [(OwnFrame.step hn₀ hen trivial hstep).nbh]; exact hw
    | expireTc tc => rw [(OwnFrame.step hn₀ hen trivial hstep).nbh]; exact hw
    | expireEdgeGc tc => rw [(OwnFrame.step hn₀ hen trivial hstep).nbh]; exact hw

/-- In a run whose events meet `MirrorKept`, the own edges mirror the neighbourhood after the neighbour loop of every
SPF run, and the loop has a result unless a link leads to a freed neighbour entry. -/
theorem reachable_mirrors (env : Env Lq Hq) (hlq : 1 ≤ env.cnf.lqLevel) (n : Node Lq Hq)
    (h : Reachable env (MirrorKept env) n) (hok : MirrorKept env n .spf) :
    (LinksLive n.nbh → ∃ n', neighborLoop env n = some n') ∧
      ∀ n' p, neighborLoop env n = some n' → n'.own.tcMyself = some p → Mirrors env n' p := by
  have hinv : MirrorInv env n := Run.Reaches.invariant (fun _ hs => mirrorInv_start hs)
    (fun _ _ _ hn hok hstep => hn.step hok.1 hok.2 hstep) h
  refine ⟨fun hlive => neighborLoop_total hinv.nodeWf hinv.keyed.toTableWf hlive, fun n' p hloop hp => ?_⟩
  exact mirrors_neighborLoop hlq hinv.nodeWf hinv.keyed hinv.edges hok hloop hp

/-! ## Two runs -/

/-- A node that has just been started. -/
def ffStart : Option (Node (UInt8 × UInt8) (UInt8 × UInt8)) :=
  (Topology.addMyself ffEnv.topology (Topology.emptyLsdb (UInt8 × UInt8))).map fun own =>
    ⟨Neighbor.emptyNbh, { own with changesTopology := false }, fun _ => (0, 0)⟩

theorem start_ffStart {n : Node (UInt8 × UInt8) (UInt8 × UInt8)} (h : ffStart = some n) : Start ffEnv n := by
  obtain ⟨own, hown, rfl⟩ := Option.map_eq_some_iff.1 h
  exact ⟨rfl, own, hown, rfl⟩

/-- A HELLO message of 10.0.0.2 that lists this node as symmetric. -/
def symHello (fromAddr : IpAddr) : Neighbor.Event :=
  .helloLink (Neighbor.helloFrom fromAddr [10, 0, 0, 2] [Neighbor.ownMention .sym])

/-- The message makes link 0, which gets a quality. -/
def newNeighbor (fromAddr : IpAddr) (quality : UInt8) : List (Event (UInt8 × UInt8)) :=
  [.nbh (symHello fromAddr), .nbh (.setLinkcost 0 1024), .linkquality 0 (quality, quality)]

theorem reachable_newNeighbor {fromAddr : IpAddr} {quality : UInt8} {n₀ n : Node (UInt8 × UInt8) (UInt8 × UInt8)}
    (h₀ : ffStart = some n₀) (h : Run.forEach (step ffEnv) (newNeighbor fromAddr quality) n₀ = some n) :
    Reachable ffEnv (fun _ _ => True) n := by
  refine Run.reaches_forEach (.init (start_ffStart h₀)) ?_ h
  exact ⟨⟨trivial, trivial⟩, fun _ _ => ⟨⟨trivial, trivial⟩, fun _ _ => ⟨⟨trivial, trivial⟩, fun _ _ => trivial⟩⟩⟩

/-- A new neighbour whose link has no quality yet. -/
theorem reachable_mirrors_newNeighbor : ∃ n' : Node (UInt8 × UInt8) (UInt8 × UInt8),
    (edgeAt n'.own.lsdb 0 [10, 0, 0, 2]).isSome = true ∧ Mirrors ffEnv n' 0 := by
  have hrun : (ffStart.any fun n₀ => (Run.forEach (step ffEnv) (newNeighbor [10, 0, 0, 2] 0) n₀).any fun n =>
      (neighborLoop ffEnv n).any fun n' =>
        (edgeAt n'.own.lsdb 0 [10, 0, 0, 2]).isSome && n'.own.tcMyself == some 0) = true := by decide +kernel
  obtain ⟨n₀, h₀, hrun⟩ := (Option.any_eq_true _ _).1 hrun
  obtain ⟨n, hn, hrun⟩ := (Option.any_eq_true _ _).1 hrun
  obtain ⟨n', hn', hrun⟩ := (Option.any_eq_true _ _).1 hrun
  rw [Bool.and_eq_true, beq_iff_eq] at hrun
  obtain ⟨hedge, hp⟩ := hrun
  obtain ⟨n₁, hn₁, hn⟩ := Run.forEach_cons.1 hn
  obtain ⟨n₂, hn₂, hn⟩ := Run.forEach_cons.1 hn
  obtain ⟨n₃, hn₃, hn⟩ := Run.forEach_cons.1 hn
  obtain rfl := Option.some.inj hn
  have hstart := start_ffStart h₀
  have hinv₀ := mirrorInv_start hstart
  -- there are no edges before the SPF run, and no qualities
  have hnone₀ : ∀ p b, edgeAt n₀.own.lsdb p b = none := by
    intro p b
    cases hd : edgeAt n₀.own.lsdb p b with
    | none => rfl
    | some d =>
      obtain ⟨-, -, e, he⟩ := (Topology.edgeAt_eq_some_iff hinv₀.nodeWf.lsdb).1 hd
      rw [(start_spec hstart).2] at he; cases he
  have hlsdb₁ : n₁.own.lsdb = n₀.own.lsdb := (nbhStep_spec hinv₀.nodeWf hn₁).same nofun
  have hfree : Neighbor.MovesFree n₀.nbh (symHello [10, 0, 0, 2]) := by
    rintro p e ⟨⟨l, hl, -⟩, -⟩
    rw [hstart.1] at hl; cases hl
  have hr₁ : Reachable ffEnv (MirrorKept ffEnv) n₁ := by
    refine .step (.nbh (symHello [10, 0, 0, 2])) (.init hstart) ⟨trivial, hfree, fun _ _ p b d _ hd => ?_⟩ hn₁
    rw [hnone₀] at hd; cases hd
  have hr₂ : Reachable ffEnv (MirrorKept ffEnv) n₂ := by
    refine .step (.nbh (.setLinkcost 0 1024)) hr₁ ⟨trivial, trivial, fun _ _ p b d _ hd => ?_⟩ hn₂
    rw [hlsdb₁, hnone₀] at hd; cases hd
  have hr₃ : Reachable ffEnv (MirrorKept ffEnv) n₃ :=
    .step (.linkquality 0 (0, 0)) hr₂ ⟨trivial, trivial⟩ hn₃
  have hquality : ∀ id, n₃.linkquality id = (0, 0) := by
    obtain ⟨own, -, rfl⟩ := Option.map_eq_some_iff.1 h₀
    have h₁ := (nbhStep_spec hinv₀.nodeWf hn₁).linkquality
    have h₂ := (nbhStep_spec (reachable_nodeWf hr₁) hn₂).linkquality
    obtain rfl := Option.some.inj hn₃
    intro id
    show Function.update n₂.linkquality 0 (0, 0) id = (0, 0)
    rw [h₂, h₁]
    by_cases hid : id = 0
    · rw [hid, Function.update_self]
    · rw [Function.update_of_ne hid]
  exact ⟨n', hedge, (reachable_mirrors ffEnv (by decide) n₃ hr₃ fun _ _ l _ _ _ => hquality l.id).2 n' 0 hn' hp⟩

/-- The first SPF run for a new neighbour with a perfect link makes an edge that is broken. And the edge to a neighbour
with the main address 10.0.0.2 and a link to 10.0.0.12 is there after the link and the neighbour have gone. -/
theorem unmirrored : (∃ n n' : Node (UInt8 × UInt8) (UInt8 × UInt8), Reachable ffEnv (fun _ _ => True) n ∧
      neighborLoop ffEnv n = some n' ∧ n'.own.tcMyself = some 0 ∧ ∃ d l, edgeAt n'.own.lsdb 0 [10, 0, 0, 2] = some d ∧
        Usable ffEnv n'.nbh [10, 0, 0, 2] l ∧ n'.linkquality l.id = (255, 255) ∧ d.linkquality = (0, 0) ∧
        d.cost = 4194304) ∧
    ∃ n n' : Node (UInt8 × UInt8) (UInt8 × UInt8), Reachable ffEnv (fun _ _ => True) n ∧
      neighborLoop ffEnv n = some n' ∧ n'.own.tcMyself = some 0 ∧
        (∃ d, edgeAt n'.own.lsdb 0 [10, 0, 0, 2] = some d) ∧ ∀ q, keyOf n'.nbh q ≠ some [10, 0, 0, 2] := by
  constructor
  · have hrun : (ffStart.any fun n₀ => (Run.forEach (step ffEnv) (newNeighbor [10, 0, 0, 2] 255) n₀).any fun n =>
        (neighborLoop ffEnv n).any fun n' => n'.own.tcMyself == some 0 &&
          ((edgeAt n'.own.lsdb 0 [10, 0, 0, 2]).any fun d => d.linkquality == (0, 0) && d.cost == 4194304) &&
          (n'.nbh.nbr 1).any fun e => e.mainAddr == [10, 0, 0, 2] && (edgeLink ffEnv n'.nbh e).any fun link =>
            link.any fun l => n'.linkquality l.id == (255, 255)) = true := by decide +kernel
    obtain ⟨n₀, h₀, hrun⟩ := (Option.any_eq_true _ _).1 hrun
    obtain ⟨n, hn, hrun⟩ := (Option.any_eq_true _ _).1 hrun
    obtain ⟨n', hn', hrun⟩ := (Option.any_eq_true _ _).1 hrun
    rw [Bool.and_eq_true, Bool.and_eq_true, beq_iff_eq] at hrun
    obtain ⟨⟨hp, hedge⟩, hlink⟩ := hrun
    obtain ⟨d, hd, hedge⟩ := (Option.any_eq_true _ _).1 hedge
    obtain ⟨e, he, hlink⟩ := (Option.any_eq_true _ _).1 hlink
    rw [Bool.and_eq_true, beq_iff_eq] at hlink
    obtain ⟨o, ho, hl⟩ := (Option.any_eq_true _ _).1 hlink.2
    obtain ⟨l, rfl, hl⟩ := (Option.any_eq_true _ _).1 hl
    rw [Bool.and_eq_true, beq_iff_eq, beq_iff_eq] at hedge
    exact ⟨n, n', reachable_newNeighbor h₀ hn, hn', hp, d, l, hd, usable_iff.2 ⟨1, e, he, hlink.1, ho⟩, beq_iff_eq.1 hl,
      hedge⟩
  · have hrun : (ffStart.any fun n₀ => (Run.forEach (step ffEnv) (newNeighbor [10, 0, 0, 12] 255) n₀).any fun n₁ =>
        (step ffEnv n₁ .spf).any fun n₂ => match n₂.nbh.links with
          | [l] => (step ffEnv n₂ (.nbh (.deleteLink l))).any fun n => (neighborLoop ffEnv n).any fun n' =>
            n'.own.tcMyself == some 0 && (edgeAt n'.own.lsdb 0 [10, 0, 0, 2]).isSome &&
            Neighbor.olsrLookupNeighborTableAlias n'.nbh [10, 0, 0, 2] == none
          | _ => false) = true := by decide +kernel
    obtain ⟨n₀, h₀, hrun⟩ := (Option.any_eq_true _ _).1 hrun
    obtain ⟨n₁, hn₁, hrun⟩ := (Option.any_eq_true _ _).1 hrun
    obtain ⟨n₂, hn₂, hrun⟩ := (Option.any_eq_true _ _).1 hrun
    split at hrun
    · rename_i l hl
      obtain ⟨n, hn, hrun⟩ := (Option.any_eq_true _ _).1 hrun
      obtain ⟨n', hn', hrun⟩ := (Option.any_eq_true _ _).1 hrun
      rw [Bool.and_eq_true, Bool.and_eq_true, beq_iff_eq, beq_iff_eq] at hrun
      have hr₂ : Reachable ffEnv (fun _ _ => True) n₂ :=
        .step .spf (reachable_newNeighbor h₀ hn₁) ⟨trivial, trivial⟩ hn₂
      have hmem : l ∈ n₂.nbh.links := by rw [hl]; exact List.mem_singleton.2 rfl
      have hr : Reachable ffEnv (fun _ _ => True) n := .step (.nbh (.deleteLink l)) hr₂ ⟨hmem, trivial⟩ hn
      have hr' : Reachable ffEnv (fun _ _ => True) n' := .step .spf hr ⟨trivial, trivial⟩ hn'
      refine ⟨n, n', hr, hn', hrun.1.1, Option.isSome_iff_exists.1 hrun.1.2, ?_⟩
      exact (reachable_tableWf hr').lookup_eq_none.1 hrun.2
    · cases hrun

end Olsrd.Spf
