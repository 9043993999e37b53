/-
Adding an edge to the link state database and connecting it with its inverse, and removing an edge
and disconnecting its inverse.
-/
import Olsrd.Topology.Wf

namespace Olsrd.Topology

open Keyed

variable {Lq : Type} {env : Env Lq} {s s' : Lsdb Lq}

/-! ## Fields that do not matter -/

/-- The fields of an entry the invariant is about. -/
def TcEntry.shape (t : TcEntry) : IpAddr × List (IpAddr × Ptr) × List (IpPrefix × Ptr) × Nat :=
  (t.addr, t.edgeTree, t.prefixTree, t.refcount)

/-- The two ends of an edge. -/
def TcEdgeEntry.ends (d : TcEdgeEntry Lq) : Ptr × IpAddr := (d.tc, d.destAddr)

/-- An edge without its inverse pointer. -/
def TcEdgeEntry.core (d : TcEdgeEntry Lq) : TcEdgeEntry Lq := { d with edgeInv := none }

theorem map_ends_of_core {o o' : Option (TcEdgeEntry Lq)} (h : o'.map TcEdgeEntry.core = o.map TcEdgeEntry.core) :
    o'.map TcEdgeEntry.ends = o.map TcEdgeEntry.ends := by
  have hends : ∀ x : Option (TcEdgeEntry Lq), x.map TcEdgeEntry.ends = (x.map TcEdgeEntry.core).map TcEdgeEntry.ends :=
    fun x => by cases x <;> rfl
  rw [hends o, hends o', h]

/-- The databases differ at most in inverse pointers and in fields the invariant is not about. -/
structure SameEnds (s s' : Lsdb Lq) : Prop where
  tc : ∀ p, (s'.tc p).map TcEntry.shape = (s.tc p).map TcEntry.shape
  edge : ∀ e, (s'.edge e).map TcEdgeEntry.ends = (s.edge e).map TcEdgeEntry.ends
  rtPath : s'.rtPath = s.rtPath
  tcTree : s'.tcTree = s.tcTree
  fresh : s'.fresh = s.fresh

theorem SameEnds.symm (h : SameEnds s s') : SameEnds s' s :=
  ⟨fun p => (h.tc p).symm, fun e => (h.edge e).symm, h.rtPath.symm, h.tcTree.symm, h.fresh.symm⟩

theorem SameEnds.exists_tc (h : SameEnds s s') {p : Ptr} {t : TcEntry} (ht : s.tc p = some t) :
    ∃ t', s'.tc p = some t' ∧ t'.shape = t.shape := by
  have := h.tc p
  rw [ht, Option.map_some, Option.map_eq_some_iff] at this
  exact this

theorem SameEnds.exists_edge (h : SameEnds s s') {e : Ptr} {d : TcEdgeEntry Lq} (hd : s.edge e = some d) :
    ∃ d', s'.edge e = some d' ∧ d'.tc = d.tc ∧ d'.destAddr = d.destAddr := by
  have := h.edge e
  rw [hd, Option.map_some, Option.map_eq_some_iff] at this
  obtain ⟨d', hd', heq⟩ := this
  exact ⟨d', hd', congrArg Prod.fst heq, congrArg Prod.snd heq⟩

theorem SameEnds.addrOf (h : SameEnds s s') (p : Ptr) : addrOf s' p = addrOf s p := by
  have := congrArg (Option.map Prod.fst) (h.tc p)
  simpa [Topology.addrOf, Option.map_map, Function.comp_def, TcEntry.shape] using this

theorem SameEnds.edgeOf (h : SameEnds s s') {p : Ptr} {b : IpAddr} {e : Ptr} (he : EdgeOf s p b e) :
    EdgeOf s' p b e := by
  obtain ⟨d, hd, rfl, rfl⟩ := he
  obtain ⟨d', hd', htc, hdest⟩ := h.exists_edge hd
  exact ⟨d', hd', htc, hdest⟩

theorem SameEnds.inverse (h : SameEnds s s') {d d' : TcEdgeEntry Lq} (htc : d'.tc = d.tc)
    (hdest : d'.destAddr = d.destAddr) {f : Ptr} (hf : Inverse s d f) : Inverse s' d' f := by
  obtain ⟨df, hdf, ha, hb⟩ := hf
  obtain ⟨df', hdf', htc', hdest'⟩ := h.exists_edge hdf
  exact ⟨df', hdf', by rw [h.addrOf, htc, hdest', ha], by rw [h.addrOf, htc', hdest, hb]⟩

theorem SameEnds.inverse_iff (h : SameEnds s s') {d d' : TcEdgeEntry Lq} (htc : d'.tc = d.tc)
    (hdest : d'.destAddr = d.destAddr) {f : Ptr} : Inverse s' d' f ↔ Inverse s d f :=
  ⟨h.symm.inverse htc.symm hdest.symm, h.inverse htc hdest⟩

theorem SameEnds.skeleton (h : SameEnds s s') (hs : Skeleton s) : Skeleton s' := by
  refine ⟨?_, ?_, ?_, ?_, ?_, ?_, ?_⟩
  · rw [h.tcTree]; exact hs.tcTree.congr fun k i => by rw [h.addrOf]
  · intro p t ht
    obtain ⟨t', ht', heq⟩ := h.symm.exists_tc ht
    obtain ⟨-, hedge, -, -⟩ : t'.addr = t.addr ∧ t'.edgeTree = t.edgeTree ∧ _ := by
      simpa [TcEntry.shape] using heq
    rw [← hedge]
    exact (hs.edgeTree p t' ht').congr fun k i => ⟨h.edgeOf, h.symm.edgeOf⟩
  · intro p t ht
    obtain ⟨t', ht', heq⟩ := h.symm.exists_tc ht
    obtain ⟨-, -, htree₁, -⟩ : t'.addr = t.addr ∧ t'.edgeTree = t.edgeTree ∧ _ := by
      simpa [TcEntry.shape] using heq
    rw [← htree₁]
    exact (hs.prefixTree p t' ht').congr fun k i => by unfold PrefixOf; rw [h.rtPath]
  · intro e d hd
    obtain ⟨d', hd', htc, -⟩ := h.symm.exists_edge hd
    obtain ⟨t, ht⟩ := hs.edgeTc e d' hd'
    obtain ⟨t', ht', -⟩ := h.exists_tc ht
    exact ⟨t', by rw [← htc]; exact ht'⟩
  · intro r y hy
    rw [h.rtPath] at hy
    obtain ⟨p, t, hp, ht⟩ := hs.rtPathTc r y hy
    obtain ⟨t', ht', -⟩ := h.exists_tc ht
    exact ⟨p, t', hp, ht'⟩
  · intro p t ht
    obtain ⟨t', ht', heq⟩ := h.symm.exists_tc ht
    have := hs.refcount p t' ht'
    simp only [TcEntry.shape, Prod.mk.injEq] at heq
    obtain ⟨-, h1, h2, h3⟩ := heq
    rw [← h1, ← h2, ← h3]; exact this
  · intro p hp
    rw [h.fresh] at hp
    obtain ⟨h1, h2, h3⟩ := hs.fresh p hp
    have htc := h.tc p
    have hedge := h.edge p
    rw [h1] at htc
    rw [h2] at hedge
    exact ⟨by simpa using htc, by simpa using hedge, by rw [h.rtPath]; exact h3⟩

/-- Changing neither ends nor inverse pointers. -/
theorem SameEnds.wf (h : SameEnds s s') (hs : Wf s)
    (hinv : ∀ e d d', s.edge e = some d → s'.edge e = some d' → d'.edgeInv = d.edgeInv) : Wf s' := by
  refine ⟨h.skeleton hs.toSkeleton, fun e d' hd' f => ?_⟩
  obtain ⟨d, hd, htc, hdest⟩ := h.symm.exists_edge hd'
  rw [hinv e d d' hd hd', hs.edgeInv e d hd f, h.inverse_iff htc.symm hdest.symm]

theorem sameEnds_setEdge {e : Ptr} {d d' : TcEdgeEntry Lq} (hd : s.edge e = some d) (htc : d'.tc = d.tc)
    (hdest : d'.destAddr = d.destAddr) : SameEnds s (s.setEdge e d') := by
  refine ⟨fun _ => rfl, fun f => ?_, rfl, rfl, rfl⟩
  show (Function.update s.edge e (some d') f).map _ = _
  by_cases hf : f = e
  · subst hf
    rw [Function.update_self, hd]
    simp [TcEdgeEntry.ends, htc, hdest]
  · rw [Function.update_of_ne hf]

theorem sameEnds_setTc {p : Ptr} {t t' : TcEntry} (ht : s.tc p = some t) (heq : t'.shape = t.shape) :
    SameEnds s (s.setTc p t') := by
  refine ⟨fun q => ?_, fun _ => rfl, rfl, rfl, rfl⟩
  show (Function.update s.tc p (some t') q).map _ = _
  by_cases hq : q = p
  · subst hq
    rw [Function.update_self, ht]
    simp [heq]
  · rw [Function.update_of_ne hq]

theorem wf_setTc (h : Wf s) {p : Ptr} {t t' : TcEntry} (ht : s.tc p = some t) (heq : t'.shape = t.shape) :
    Wf (s.setTc p t') :=
  (sameEnds_setTc ht heq).wf h fun _ d d' hd hd' => by
    rw [Option.some.inj (hd.symm.trans hd')]

theorem wf_setEdge (h : Wf s) {e : Ptr} {d d' : TcEdgeEntry Lq} (hd : s.edge e = some d) (htc : d'.tc = d.tc)
    (hdest : d'.destAddr = d.destAddr) (hinv : d'.edgeInv = d.edgeInv) : Wf (s.setEdge e d') := by
  refine (sameEnds_setEdge hd htc hdest).wf h fun f df df' hdf hdf' => ?_
  change Function.update s.edge e (some d') f = some df' at hdf'
  by_cases hf : f = e
  · subst hf
    rw [Function.update_self] at hdf'
    rw [← Option.some.inj hdf', hinv, Option.some.inj (hd.symm.trans hdf)]
  · rw [Function.update_of_ne hf, hdf] at hdf'
    rw [Option.some.inj hdf']

/-! ## Adding an edge -/

/-- The database with the new edge `d` of the entry `p`, not connected with its inverse. -/
def addEdge (env : Env Lq) (s : Lsdb Lq) (p : Ptr) (t : TcEntry) (d : TcEdgeEntry Lq) : Lsdb Lq :=
  { s with
    fresh := s.fresh + 1
    tc := Function.update s.tc p (some { t with
      edgeTree := Keyed.insert env.addrLt d.destAddr s.fresh t.edgeTree, refcount := t.refcount + 1 })
    edge := Function.update s.edge s.fresh (some d) }

theorem edge_addEdge_self (env : Env Lq) (s : Lsdb Lq) (p : Ptr) (t : TcEntry) (d : TcEdgeEntry Lq) :
    (addEdge env s p t d).edge s.fresh = some d := Function.update_self _ _ _

theorem edge_addEdge_of_ne (env : Env Lq) (s : Lsdb Lq) (p : Ptr) (t : TcEntry) (d : TcEdgeEntry Lq) {e : Ptr}
    (he : e ≠ s.fresh) : (addEdge env s p t d).edge e = s.edge e := Function.update_of_ne he _ _

theorem edgeOf_addEdge (h : Skeleton s) {p q : Ptr} {t : TcEntry} {d : TcEdgeEntry Lq} {k : IpAddr} {j : Ptr}
    (hd : d.tc = p) :
    EdgeOf (addEdge env s p t d) q k j ↔ EdgeOf s q k j ∨ (q = p ∧ k = d.destAddr ∧ j = s.fresh) := by
  unfold EdgeOf
  by_cases hj : j = s.fresh
  · subst hj
    rw [edge_addEdge_self, (h.fresh _ le_rfl).2.1]
    simp [eq_comm, hd]
  · rw [edge_addEdge_of_ne _ _ _ _ _ hj]
    simp [hj]

theorem skeleton_addEdge (env : Env Lq) (h : Skeleton s) {p : Ptr} {t : TcEntry} {d : TcEdgeEntry Lq}
    (ht : s.tc p = some t) (hd : d.tc = p) (hnew : ∀ e, ¬ EdgeOf s p d.destAddr e) :
    Skeleton (addEdge env s p t d) := by
  have ha : ∀ q, addrOf (addEdge env s p t d) q = addrOf s q := addrOf_update rfl ht rfl
  have hp := h.lt_fresh_of_tc ht
  refine ⟨?_, ?_, ?_, ?_, ?_, ?_, ?_⟩
  · exact h.tcTree.congr fun k i => by rw [ha]
  · refine forall_update_tc ?_ fun q t' hqp hq => ?_
    · exact ((h.edgeTree p t ht).insert _ hnew).congr fun k i => by rw [edgeOf_addEdge h hd]; simp
    · exact (h.edgeTree q t' hq).congr fun k i => by rw [edgeOf_addEdge h hd]; simp [hqp]
  · exact forall_update_tc (h.prefixTree p t ht) fun q t' _ hq => h.prefixTree q t' hq
  · intro e d' hd'
    by_cases he : e = s.fresh
    · rw [he, edge_addEdge_self] at hd'
      obtain rfl := Option.some.inj hd'
      exact ⟨_, by rw [hd]; exact Function.update_self _ _ _⟩
    · rw [edge_addEdge_of_ne _ _ _ _ _ he] at hd'
      obtain ⟨t', ht'⟩ := h.edgeTc e d' hd'
      exact exists_update_tc p _ ht'
  · intro r y hy
    obtain ⟨q, t', hq, ht'⟩ := h.rtPathTc r y hy
    obtain ⟨t'', ht''⟩ := exists_update_tc p _ ht'
    exact ⟨q, t'', hq, ht''⟩
  · refine forall_update_tc ?_ fun q t' _ hq => h.refcount q t' hq
    have := h.refcount p t ht
    simp only [length_insert]; omega
  · intro q hq
    obtain ⟨h1, h2, h3⟩ := h.fresh q (Nat.le_of_succ_le hq)
    exact ⟨update_eq_none _ h1 (lt_trans hp hq).ne', update_eq_none _ h2 (Nat.lt_of_succ_le hq).ne', h3⟩

/-- Old edges have the inverse they had, and possibly the new edge. -/
theorem inverse_addEdge {p : Ptr} {t : TcEntry} {d d' : TcEdgeEntry Lq} (ht : s.tc p = some t)
    {f : Ptr} (hf : f ≠ s.fresh) : Inverse (addEdge env s p t d) d' f ↔ Inverse s d' f := by
  have ha : ∀ q, addrOf (addEdge env s p t d) q = addrOf s q := addrOf_update rfl ht rfl
  unfold Inverse
  rw [edge_addEdge_of_ne _ _ _ _ _ hf]
  simp only [ha]

/-- The database is well formed but for the edge `e`, which has no inverse pointer yet and which no
inverse pointer leads to. -/
structure WfBut (s : Lsdb Lq) (e : Ptr) (d : TcEdgeEntry Lq) : Prop extends Skeleton s where
  self : s.edge e = some d
  unset : d.edgeInv = none
  others : ∀ g dg, g ≠ e → s.edge g = some dg →
    dg.edgeInv ≠ some e ∧ ∀ f, f ≠ e → (dg.edgeInv = some f ↔ Inverse s dg f)

theorem wfBut_addEdge (env : Env Lq) (h : Wf s) {p : Ptr} {t : TcEntry} {d : TcEdgeEntry Lq}
    (ht : s.tc p = some t) (hd : d.tc = p) (hinv : d.edgeInv = none) (hnew : ∀ e, ¬ EdgeOf s p d.destAddr e) :
    WfBut (addEdge env s p t d) s.fresh d := by
  refine ⟨skeleton_addEdge env h.toSkeleton ht hd hnew, edge_addEdge_self _ _ _ _ _, hinv, ?_⟩
  intro g dg hg hdg
  rw [edge_addEdge_of_ne _ _ _ _ _ hg] at hdg
  refine ⟨?_, fun f hf => ?_⟩
  · rw [Ne, h.edgeInv g dg hdg]
    rintro ⟨d', hd', -, -⟩
    rw [(h.fresh _ le_rfl).2.1] at hd'; cases hd'
  · rw [inverse_addEdge ht hf]
    exact h.edgeInv g dg hdg f

/-- Without an inverse edge there is nothing to connect. -/
theorem WfBut.wf_of_no_inverse {e : Ptr} {d : TcEdgeEntry Lq} (h : WfBut s e d) (hno : ∀ f, ¬ Inverse s d f) :
    Wf s := by
  refine ⟨h.toSkeleton, fun g dg hdg f => ?_⟩
  by_cases hg : g = e
  · subst hg
    obtain rfl : d = dg := Option.some.inj (h.self.symm.trans hdg)
    rw [h.unset]
    exact iff_of_false (by simp) (hno f)
  · obtain ⟨hne, hothers⟩ := h.others g dg hg hdg
    by_cases hf : f = e
    · subst hf
      exact iff_of_false hne fun hi => hno g (inverse_symm hdg h.self hi)
    · exact hothers f hf

/-- Connecting the edge with its inverse, which may be the edge itself. -/
theorem WfBut.wf_connect {e f : Ptr} {d df : TcEdgeEntry Lq} (h : WfBut s e d) (hf : Inverse s d f)
    (hdf : s.edge f = some df) (hedge : s'.edge = Function.update
      (Function.update s.edge f (some { df with edgeInv := some e })) e (some { d with edgeInv := some f }))
    (hsame : SameEnds s s') : Wf s' := by
  refine ⟨hsame.skeleton h.toSkeleton, fun g dg hdg i => ?_⟩
  rw [hedge] at hdg
  by_cases hg : g = e
  · -- the new edge: its inverse is `f` alone
    subst hg
    rw [Function.update_self] at hdg
    obtain rfl := Option.some.inj hdg
    refine Iff.trans ?_ (hsame.inverse_iff (d := d) rfl rfl).symm
    constructor
    · intro hi; rw [← Option.some.inj hi]; exact hf
    · intro hi; rw [h.inverse_unique hf hi]
  · rw [Function.update_of_ne hg] at hdg
    by_cases hgf : g = f
    · -- the inverse edge: its inverse is `e` alone
      subst hgf
      rw [Function.update_self] at hdg
      obtain rfl := Option.some.inj hdg
      refine Iff.trans ?_ (hsame.inverse_iff (d := df) rfl rfl).symm
      have hback : Inverse s df e := inverse_symm h.self hdf hf
      constructor
      · intro hi; rw [← Option.some.inj hi]; exact hback
      · intro hi; rw [h.inverse_unique hback hi]
    · -- any other edge: `e` is not its inverse
      rw [Function.update_of_ne hgf] at hdg
      obtain ⟨hne, hothers⟩ := h.others g dg hg hdg
      rw [hsame.inverse_iff (d := dg) rfl rfl]
      by_cases hi : i = e
      · subst hi
        refine iff_of_false hne fun hinv => hgf ?_
        exact h.inverse_unique (inverse_symm hdg h.self hinv) hf
      · exact hothers i hi

/-! ## Removing an edge -/

/-- The database without the edge `e` of the entry `p`. -/
def removeEdge (s : Lsdb Lq) (p : Ptr) (t : TcEntry) (e : Ptr) (edges : Ptr → Option (TcEdgeEntry Lq)) : Lsdb Lq :=
  { s with
    tc := Function.update s.tc p (some { t with
      edgeTree := Keyed.erase e t.edgeTree, refcount := t.refcount - 1 })
    edge := Function.update edges e none }

theorem edgeOf_key {p e : Ptr} {b b' : IpAddr} (h : EdgeOf s p b e) (h' : EdgeOf s p b' e) : b' = b := by
  obtain ⟨d, hd, -, rfl⟩ := h
  obtain ⟨d', hd', -, rfl⟩ := h'
  rw [hd] at hd'; rw [Option.some.inj hd']

/-- The edges that stay keep their ends; the inverse of the removed edge has its pointer cleared. -/
structure Cleared (s : Lsdb Lq) (e : Ptr) (d : TcEdgeEntry Lq) (edges : Ptr → Option (TcEdgeEntry Lq)) : Prop where
  core : ∀ g, g ≠ e → (edges g).map TcEdgeEntry.core = (s.edge g).map TcEdgeEntry.core
  cleared : ∀ g dg, g ≠ e → d.edgeInv = some g → edges g = some dg → dg.edgeInv = none
  kept : ∀ g, g ≠ e → d.edgeInv ≠ some g → edges g = s.edge g

theorem Cleared.ends {e : Ptr} {d : TcEdgeEntry Lq} {edges : Ptr → Option (TcEdgeEntry Lq)} (h : Cleared s e d edges)
    (g : Ptr) (hg : g ≠ e) : (edges g).map TcEdgeEntry.ends = (s.edge g).map TcEdgeEntry.ends :=
  map_ends_of_core (h.core g hg)

theorem edgeOf_removeEdge {p q e : Ptr} {t : TcEntry} {d : TcEdgeEntry Lq} {edges : Ptr → Option (TcEdgeEntry Lq)}
    (hc : Cleared s e d edges) {k : IpAddr} {j : Ptr} :
    EdgeOf (removeEdge s p t e edges) q k j ↔ EdgeOf s q k j ∧ j ≠ e := by
  have hof : ∀ m : Ptr → Option (TcEdgeEntry Lq), (∃ d, m j = some d ∧ d.tc = q ∧ d.destAddr = k) ↔
      (m j).map TcEdgeEntry.ends = some (q, k) := by
    intro m; cases m j <;> simp [TcEdgeEntry.ends]
  unfold EdgeOf removeEdge
  dsimp only
  by_cases hj : j = e
  · subst hj; rw [Function.update_self]; simp
  · rw [Function.update_of_ne hj, hof, hof, hc.ends j hj]; simp [hj]

theorem skeleton_removeEdge (h : Skeleton s) {p e : Ptr} {t : TcEntry} {d : TcEdgeEntry Lq}
    {edges : Ptr → Option (TcEdgeEntry Lq)} (ht : s.tc p = some t) (hd : s.edge e = some d) (hp : d.tc = p)
    (hc : Cleared s e d edges) : Skeleton (removeEdge s p t e edges) := by
  have ha : ∀ q, addrOf (removeEdge s p t e edges) q = addrOf s q := addrOf_update rfl ht rfl
  have he : EdgeOf s p d.destAddr e := ⟨d, hd, hp, rfl⟩
  have hlen := (h.edgeTree p t ht).length_erase he fun k' hk' => edgeOf_key he hk'
  refine ⟨?_, ?_, ?_, ?_, ?_, ?_, ?_⟩
  · exact h.tcTree.congr fun k i => by rw [ha]
  · refine forall_update_tc ?_ fun q t' hqp hq => ?_
    · exact ((h.edgeTree p t ht).erase e).congr fun k i => (edgeOf_removeEdge hc).symm
    · refine (h.edgeTree q t' hq).congr fun k i => ?_
      rw [edgeOf_removeEdge hc]
      refine ⟨fun hi => ⟨hi, ?_⟩, And.left⟩
      rintro rfl
      obtain ⟨d', hd', rfl, -⟩ := hi
      rw [hd] at hd'
      exact hqp (by rw [← Option.some.inj hd', hp])
  · exact forall_update_tc (h.prefixTree p t ht) fun q t' _ hq => h.prefixTree q t' hq
  · intro g dg hdg
    obtain ⟨⟨d', hd', htc, -⟩, -⟩ := (edgeOf_removeEdge hc (p := p) (t := t)).1 ⟨dg, hdg, rfl, rfl⟩
    obtain ⟨t', ht'⟩ := h.edgeTc g d' hd'
    rw [← htc]
    exact exists_update_tc p _ ht'
  · intro r y hy
    obtain ⟨q, t', hq, ht'⟩ := h.rtPathTc r y hy
    obtain ⟨t'', ht''⟩ := exists_update_tc p _ ht'
    exact ⟨q, t'', hq, ht''⟩
  · refine forall_update_tc ?_ fun q t' _ hq => h.refcount q t' hq
    have := h.refcount p t ht
    simp only; omega
  · intro q hq
    obtain ⟨h1, h2, h3⟩ := h.fresh q hq
    refine ⟨update_eq_none _ h1 (lt_of_lt_of_le (h.lt_fresh_of_tc ht) hq).ne', ?_, h3⟩
    have hqe : q ≠ e := (lt_of_lt_of_le (h.lt_fresh_of_edge hd) hq).ne'
    have := hc.ends q hqe
    rw [h2] at this
    exact update_eq_none _ (by simpa using this) hqe

theorem wf_removeEdge (h : Wf s) {p e : Ptr} {t : TcEntry} {d : TcEdgeEntry Lq}
    {edges : Ptr → Option (TcEdgeEntry Lq)} (ht : s.tc p = some t) (hd : s.edge e = some d) (hp : d.tc = p)
    (hc : Cleared s e d edges) : Wf (removeEdge s p t e edges) := by
  have hskel := skeleton_removeEdge h.toSkeleton ht hd hp hc
  have ha : ∀ q, addrOf (removeEdge s p t e edges) q = addrOf s q := addrOf_update rfl ht rfl
  refine ⟨hskel, fun g dg hdg f => ?_⟩
  obtain ⟨⟨dg', hdg', htc, hdest⟩, hge⟩ := (edgeOf_removeEdge hc (p := p) (t := t)).1 ⟨dg, hdg, rfl, rfl⟩
  -- the inverse relation loses the removed edge
  have hinv : Inverse (removeEdge s p t e edges) dg f ↔ Inverse s dg' f ∧ f ≠ e := by
    unfold Inverse
    simp only [ha]
    rw [← htc, ← hdest]
    constructor
    · rintro ⟨df, hdf, hb, hb'⟩
      obtain ⟨⟨df', hdf', htcf, hdestf⟩, hfe⟩ := (edgeOf_removeEdge hc (p := p) (t := t)).1 ⟨df, hdf, rfl, rfl⟩
      exact ⟨⟨df', hdf', by rw [hdestf]; exact hb, by rw [htcf]; exact hb'⟩, hfe⟩
    · rintro ⟨⟨df, hdf, hb, hb'⟩, hfe⟩
      obtain ⟨df', hdf', htcf, hdestf⟩ := (edgeOf_removeEdge hc (p := p) (t := t)).2 ⟨⟨df, hdf, rfl, rfl⟩, hfe⟩
      exact ⟨df', hdf', by rw [hdestf]; exact hb, by rw [htcf]; exact hb'⟩
  rw [hinv]
  have hdgE : edges g = some dg := by
    change Function.update edges e none g = some dg at hdg
    rwa [Function.update_of_ne hge] at hdg
  by_cases hg : d.edgeInv = some g
  · -- the inverse of the removed edge had no other inverse
    rw [hc.cleared g dg hge hg hdgE]
    refine iff_of_false (by simp) ?_
    rintro ⟨hi, hfe⟩
    have hback := inverse_symm hd hdg' ((h.edgeInv e d hd g).1 hg)
    exact hfe (h.inverse_unique hi hback)
  · have hkept := hc.kept g hge hg
    rw [hdgE, hdg'] at hkept
    obtain rfl := Option.some.inj hkept
    rw [h.edgeInv g dg hdg' f]
    refine ⟨fun hi => ⟨hi, ?_⟩, And.left⟩
    rintro rfl
    exact hg ((h.edgeInv f d hd g).2 (inverse_symm hdg' hd hi))

end Olsrd.Topology
