/-
The structure of the link state database: what the trees, the back pointers, the inverse pointers and
the reference counts of `tc_set.c` have to do with each other, and that adding and removing an entry,
an edge or a prefix keeps it.
-/
import Olsrd.Topology.Lsdb

namespace Olsrd.Topology

open Keyed

variable {Lq : Type} {env : Env Lq} {s s' : Lsdb Lq}

/-! ## The invariant -/

/-- The address of the entry under a pointer. -/
def addrOf (s : Lsdb Lq) (p : Ptr) : Option IpAddr := (s.tc p).map TcEntry.addr

/-- `e` is an edge of the entry `p` to `b`. -/
def EdgeOf (s : Lsdb Lq) (p : Ptr) (b : IpAddr) (e : Ptr) : Prop :=
  ∃ d, s.edge e = some d ∧ d.tc = p ∧ d.destAddr = b

/-- `r` is an `rt_path` of the entry `p` for the prefix `x`. -/
def PrefixOf (s : Lsdb Lq) (p : Ptr) (x : IpPrefix) (r : Ptr) : Prop :=
  ∃ y, s.rtPath r = some y ∧ y.tc = some p ∧ y.dst = x

/-- The edge under `f` runs from the destination of `d` to its origin. -/
def Inverse (s : Lsdb Lq) (d : TcEdgeEntry Lq) (f : Ptr) : Prop :=
  ∃ d', s.edge f = some d' ∧ addrOf s d.tc = some d'.destAddr ∧ addrOf s d'.tc = some d.destAddr

/-- Trees, back pointers and reference counts. -/
structure Skeleton (s : Lsdb Lq) : Prop where
  tcTree : Indexes s.tcTree fun a p => addrOf s p = some a
  edgeTree : ∀ p t, s.tc p = some t → Indexes t.edgeTree (EdgeOf s p)
  prefixTree : ∀ p t, s.tc p = some t → Indexes t.prefixTree (PrefixOf s p)
  edgeTc : ∀ e d, s.edge e = some d → ∃ t, s.tc d.tc = some t
  rtPathTc : ∀ r y, s.rtPath r = some y → ∃ p t, y.tc = some p ∧ s.tc p = some t
  refcount : ∀ p t, s.tc p = some t → t.refcount = 1 + t.edgeTree.length + t.prefixTree.length
  fresh : ∀ p, s.fresh ≤ p → s.tc p = none ∧ s.edge p = none ∧ s.rtPath p = none

/-- The skeleton, with every inverse pointer leading to the inverse edge. -/
structure Wf (s : Lsdb Lq) : Prop extends Skeleton s where
  edgeInv : ∀ e d, s.edge e = some d → ∀ f, d.edgeInv = some f ↔ Inverse s d f

theorem addrOf_some {p : Ptr} {t : TcEntry} (h : s.tc p = some t) : addrOf s p = some t.addr := by
  simp [addrOf, h]

namespace Skeleton

theorem lt_fresh_of_tc (h : Skeleton s) {p : Ptr} {t : TcEntry} (ht : s.tc p = some t) : p < s.fresh := by
  by_contra hp
  rw [(h.fresh p (not_lt.1 hp)).1] at ht; cases ht

theorem lt_fresh_of_edge (h : Skeleton s) {e : Ptr} {d : TcEdgeEntry Lq} (hd : s.edge e = some d) : e < s.fresh := by
  by_contra he
  rw [(h.fresh e (not_lt.1 he)).2.1] at hd; cases hd

theorem lookup_iff (h : Skeleton s) {a : IpAddr} {p : Ptr} : olsrLookupTcEntry s a = some p ↔ addrOf s p = some a :=
  h.tcTree.find_iff

/-- An edge has at most one inverse. -/
theorem inverse_unique (h : Skeleton s) {d : TcEdgeEntry Lq} {f g : Ptr} (hf : Inverse s d f) (hg : Inverse s d g) :
    f = g := by
  obtain ⟨df, hdf, haf, hbf⟩ := hf
  obtain ⟨dg, hdg, hag, hbg⟩ := hg
  have htc : df.tc = dg.tc := h.tcTree.unique hbf hbg
  have hdest : df.destAddr = dg.destAddr := Option.some.inj (haf.symm.trans hag)
  obtain ⟨t, ht⟩ := h.edgeTc g dg hdg
  exact (h.edgeTree dg.tc t ht).unique ⟨df, hdf, htc, hdest⟩ ⟨dg, hdg, rfl, rfl⟩

end Skeleton

theorem inverse_symm {d d' : TcEdgeEntry Lq} {e f : Ptr} (he : s.edge e = some d) (hf : s.edge f = some d')
    (h : Inverse s d f) : Inverse s d' e := by
  obtain ⟨df, hdf, ha, hb⟩ := h
  obtain rfl : d' = df := Option.some.inj (hf.symm.trans hdf)
  exact ⟨d, he, hb, ha⟩

/-! ## Changing one entry -/

/-- Replacing an entry by one that looks the same to `f`. -/
theorem map_update_tc {α : Type} {p : Ptr} {t t' : TcEntry} {tcs : Ptr → Option TcEntry} (f : TcEntry → α)
    (ht : tcs p = some t) (hf : f t' = f t) (q : Ptr) :
    (Function.update tcs p (some t') q).map f = (tcs q).map f := by
  by_cases hq : q = p
  · subst hq; rw [Function.update_self, ht, Option.map_some, Option.map_some, hf]
  · rw [Function.update_of_ne hq]

theorem addrOf_update {p : Ptr} {t t' : TcEntry} (htc : s'.tc = Function.update s.tc p (some t'))
    (ht : s.tc p = some t) (ha : t'.addr = t.addr) (q : Ptr) : addrOf s' q = addrOf s q := by
  unfold addrOf
  rw [htc]
  exact map_update_tc _ ht ha q

theorem inverse_congr (ha : ∀ q, addrOf s' q = addrOf s q) (he : s'.edge = s.edge) (d : TcEdgeEntry Lq) (f : Ptr) :
    Inverse s' d f ↔ Inverse s d f := by
  unfold Inverse; rw [he]; simp only [ha]

/-- What an update of the entry map at a live `p` leaves to show. -/
theorem forall_update_tc {p : Ptr} {t' : TcEntry} {tcs : Ptr → Option TcEntry} {P : Ptr → TcEntry → Prop}
    (hp : P p t') (hq : ∀ q t, q ≠ p → tcs q = some t → P q t) :
    ∀ q t, Function.update tcs p (some t') q = some t → P q t := by
  intro q t ht
  by_cases h : q = p
  · subst h
    rw [Function.update_self] at ht
    obtain rfl := Option.some.inj ht
    exact hp
  · rw [Function.update_of_ne h] at ht
    exact hq q t h ht

theorem exists_update_tc {tcs : Ptr → Option TcEntry} (p : Ptr) (t' : TcEntry) {q : Ptr} {t : TcEntry}
    (ht : tcs q = some t) : ∃ t'', Function.update tcs p (some t') q = some t'' := by
  by_cases h : q = p
  · exact ⟨t', by rw [h, Function.update_self]⟩
  · exact ⟨t, by rw [Function.update_of_ne h, ht]⟩

theorem update_eq_none {α : Type} {m : Ptr → Option α} {p q : Ptr} (x : Option α) (hm : m q = none) (h : q ≠ p) :
    Function.update m p x q = none := by
  rw [Function.update_of_ne h, hm]

/-! ## Adding and removing a prefix -/

/-- The database with a new `rt_path` for `x` under the entry `p`. -/
def addPrefix (s : Lsdb Lq) (p : Ptr) (t : TcEntry) (x : IpPrefix) (origin : Nat) : Lsdb Lq :=
  { s with
    fresh := s.fresh + 1
    tc := Function.update s.tc p (some { t with
      prefixTree := Keyed.insert prefixLt x s.fresh t.prefixTree, refcount := t.refcount + 1 })
    rtPath := Function.update s.rtPath s.fresh (some ⟨x, some p, origin⟩) }

theorem prefixOf_addPrefix (h : Skeleton s) {p q : Ptr} {t : TcEntry} {x k : IpPrefix} {origin : Nat} {j : Ptr} :
    PrefixOf (addPrefix s p t x origin) q k j ↔ PrefixOf s q k j ∨ (q = p ∧ k = x ∧ j = s.fresh) := by
  unfold PrefixOf addPrefix
  dsimp only
  by_cases hj : j = s.fresh
  · subst hj
    rw [Function.update_self, (h.fresh _ le_rfl).2.2]
    simp [eq_comm]
  · rw [Function.update_of_ne hj]
    simp [hj]

theorem wf_addPrefix (h : Wf s) {p : Ptr} {t : TcEntry} {x : IpPrefix} (origin : Nat) (ht : s.tc p = some t)
    (hx : ∀ r, ¬ PrefixOf s p x r) : Wf (addPrefix s p t x origin) := by
  have ha : ∀ q, addrOf (addPrefix s p t x origin) q = addrOf s q := addrOf_update rfl ht rfl
  have hp := h.lt_fresh_of_tc ht
  refine ⟨⟨?_, ?_, ?_, ?_, ?_, ?_, ?_⟩, ?_⟩
  · exact h.tcTree.congr fun k i => by rw [ha]
  · exact forall_update_tc (h.edgeTree p t ht) fun q t' _ hq => h.edgeTree q t' hq
  · refine forall_update_tc ?_ fun q t' hqp hq => ?_
    · exact ((h.prefixTree p t ht).insert _ hx).congr fun k i => by rw [prefixOf_addPrefix h.toSkeleton]; simp
    · exact (h.prefixTree q t' hq).congr fun k i => by rw [prefixOf_addPrefix h.toSkeleton]; simp [hqp]
  · intro e d hd
    obtain ⟨t', ht'⟩ := h.edgeTc e d hd
    exact exists_update_tc p _ ht'
  · intro r y hy
    change Function.update s.rtPath s.fresh _ r = some y at hy
    by_cases hr : r = s.fresh
    · rw [hr, Function.update_self] at hy
      obtain rfl := Option.some.inj hy
      exact ⟨p, _, rfl, Function.update_self _ _ _⟩
    · rw [Function.update_of_ne hr] at hy
      obtain ⟨q, t', hq, ht'⟩ := h.rtPathTc r y hy
      obtain ⟨t'', ht''⟩ := exists_update_tc p _ ht'
      exact ⟨q, t'', hq, ht''⟩
  · refine forall_update_tc ?_ fun q t' _ hq => h.refcount q t' hq
    have := h.refcount p t ht
    simp only [length_insert]; omega
  · intro q hq
    obtain ⟨h1, h2, h3⟩ := h.fresh q (Nat.le_of_succ_le hq)
    exact ⟨update_eq_none _ h1 (lt_trans hp hq).ne', h2, update_eq_none _ h3 (Nat.lt_of_succ_le hq).ne'⟩
  · intro e d hd f
    rw [inverse_congr ha rfl]
    exact h.edgeInv e d hd f

/-- The database without the `rt_path` under `r`, which hangs off the entry `p`. -/
def removePrefix (s : Lsdb Lq) (p : Ptr) (t : TcEntry) (r : Ptr) : Lsdb Lq :=
  { s with
    tc := Function.update s.tc p (some { t with
      prefixTree := Keyed.erase r t.prefixTree, refcount := t.refcount - 1 })
    rtPath := Function.update s.rtPath r none }

theorem prefixOf_removePrefix {p q r : Ptr} {t : TcEntry} {k : IpPrefix} {j : Ptr} :
    PrefixOf (removePrefix s p t r) q k j ↔ PrefixOf s q k j ∧ j ≠ r := by
  unfold PrefixOf removePrefix
  dsimp only
  by_cases hj : j = r
  · subst hj; rw [Function.update_self]; simp
  · rw [Function.update_of_ne hj]; simp [hj]

theorem prefixOf_key {p r : Ptr} {x x' : IpPrefix} (h : PrefixOf s p x r) (h' : PrefixOf s p x' r) : x' = x := by
  obtain ⟨y, hy, -, rfl⟩ := h
  obtain ⟨y', hy', -, rfl⟩ := h'
  rw [hy] at hy'; rw [Option.some.inj hy']

theorem wf_removePrefix (h : Wf s) {p r : Ptr} {t : TcEntry} {x : IpPrefix} (ht : s.tc p = some t)
    (hr : PrefixOf s p x r) : Wf (removePrefix s p t r) := by
  have ha : ∀ q, addrOf (removePrefix s p t r) q = addrOf s q := addrOf_update rfl ht rfl
  have hlen := (h.prefixTree p t ht).length_erase hr fun k' hk' => prefixOf_key hr hk'
  refine ⟨⟨?_, ?_, ?_, ?_, ?_, ?_, ?_⟩, ?_⟩
  · exact h.tcTree.congr fun k i => by rw [ha]
  · exact forall_update_tc (h.edgeTree p t ht) fun q t' _ hq => h.edgeTree q t' hq
  · refine forall_update_tc ?_ fun q t' hqp hq => ?_
    · exact ((h.prefixTree p t ht).erase r).congr fun k i => prefixOf_removePrefix.symm
    · refine (h.prefixTree q t' hq).congr fun k i => ?_
      rw [prefixOf_removePrefix]
      refine ⟨fun hi => ⟨hi, ?_⟩, And.left⟩
      rintro rfl
      obtain ⟨y, hy, hyp, -⟩ := hr
      obtain ⟨y', hy', hyq, -⟩ := hi
      rw [hy] at hy'
      obtain rfl := Option.some.inj hy'
      exact hqp (Option.some.inj (hyq.symm.trans hyp))
  · intro e d hd
    obtain ⟨t', ht'⟩ := h.edgeTc e d hd
    exact exists_update_tc p _ ht'
  · intro r' y hy
    change Function.update s.rtPath r none r' = some y at hy
    by_cases hr' : r' = r
    · rw [hr', Function.update_self] at hy; cases hy
    · rw [Function.update_of_ne hr'] at hy
      obtain ⟨q, t', hq, ht'⟩ := h.rtPathTc r' y hy
      obtain ⟨t'', ht''⟩ := exists_update_tc p _ ht'
      exact ⟨q, t'', hq, ht''⟩
  · refine forall_update_tc ?_ fun q t' _ hq => h.refcount q t' hq
    have := h.refcount p t ht
    simp only; omega
  · intro q hq
    obtain ⟨h1, h2, h3⟩ := h.fresh q hq
    have hp := h.lt_fresh_of_tc ht
    refine ⟨update_eq_none _ h1 (lt_of_lt_of_le hp hq).ne', h2, ?_⟩
    show Function.update s.rtPath r none q = none
    by_cases hqr : q = r
    · rw [hqr, Function.update_self]
    · rw [Function.update_of_ne hqr, h3]
  · intro e d hd f
    rw [inverse_congr ha rfl]
    exact h.edgeInv e d hd f

/-! ## Adding and removing an entry -/

/-- The database with a new entry for `a`, with no edges and no prefixes. -/
def addEntry (env : Env Lq) (s : Lsdb Lq) (a : IpAddr) : Lsdb Lq :=
  { s with
    fresh := s.fresh + 1
    tc := Function.update s.tc s.fresh (some { newTcEntry a with refcount := 1 })
    tcTree := Keyed.insert env.addrLt a s.fresh s.tcTree }

theorem addrOf_addEntry_self (env : Env Lq) (s : Lsdb Lq) (a : IpAddr) :
    addrOf (addEntry env s a) s.fresh = some a := by
  unfold addrOf addEntry; dsimp only; rw [Function.update_self]; rfl

theorem addrOf_addEntry_of_ne (env : Env Lq) (s : Lsdb Lq) (a : IpAddr) {q : Ptr} (hq : q ≠ s.fresh) :
    addrOf (addEntry env s a) q = addrOf s q := by
  unfold addrOf addEntry; dsimp only; rw [Function.update_of_ne hq]

theorem addrOf_fresh (h : Skeleton s) : addrOf s s.fresh = none := by
  unfold addrOf; rw [(h.fresh _ le_rfl).1]; rfl

theorem wf_addEntry (env : Env Lq) (h : Wf s) {a : IpAddr} (hnew : ∀ p, addrOf s p ≠ some a) :
    Wf (addEntry env s a) := by
  have hlive : ∀ q t, s.tc q = some t → q ≠ s.fresh := fun q t hq => (h.lt_fresh_of_tc hq).ne
  refine ⟨⟨?_, ?_, ?_, ?_, ?_, ?_, ?_⟩, ?_⟩
  · refine (h.tcTree.insert env.addrLt hnew).congr fun k i => ?_
    by_cases hi : i = s.fresh
    · subst hi
      rw [addrOf_addEntry_self, addrOf_fresh h.toSkeleton]; simp [eq_comm]
    · rw [addrOf_addEntry_of_ne _ _ _ hi]; simp [hi]
  · refine forall_update_tc ?_ fun q t' _ hq => h.edgeTree q t' hq
    refine indexes_nil ?_
    rintro k i ⟨d, hd, hdp, -⟩
    obtain ⟨t, ht⟩ := h.edgeTc i d hd
    exact hlive _ t ht hdp
  · refine forall_update_tc ?_ fun q t' _ hq => h.prefixTree q t' hq
    refine indexes_nil ?_
    rintro k i ⟨y, hy, hyp, -⟩
    obtain ⟨q, t, hq, ht⟩ := h.rtPathTc i y hy
    rw [hyp] at hq
    obtain rfl := Option.some.inj hq
    exact hlive _ t ht rfl
  · intro e d hd
    obtain ⟨t', ht'⟩ := h.edgeTc e d hd
    exact exists_update_tc _ _ ht'
  · intro r y hy
    obtain ⟨q, t', hq, ht'⟩ := h.rtPathTc r y hy
    obtain ⟨t'', ht''⟩ := exists_update_tc s.fresh _ ht'
    exact ⟨q, t'', hq, ht''⟩
  · exact forall_update_tc rfl fun q t' _ hq => h.refcount q t' hq
  · intro q hq
    obtain ⟨h1, h2, h3⟩ := h.fresh q (Nat.le_of_succ_le hq)
    exact ⟨update_eq_none _ h1 (Nat.lt_of_succ_le hq).ne', h2, h3⟩
  · intro e d hd f
    rw [h.edgeInv e d hd f]
    obtain ⟨t, ht⟩ := h.edgeTc e d hd
    unfold Inverse
    refine exists_congr fun d' => and_congr_right fun hf => ?_
    obtain ⟨t', ht'⟩ := h.edgeTc f d' hf
    rw [addrOf_addEntry_of_ne _ _ _ (hlive _ t ht), addrOf_addEntry_of_ne _ _ _ (hlive _ t' ht')]

/-- The database without the entry `p`. -/
def removeEntry (s : Lsdb Lq) (p : Ptr) : Lsdb Lq :=
  { s with tcTree := Keyed.erase p s.tcTree, tc := Function.update s.tc p none }

theorem addrOf_removeEntry_self (s : Lsdb Lq) (p : Ptr) : addrOf (removeEntry s p) p = none := by
  unfold addrOf removeEntry; dsimp only; rw [Function.update_self]; rfl

theorem addrOf_removeEntry_of_ne (s : Lsdb Lq) {p q : Ptr} (hq : q ≠ p) : addrOf (removeEntry s p) q = addrOf s q := by
  unfold addrOf removeEntry; dsimp only; rw [Function.update_of_ne hq]

theorem wf_removeEntry (h : Wf s) {p : Ptr} (hedge : ∀ e d, s.edge e = some d → d.tc ≠ p)
    (htrees : ∀ r y, s.rtPath r = some y → y.tc ≠ some p) : Wf (removeEntry s p) := by
  have htc : ∀ q t, (removeEntry s p).tc q = some t → q ≠ p ∧ s.tc q = some t := by
    intro q t ht
    change Function.update s.tc p none q = some t at ht
    by_cases hq : q = p
    · rw [hq, Function.update_self] at ht; cases ht
    · rw [Function.update_of_ne hq] at ht; exact ⟨hq, ht⟩
  refine ⟨⟨?_, ?_, ?_, ?_, ?_, ?_, ?_⟩, ?_⟩
  · refine (h.tcTree.erase p).congr fun k i => ?_
    by_cases hi : i = p
    · subst hi; rw [addrOf_removeEntry_self]; simp
    · rw [addrOf_removeEntry_of_ne _ hi]; simp [hi]
  · exact fun q t ht => h.edgeTree q t (htc q t ht).2
  · exact fun q t ht => h.prefixTree q t (htc q t ht).2
  · intro e d hd
    obtain ⟨t, ht⟩ := h.edgeTc e d hd
    exact ⟨t, by show Function.update s.tc p none d.tc = some t; rw [Function.update_of_ne (hedge e d hd), ht]⟩
  · intro r y hy
    obtain ⟨q, t, hq, ht⟩ := h.rtPathTc r y hy
    have hqp : q ≠ p := fun hqp => htrees r y hy (by rw [hq, hqp])
    exact ⟨q, t, hq, by show Function.update s.tc p none q = some t; rw [Function.update_of_ne hqp, ht]⟩
  · exact fun q t ht => h.refcount q t (htc q t ht).2
  · intro q hq
    obtain ⟨h1, h2, h3⟩ := h.fresh q hq
    refine ⟨?_, h2, h3⟩
    cases ht : (removeEntry s p).tc q with
    | none => rfl
    | some t => rw [(htc q t ht).2] at h1; cases h1
  · intro e d hd f
    rw [h.edgeInv e d hd f]
    unfold Inverse
    refine exists_congr fun d' => and_congr_right fun hf => ?_
    rw [addrOf_removeEntry_of_ne _ (hedge e d hd), addrOf_removeEntry_of_ne _ (hedge f d' hf)]

end Olsrd.Topology
