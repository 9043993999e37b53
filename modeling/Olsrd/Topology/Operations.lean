/-
Every operation of `tc_set.c` and of the prefix side of `routing_table.c` follows no dangling pointer
and keeps the database well formed, so it is well formed after any sequence of operations.
-/
import Olsrd.Topology.Edges

namespace Olsrd.Topology

open Keyed

variable {Lq : Type} {env : Env Lq} {s s' : Lsdb Lq}

/-! ## Reference counts -/

theorem olsrUnlockTcEntry_of_two_le {p : Ptr} {t : TcEntry} (ht : s.tc p = some t) (h : 2 ≤ t.refcount) :
    olsrUnlockTcEntry s p = some (s.setTc p { t with refcount := t.refcount - 1 }) := by
  obtain ⟨n, hn⟩ : ∃ n, t.refcount = n + 2 := ⟨t.refcount - 2, by omega⟩
  simp [olsrUnlockTcEntry, ht, hn]

theorem olsrUnlockTcEntry_of_one {p : Ptr} {t : TcEntry} (ht : s.tc p = some t) (h : t.refcount = 1) :
    olsrUnlockTcEntry s p = some (s.freeTc p) := by
  simp [olsrUnlockTcEntry, ht, h]

/-! ## Prefixes -/

theorem olsrAllocRtPath_eq {p : Ptr} {t : TcEntry} (ht : s.tc p = some t) (x : IpPrefix) (origin : Nat) :
    olsrAllocRtPath s p x origin = some (addPrefix s p t x origin, s.fresh) := by
  simp [olsrAllocRtPath, olsrLockTcEntry, Lsdb.setTc, Lsdb.setRtPath, ht, addPrefix]

/-- What a prefix operation leaves alone. -/
structure PrefixFrame (s s' : Lsdb Lq) : Prop where
  edge : s'.edge = s.edge
  addrOf : ∀ q, addrOf s' q = addrOf s q
  edgeTree : ∀ q, (s'.tc q).map TcEntry.edgeTree = (s.tc q).map TcEntry.edgeTree

theorem PrefixFrame.refl (s : Lsdb Lq) : PrefixFrame s s := ⟨rfl, fun _ => rfl, fun _ => rfl⟩

theorem PrefixFrame.trans {s'' : Lsdb Lq} (h : PrefixFrame s s') (h' : PrefixFrame s' s'') : PrefixFrame s s'' :=
  ⟨h'.edge.trans h.edge, fun q => (h'.addrOf q).trans (h.addrOf q), fun q => (h'.edgeTree q).trans (h.edgeTree q)⟩

theorem exists_tc_of_addrOf {p : Ptr} {a : IpAddr} (h : addrOf s p = some a) : ∃ t, s.tc p = some t ∧ t.addr = a :=
  Option.map_eq_some_iff.1 h

theorem insertPrefix_spec (h : Wf s) {p : Ptr} {t : TcEntry} (ht : s.tc p = some t) (x : IpPrefix) (origin : Nat) :
    ∃ s' r, insertPrefix s p x origin = some (s', r) ∧ Wf s' ∧ PrefixFrame s s' := by
  cases hf : Keyed.find x t.prefixTree with
  | some r => exact ⟨s, r, by simp [insertPrefix, ht, hf], h, .refl s⟩
  | none =>
    have hnone := (h.prefixTree p t ht).find_eq_none.1 hf
    refine ⟨addPrefix s p t x origin, s.fresh, ?_, wf_addPrefix h origin ht hnone, rfl, addrOf_update rfl ht rfl,
      map_update_tc _ ht rfl⟩
    simp [insertPrefix, ht, hf, olsrAllocRtPath_eq ht]

theorem two_le_refcount_of_prefix (h : Wf s) {p r : Ptr} {t : TcEntry} {x : IpPrefix} (ht : s.tc p = some t)
    (hr : PrefixOf s p x r) : 2 ≤ t.refcount := by
  have hmem := ((h.prefixTree p t ht).mem x r).2 hr
  have := List.length_pos_of_mem hmem
  have := h.refcount p t ht
  omega

theorem olsrDeleteRtPath_spec (h : Wf s) {r : Ptr} {y : RtPath} (hy : s.rtPath r = some y) :
    ∃ s', olsrDeleteRtPath s r = some s' ∧ Wf s' ∧ PrefixFrame s s' ∧
      s'.rtPath = Function.update s.rtPath r none := by
  obtain ⟨p, t, hp, ht⟩ := h.rtPathTc r y hy
  have hof : PrefixOf s p y.dst r := ⟨y, hy, hp, rfl⟩
  have hcount := two_le_refcount_of_prefix h ht hof
  refine ⟨removePrefix s p t r, ?_, wf_removePrefix h ht hof,
    ⟨rfl, addrOf_update rfl ht rfl, map_update_tc _ ht rfl⟩, rfl⟩
  simp only [olsrDeleteRtPath, hy, hp, ht, Option.bind_eq_bind, Option.bind_some]
  rw [olsrUnlockTcEntry_of_two_le (t := { t with prefixTree := Keyed.erase r t.prefixTree })
    (Function.update_self _ _ _) hcount]
  simp [Lsdb.setTc, Lsdb.freeRtPath, removePrefix]

theorem olsrDeleteRoutingTable_spec (env : Env Lq) (h : Wf s) (x : IpPrefix) (originator : IpAddr) :
    ∃ s', olsrDeleteRoutingTable env s x originator = some s' ∧ Wf s' ∧ PrefixFrame s s' := by
  unfold olsrDeleteRoutingTable
  split
  · exact ⟨s, rfl, h, .refl s⟩
  cases hp : olsrLookupTcEntry s originator with
  | none => exact ⟨s, rfl, h, .refl s⟩
  | some p =>
    obtain ⟨t, ht, -⟩ := exists_tc_of_addrOf (h.lookup_iff.1 hp)
    cases hf : Keyed.find x t.prefixTree with
    | none => exact ⟨s, by simp [ht, hf], h, .refl s⟩
    | some r =>
      obtain ⟨y, hy, -, -⟩ := (h.prefixTree p t ht).find_iff.1 hf
      obtain ⟨s', hs', hw, hframe, -⟩ := olsrDeleteRtPath_spec h hy
      exact ⟨s', by simp [ht, hf, hs'], hw, hframe⟩

/-! ## Entries -/

/-- The entry `p` is new: it has the address `a` and no edges, and the other entries keep theirs. -/
structure EntryAdded (s s' : Lsdb Lq) (p : Ptr) (a : IpAddr) : Prop where
  new : s.tc p = none
  addrOf : ∀ q, addrOf s' q = if q = p then some a else addrOf s q
  edge : s'.edge = s.edge
  edgeTree : ∀ q, (s'.tc q).map TcEntry.edgeTree = if q = p then some [] else (s.tc q).map TcEntry.edgeTree

/-- The result is `NULL` only if this node has lost its main address. -/
theorem olsrAddTcEntry_spec (env : Env Lq) (h : Wf s) {a : IpAddr} (hnew : olsrLookupTcEntry s a = none) :
    ∃ s' o, olsrAddTcEntry env s a = some (s', o) ∧ Wf s' ∧
      (o = none → ipequal env.cnf env.cnf.mainAddr (List.replicate env.cnf.ipsize 0) = true) ∧
      ∀ p ∈ o, EntryAdded s s' p a := by
  unfold olsrAddTcEntry
  split
  · rename_i hz
    exact ⟨s, none, rfl, h, fun _ => hz, by simp⟩
  have hno : ∀ p, addrOf s p ≠ some a := h.tcTree.find_eq_none.1 hnew
  have hw := wf_addEntry env h hno
  have hself : (addEntry env s a).tc s.fresh = some { newTcEntry a with refcount := 1 } := Function.update_self _ _ _
  obtain ⟨s', r, hs', hw', hframe⟩ := insertPrefix_spec hw hself ⟨a, maxplen env.cnf⟩ olsrRtOriginInt
  have haddr := addrOf_addEntry_self env s a
  have hlookup : olsrLookupTcEntry (addEntry env s a) a = some s.fresh := hw.lookup_iff.2 haddr
  refine ⟨s', some s.fresh, ?_, hw', by simp, ?_⟩
  · have hfind : Keyed.find a s.tcTree = none := hnew
    simp only [Lsdb.setTc, hfind, Option.isSome_none, Bool.false_eq_true, if_false, olsrLockTcEntry,
      Function.update_self, Option.pure_def, Option.bind_eq_bind, Option.bind_some, Function.update_idem]
    change (olsrLookupTcEntry (addEntry env s a) a).bind _ = _
    rw [hlookup, Option.bind_some]
    change (insertPrefix (addEntry env s a) s.fresh ⟨a, maxplen env.cnf⟩ olsrRtOriginInt).bind _ = _
    rw [hs']; rfl
  · intro p hp
    obtain rfl := Option.mem_some.1 hp
    refine ⟨(h.fresh _ le_rfl).1, fun q => ?_, hframe.edge, fun q => ?_⟩
    · rw [hframe.addrOf]
      split
      · rename_i hq; rw [hq, haddr]
      · rename_i hq; exact addrOf_addEntry_of_ne env s a hq
    · rw [hframe.edgeTree]
      split
      · rename_i hq; rw [hq, hself]; rfl
      · rename_i hq
        show (Function.update s.tc s.fresh _ q).map _ = _
        rw [Function.update_of_ne hq]

theorem olsrLocateTcEntry_spec (env : Env Lq) (h : Wf s) (a : IpAddr) :
    ∃ s' o, olsrLocateTcEntry env s a = some (s', o) ∧ Wf s' ∧
      (o = none → olsrLookupTcEntry s a = none ∧
        ipequal env.cnf env.cnf.mainAddr (List.replicate env.cnf.ipsize 0) = true) ∧
      ∀ p ∈ o, addrOf s' p = some a := by
  unfold olsrLocateTcEntry
  cases hp : olsrLookupTcEntry s a with
  | some p =>
    refine ⟨s, some p, rfl, h, by simp, fun q hq => ?_⟩
    obtain rfl := Option.mem_some.1 hq
    exact h.lookup_iff.1 hp
  | none =>
    obtain ⟨s', o, hs', hw, hz, ha⟩ := olsrAddTcEntry_spec env h hp
    exact ⟨s', o, hs', hw, fun ho => ⟨rfl, hz ho⟩, fun q hq => by rw [(ha q hq).addrOf, if_pos rfl]⟩

/-- A prefix can be inserted unless the originator's entry cannot be created. -/
theorem olsrInsertRoutingTable_spec (env : Env Lq) (h : Wf s) (x : IpPrefix) (originator : IpAddr) (origin : Nat)
    (hmain : ipequal env.cnf env.cnf.mainAddr (List.replicate env.cnf.ipsize 0) = false) :
    ∃ s' r, olsrInsertRoutingTable env s x originator origin = some (s', r) ∧ Wf s' := by
  unfold olsrInsertRoutingTable
  split
  · exact ⟨s, none, rfl, h⟩
  obtain ⟨s₁, o, hs₁, hw₁, hz, ha⟩ := olsrLocateTcEntry_spec env h originator
  cases o with
  | none => rw [(hz rfl).2] at hmain; cases hmain
  | some p =>
    obtain ⟨t, ht, -⟩ := exists_tc_of_addrOf (ha p rfl)
    obtain ⟨s₂, r, hs₂, hw₂, -⟩ := insertPrefix_spec hw₁ ht x origin
    exact ⟨s₂, some r, by simp [hs₁, hs₂], hw₂⟩

/-! ## Edges -/

/-- The databases differ in inverse pointers only. -/
structure SameCore (s s' : Lsdb Lq) : Prop where
  tc : s'.tc = s.tc
  edge : ∀ g, (s'.edge g).map TcEdgeEntry.core = (s.edge g).map TcEdgeEntry.core
  rtPath : s'.rtPath = s.rtPath
  tcTree : s'.tcTree = s.tcTree
  fresh : s'.fresh = s.fresh

theorem SameCore.refl (s : Lsdb Lq) : SameCore s s := ⟨rfl, fun _ => rfl, rfl, rfl, rfl⟩

theorem SameCore.sameEnds (h : SameCore s s') : SameEnds s s' :=
  ⟨fun p => by rw [h.tc], fun e => map_ends_of_core (h.edge e), h.rtPath, h.tcTree, h.fresh⟩

theorem SameCore.trans {s'' : Lsdb Lq} (h : SameCore s s') (h' : SameCore s' s'') : SameCore s s'' :=
  ⟨h'.tc.trans h.tc, fun g => (h'.edge g).trans (h.edge g), h'.rtPath.trans h.rtPath, h'.tcTree.trans h.tcTree,
    h'.fresh.trans h.fresh⟩

theorem map_update_edge {α : Type} {m : Ptr → Option (TcEdgeEntry Lq)} {e : Ptr} {d d' : TcEdgeEntry Lq}
    (f : TcEdgeEntry Lq → α) (hd : m e = some d) (hf : f d' = f d) (g : Ptr) :
    (Function.update m e (some d') g).map f = (m g).map f := by
  by_cases hg : g = e
  · subst hg; rw [Function.update_self, hd, Option.map_some, Option.map_some, hf]
  · rw [Function.update_of_ne hg]

theorem sameCore_setEdge {e : Ptr} {d d' : TcEdgeEntry Lq} (hd : s.edge e = some d) (hcore : d'.core = d.core) :
    SameCore s (s.setEdge e d') :=
  ⟨rfl, map_update_edge _ hd hcore, rfl, rfl, rfl⟩

theorem connectInverse_spec {p e : Ptr} {t : TcEntry} {d : TcEdgeEntry Lq} (h : WfBut s e d) (hp : d.tc = p)
    (ht : s.tc p = some t) : ∃ s', connectInverse s p e d.destAddr = some s' ∧ Wf s' ∧ SameCore s s' := by
  have haddr : addrOf s d.tc = some t.addr := by rw [hp]; exact addrOf_some ht
  cases hq : olsrLookupTcEntry s d.destAddr with
  | none =>
    have hno : ∀ q, addrOf s q ≠ some d.destAddr := h.tcTree.find_eq_none.1 hq
    refine ⟨s, by simp [connectInverse, hq], ?_, .refl s⟩
    exact h.wf_of_no_inverse fun f ⟨df, _, _, hb⟩ => hno _ hb
  | some q =>
    have hqa := h.lookup_iff.1 hq
    obtain ⟨u, hu, -⟩ := exists_tc_of_addrOf hqa
    cases hf : Keyed.find t.addr u.edgeTree with
    | none =>
      have hno := (h.edgeTree q u hu).find_eq_none.1 hf
      refine ⟨s, by simp [connectInverse, hq, ht, olsrLookupTcEdge, hu, hf], ?_, .refl s⟩
      refine h.wf_of_no_inverse fun f ⟨df, hdf, ha, hb⟩ => hno f ⟨df, hdf, ?_, ?_⟩
      · exact h.tcTree.unique hb hqa
      · exact (Option.some.inj (haddr.symm.trans ha)).symm
    | some f =>
      obtain ⟨df, hdf, hdtc, hdest⟩ := (h.edgeTree q u hu).find_iff.1 hf
      have hinv : Inverse s d f := ⟨df, hdf, by rw [haddr, hdest], by rw [hdtc]; exact hqa⟩
      have h₁ : SameCore s (s.setEdge f { df with edgeInv := some e }) := sameCore_setEdge hdf rfl
      -- a node's edge to itself is its own inverse
      have hset : ∃ de, (s.setEdge f { df with edgeInv := some e }).edge e = some de ∧ de.core = d.core := by
        by_cases hfe : e = f
        · subst hfe
          obtain rfl : d = df := Option.some.inj (h.self.symm.trans hdf)
          exact ⟨_, Function.update_self _ _ _, rfl⟩
        · exact ⟨d, by rw [← h.self]; exact Function.update_of_ne hfe _ _, rfl⟩
      obtain ⟨de, hde, hcore⟩ := hset
      have hdeq : ({ de with edgeInv := some f } : TcEdgeEntry Lq) = { d with edgeInv := some f } :=
        congrArg (fun x : TcEdgeEntry Lq => { x with edgeInv := some f }) hcore
      have h₂ : SameCore s ((s.setEdge f { df with edgeInv := some e }).setEdge e { d with edgeInv := some f }) :=
        h₁.trans (sameCore_setEdge hde hcore.symm)
      refine ⟨_, ?_, h.wf_connect hinv hdf rfl h₂.sameEnds, h₂⟩
      simp [connectInverse, hq, ht, olsrLookupTcEdge, hu, hf, hdf, hde, hdeq]

/-- The new edge as `olsr_add_tc_edge_entry` fills it. -/
def newEdge (env : Env Lq) (p : Ptr) (b : IpAddr) (ansn : UInt16) : TcEdgeEntry Lq :=
  (olsrCalcTcEdgeEntryEtx env ⟨b, none, p, 0, ansn, env.lq.zeroLq⟩).1

theorem olsrCalcTcEdgeEntryEtx_core (env : Env Lq) (d : TcEdgeEntry Lq) :
    (olsrCalcTcEdgeEntryEtx env d).1.core = (olsrCalcTcEdgeEntryEtx env d.core).1 ∧
      (olsrCalcTcEdgeEntryEtx env d).1.ends = d.ends ∧ (olsrCalcTcEdgeEntryEtx env d).1.edgeInv = d.edgeInv := by
  unfold olsrCalcTcEdgeEntryEtx
  split <;> exact ⟨rfl, rfl, rfl⟩

/-- The database `s` with a new edge of `p` to `b`. -/
structure EdgeAdded (env : Env Lq) (s s' : Lsdb Lq) (p : Ptr) (t : TcEntry) (b : IpAddr) (ansn : UInt16) : Prop where
  tc : s'.tc = Function.update s.tc p (some { t with
    edgeTree := Keyed.insert env.addrLt b s.fresh t.edgeTree, refcount := t.refcount + 1 })
  new : (s'.edge s.fresh).map TcEdgeEntry.core = some (newEdge env p b ansn).core
  others : ∀ g, g ≠ s.fresh → (s'.edge g).map TcEdgeEntry.core = (s.edge g).map TcEdgeEntry.core
  tcTree : s'.tcTree = s.tcTree

theorem olsrAddTcEdgeEntry_spec (env : Env Lq) (h : Wf s) {p : Ptr} {t : TcEntry} {b : IpAddr} (ansn : UInt16)
    (ht : s.tc p = some t) (hnew : Keyed.find b t.edgeTree = none) :
    ∃ s', olsrAddTcEdgeEntry env s p b ansn = some (s', s.fresh) ∧ Wf s' ∧ EdgeAdded env s s' p t b ansn := by
  let d : TcEdgeEntry Lq := ⟨b, none, p, 0, ansn, env.lq.zeroLq⟩
  have hbut : WfBut (addEdge env s p t d) s.fresh d :=
    wfBut_addEdge env h ht rfl rfl ((h.edgeTree p t ht).find_eq_none.1 hnew)
  obtain ⟨s₁, hs₁, hw₁, hcore₁⟩ := connectInverse_spec hbut rfl (Function.update_self _ _ _)
  obtain ⟨d₁, hd₁, hdcore⟩ : ∃ d₁, s₁.edge s.fresh = some d₁ ∧ d₁.core = d.core := by
    have := hcore₁.edge s.fresh
    rwa [edge_addEdge_self, Option.map_some, Option.map_eq_some_iff] at this
  obtain ⟨hetx, hends, hinv⟩ := olsrCalcTcEdgeEntryEtx_core env d₁
  refine ⟨s₁.setEdge s.fresh (olsrCalcTcEdgeEntryEtx env d₁).1, ?_, ?_, ?_⟩
  · simp only [olsrAddTcEdgeEntry, ht, hnew, Option.isSome_none, Bool.false_eq_true, if_false, Lsdb.setTc,
      olsrLockTcEntry, Function.update_self, Option.pure_def, Option.bind_eq_bind, Option.bind_some,
      Function.update_idem]
    change (connectInverse (addEdge env s p t d) p s.fresh b).bind _ = _
    have hb : connectInverse (addEdge env s p t d) p s.fresh b = some s₁ := hs₁
    rw [hb, Option.bind_some, hd₁]; rfl
  · exact wf_setEdge hw₁ hd₁ (congrArg Prod.fst hends) (congrArg Prod.snd hends) hinv
  · refine ⟨hcore₁.tc, ?_, fun g hg => ?_, hcore₁.tcTree⟩
    · show (Function.update s₁.edge s.fresh _ s.fresh).map _ = _
      rw [Function.update_self, Option.map_some, hetx, hdcore]
      exact congrArg some (olsrCalcTcEdgeEntryEtx_core env d).1.symm
    · show (Function.update s₁.edge s.fresh _ g).map _ = _
      rw [Function.update_of_ne hg, hcore₁.edge g, edge_addEdge_of_ne _ _ _ _ _ hg]

theorem two_le_refcount_of_edge (h : Wf s) {e : Ptr} {d : TcEdgeEntry Lq} {t : TcEntry} (hd : s.edge e = some d)
    (ht : s.tc d.tc = some t) : 2 ≤ t.refcount := by
  have hmem := ((h.edgeTree d.tc t ht).mem d.destAddr e).2 ⟨d, hd, rfl, rfl⟩
  have := List.length_pos_of_mem hmem
  have := h.refcount d.tc t ht
  omega

/-- The database `s` without the edge `e`, which was `d`. -/
structure EdgeDeleted (s s' : Lsdb Lq) (e : Ptr) (d : TcEdgeEntry Lq) : Prop where
  tc : ∃ t, s.tc d.tc = some t ∧ s'.tc = Function.update s.tc d.tc (some { t with
    edgeTree := Keyed.erase e t.edgeTree, refcount := t.refcount - 1 })
  gone : s'.edge e = none
  others : ∀ g, g ≠ e → (s'.edge g).map TcEdgeEntry.core = (s.edge g).map TcEdgeEntry.core
  tcTree : s'.tcTree = s.tcTree

theorem EdgeDeleted.addrOf {e : Ptr} {d : TcEdgeEntry Lq} (h : EdgeDeleted s s' e d) (q : Ptr) :
    addrOf s' q = addrOf s q := by
  obtain ⟨t, ht, htc⟩ := h.tc
  exact addrOf_update htc ht rfl q

/-- Clearing the inverse pointer changes the edges of a well-formed database as `Cleared` says. -/
theorem clearInverse_spec (h : Wf s) {e : Ptr} {d : TcEdgeEntry Lq} (hd : s.edge e = some d) {s₁ : Lsdb Lq}
    (hs₁ : s₁.edge = s.edge) :
    ∃ edges, clearInverse s₁ d.edgeInv = some { s₁ with edge := edges } ∧ Cleared s e d edges := by
  cases hinv : d.edgeInv with
  | none =>
    refine ⟨s.edge, by rw [← hs₁]; rfl, fun _ _ => rfl, fun g dg _ hg => ?_, fun _ _ _ => rfl⟩
    rw [hinv] at hg; cases hg
  | some inv =>
    obtain ⟨i, hi, -, -⟩ := (h.edgeInv e d hd inv).1 hinv
    refine ⟨Function.update s.edge inv (some { i with edgeInv := none }), ?_, fun g hg => ?_,
      fun g dg hg hgi hdg => ?_, fun g hg hgi => ?_⟩
    · simp [clearInverse, hs₁, hi, Lsdb.setEdge]
    · by_cases hgi : g = inv
      · subst hgi; rw [Function.update_self, hi]; rfl
      · rw [Function.update_of_ne hgi]
    · obtain rfl : inv = g := Option.some.inj (hinv.symm.trans hgi)
      rw [Function.update_self] at hdg
      rw [← Option.some.inj hdg]
    · exact Function.update_of_ne (fun hgi' => hgi (by rw [hinv, hgi'])) _ _

theorem olsrDeleteTcEdgeEntry_spec (h : Wf s) {e : Ptr} {d : TcEdgeEntry Lq} (hd : s.edge e = some d) :
    ∃ s', olsrDeleteTcEdgeEntry s e = some s' ∧ Wf s' ∧ EdgeDeleted s s' e d := by
  obtain ⟨t, ht⟩ := h.edgeTc e d hd
  have hcount := two_le_refcount_of_edge h hd ht
  have hedge : ((s.setTc d.tc { t with edgeTree := Keyed.erase e t.edgeTree }).setTc d.tc
      { t with edgeTree := Keyed.erase e t.edgeTree, refcount := t.refcount - 1 }).edge = s.edge := rfl
  obtain ⟨edges, hedges, hcl⟩ := clearInverse_spec h hd hedge
  refine ⟨removeEdge s d.tc t e edges, ?_, wf_removeEdge h ht hd rfl hcl, ⟨t, ht, rfl⟩,
    Function.update_self _ _ _, fun g hg => ?_, rfl⟩
  · simp only [olsrDeleteTcEdgeEntry, hd, ht, Option.pure_def, Option.bind_eq_bind, Option.bind_some]
    rw [olsrUnlockTcEntry_of_two_le (t := { t with edgeTree := Keyed.erase e t.edgeTree })
      (Function.update_self _ _ _) hcount]
    rw [Option.bind_some, hedges, Option.bind_some]
    simp [Lsdb.setTc, Lsdb.freeEdge, removeEdge]
  · show (Function.update edges e none g).map _ = _
    rw [Function.update_of_ne hg]; exact hcl.core g hg

/-! ## Tree order -/

/-- Every edge tree is in the order of its comparator. -/
def Ordered (env : Env Lq) (s : Lsdb Lq) : Prop := ∀ p t, s.tc p = some t → Sorted env.addrLt t.edgeTree

theorem ordered_congr (h : ∀ q, (s'.tc q).map TcEntry.edgeTree = (s.tc q).map TcEntry.edgeTree) (ho : Ordered env s) :
    Ordered env s' := by
  intro p t ht
  have hp := h p
  rw [ht, Option.map_some] at hp
  obtain ⟨t', ht', heq⟩ := Option.map_eq_some_iff.1 hp.symm
  rw [← heq]; exact ho p t' ht'

theorem EdgeAdded.ordered {p : Ptr} {t : TcEntry} {b : IpAddr} {ansn : UInt16} (h : EdgeAdded env s s' p t b ansn)
    (ht : s.tc p = some t) (ho : Ordered env s) : Ordered env s' := by
  unfold Ordered
  rw [h.tc]
  refine forall_update_tc ?_ fun q t' _ hq => ho q t' hq
  exact (ho p t ht).insert (addrLt_asymm _ _) (addrLt_trans _ _) _ _

theorem EdgeDeleted.ordered {e : Ptr} {d : TcEdgeEntry Lq} (h : EdgeDeleted s s' e d) (ho : Ordered env s) :
    Ordered env s' := by
  obtain ⟨t, ht, htc⟩ := h.tc
  unfold Ordered
  rw [htc]
  exact forall_update_tc ((ho d.tc t ht).erase e) fun q t' _ hq => ho q t' hq

/-! ## Loops -/

/-- A loop whose body needs its member alive, leaves the other members alive and keeps `I`. -/
theorem forAll_spec {body : Lsdb Lq → Ptr → Option (Lsdb Lq)} {I : Lsdb Lq → Prop} {L : Lsdb Lq → Ptr → Prop}
    (hstep : ∀ s p, I s → L s p → ∃ s', body s p = some s' ∧ I s' ∧ ∀ q, q ≠ p → L s q → L s' q) :
    ∀ (ps : List Ptr) (s : Lsdb Lq), I s → ps.Nodup → (∀ p ∈ ps, L s p) → ∃ s', forAll body ps s = some s' ∧ I s'
  | [], s, hI, _, _ => ⟨s, rfl, hI⟩
  | p :: ps, s, hI, hnd, hL => by
    obtain ⟨hp, hnd'⟩ := List.nodup_cons.1 hnd
    obtain ⟨s₁, hs₁, hI₁, hL₁⟩ := hstep s p hI (hL p (List.mem_cons_self ..))
    have hlive : ∀ q ∈ ps, L s₁ q := fun q hq =>
      hL₁ q (fun h => hp (h ▸ hq)) (hL q (List.mem_cons_of_mem _ hq))
    obtain ⟨s₂, hs₂, hI₂⟩ := forAll_spec hstep ps s₁ hI₁ hnd' hlive
    exact ⟨s₂, by simp [forAll, hs₁, hs₂], hI₂⟩

/-- If the body also removes its member, then the loop removes them all. -/
theorem forAll_removes {body : Lsdb Lq → Ptr → Option (Lsdb Lq)} {I : Lsdb Lq → Prop} {L : Lsdb Lq → Ptr → Prop}
    (hstep : ∀ s p, I s → L s p → ∃ s', body s p = some s' ∧ I s' ∧ ∀ q, L s' q ↔ L s q ∧ q ≠ p)
    (ps : List Ptr) (s : Lsdb Lq) (hI : I s) (hnd : ps.Nodup) (hL : ∀ q, L s q ↔ q ∈ ps) :
    ∃ s', forAll body ps s = some s' ∧ I s' ∧ ∀ q, ¬ L s' q := by
  induction ps generalizing s with
  | nil => exact ⟨s, rfl, hI, fun q hq => by simpa using (hL q).1 hq⟩
  | cons p ps ih =>
    obtain ⟨hp, hnd'⟩ := List.nodup_cons.1 hnd
    obtain ⟨s₁, hs₁, hI₁, hL₁⟩ := hstep s p hI ((hL p).2 (List.mem_cons_self ..))
    obtain ⟨s₂, hs₂, hI₂, hL₂⟩ := ih s₁ hI₁ hnd' fun q => by
      rw [hL₁, hL, List.mem_cons]
      constructor
      · rintro ⟨rfl | hq, hne⟩
        · exact absurd rfl hne
        · exact hq
      · intro hq; exact ⟨.inr hq, fun h => hp (h ▸ hq)⟩
    exact ⟨s₂, by simp [forAll, hs₁, hs₂], hI₂, hL₂⟩

/-- The members of a tree are distinct. -/
theorem nodup_snd_of_indexes {κ : Type} {t : List (κ × Ptr)} {P : κ → Ptr → Prop} (h : Indexes t P)
    (hkey : ∀ k k' i, P k i → P k' i → k' = k) : (t.map Prod.snd).Nodup := by
  refine List.Nodup.map_on ?_ h.keys.of_map
  rintro ⟨k, i⟩ hki ⟨k', j⟩ hkj rfl
  rw [hkey k k' i ((h.mem k i).1 hki) ((h.mem k' i).1 hkj)]

/-- `e` is an edge of `p`. -/
def Owns (s : Lsdb Lq) (p e : Ptr) : Prop := ∃ b, (s.edge e).map TcEdgeEntry.ends = some (p, b)

theorem owns_iff {p e : Ptr} : Owns s p e ↔ ∃ d, s.edge e = some d ∧ d.tc = p := by
  unfold Owns; cases s.edge e <;> simp [TcEdgeEntry.ends]

theorem EdgeDeleted.owns {e : Ptr} {d : TcEdgeEntry Lq} (h : EdgeDeleted s s' e d) (p q : Ptr) :
    Owns s' p q ↔ Owns s p q ∧ q ≠ e := by
  by_cases hq : q = e
  · subst hq; unfold Owns; rw [h.gone]; simp
  · unfold Owns; rw [map_ends_of_core (h.others q hq)]; simp [hq]

theorem mem_edges_iff (h : Wf s) {p : Ptr} {t : TcEntry} (ht : s.tc p = some t) (e : Ptr) :
    Owns s p e ↔ e ∈ t.edgeTree.map Prod.snd := by
  simp only [owns_iff, List.mem_map, Prod.exists, exists_eq_right, (h.edgeTree p t ht).mem]
  constructor
  · rintro ⟨d, hd, hp⟩; exact ⟨d.destAddr, d, hd, hp, rfl⟩
  · rintro ⟨b, d, hd, hp, -⟩; exact ⟨d, hd, hp⟩

theorem mem_prefixes_iff (h : Wf s) {p : Ptr} {t : TcEntry} (ht : s.tc p = some t) (r : Ptr) :
    (∃ y, s.rtPath r = some y ∧ y.tc = some p) ↔ r ∈ t.prefixTree.map Prod.snd := by
  simp only [List.mem_map, Prod.exists, exists_eq_right, (h.prefixTree p t ht).mem]
  constructor
  · rintro ⟨y, hy, hp⟩; exact ⟨y.dst, y, hy, hp, rfl⟩
  · rintro ⟨b, y, hy, hp, -⟩; exact ⟨y, hy, hp⟩

theorem nodup_edges (h : Wf s) {p : Ptr} {t : TcEntry} (ht : s.tc p = some t) : (t.edgeTree.map Prod.snd).Nodup :=
  nodup_snd_of_indexes (h.edgeTree p t ht) fun _ _ _ hk hk' => edgeOf_key hk hk'

theorem nodup_prefixes (h : Wf s) {p : Ptr} {t : TcEntry} (ht : s.tc p = some t) :
    (t.prefixTree.map Prod.snd).Nodup :=
  nodup_snd_of_indexes (h.prefixTree p t ht) fun _ _ _ hk hk' => prefixOf_key hk hk'

/-- The edge loop of `olsr_delete_tc_entry` leaves no edge of the entry. -/
theorem deleteEdges_spec (env : Env Lq) (h : Wf s) {p : Ptr} {t : TcEntry} (ht : s.tc p = some t) :
    ∃ s', forAll olsrDeleteTcEdgeEntry (t.edgeTree.map Prod.snd) s = some s' ∧
      (Wf s' ∧ (∀ q, addrOf s' q = addrOf s q) ∧ (Ordered env s → Ordered env s')) ∧ ∀ e, ¬ Owns s' p e := by
  refine forAll_removes (fun s₁ e hI he => ?_) _ s ⟨h, fun _ => rfl, id⟩ (nodup_edges h ht) (mem_edges_iff h ht)
  obtain ⟨d, hd, -⟩ := owns_iff.1 he
  obtain ⟨s₂, hs₂, hw₂, hf⟩ := olsrDeleteTcEdgeEntry_spec hI.1 hd
  exact ⟨s₂, hs₂, ⟨hw₂, fun q => (hf.addrOf q).trans (hI.2.1 q), fun ho => hf.ordered (hI.2.2 ho)⟩, hf.owns p⟩

/-- The prefix loop of `olsr_delete_tc_entry` leaves no prefix of the entry. -/
theorem deletePrefixes_spec (h : Wf s) {p : Ptr} {t : TcEntry} (ht : s.tc p = some t) :
    ∃ s', forAll olsrDeleteRtPath (t.prefixTree.map Prod.snd) s = some s' ∧
      (Wf s' ∧ PrefixFrame s s') ∧ ∀ r, ¬ ∃ y, s'.rtPath r = some y ∧ y.tc = some p := by
  refine forAll_removes (fun s₁ r hI hr => ?_) _ s ⟨h, .refl s⟩ (nodup_prefixes h ht) (mem_prefixes_iff h ht)
  obtain ⟨y, hy, -⟩ := hr
  obtain ⟨s₂, hs₂, hw₂, hf, hrt⟩ := olsrDeleteRtPath_spec hI.1 hy
  refine ⟨s₂, hs₂, ⟨hw₂, hI.2.trans hf⟩, fun q => ?_⟩
  rw [hrt]
  by_cases hq : q = r
  · subst hq; rw [Function.update_self]; simp
  · rw [Function.update_of_ne hq]; simp [hq]

/-- `olsr_delete_tc_entry` frees the entry. -/
theorem olsrDeleteTcEntry_spec (env : Env Lq) (h : Wf s) {p : Ptr} {t : TcEntry} (ht : s.tc p = some t) :
    ∃ s', olsrDeleteTcEntry env s p = some s' ∧ Wf s' ∧ (∀ q, addrOf s' q = if q = p then none else addrOf s q) ∧
      (Ordered env s → Ordered env s') := by
  obtain ⟨s₁, hs₁, hw₁, hf₁⟩ := olsrDeleteRoutingTable_spec env h ⟨t.addr, maxplen env.cnf⟩ t.addr
  have ha₁ : addrOf s₁ p = some t.addr := by rw [hf₁.addrOf, addrOf_some ht]
  obtain ⟨t₁, ht₁, -⟩ := exists_tc_of_addrOf ha₁
  obtain ⟨s₂, hs₂, ⟨hw₂, ha₂, ho₂⟩, hno₂⟩ := deleteEdges_spec env hw₁ ht₁
  obtain ⟨t₂, ht₂, -⟩ := exists_tc_of_addrOf ((ha₂ p).trans ha₁)
  obtain ⟨s₃, hs₃, ⟨hw₃, hf₃⟩, hno₃⟩ := deletePrefixes_spec hw₂ ht₂
  obtain ⟨t₃, ht₃, -⟩ := exists_tc_of_addrOf ((hf₃.addrOf p).trans ((ha₂ p).trans ha₁))
  -- nothing refers to the entry any more but the tree
  have hedge : ∀ e, ¬ Owns s₃ p e := fun e => by
    have := hno₂ e
    unfold Owns at this ⊢
    rwa [hf₃.edge]
  have hedges : t₃.edgeTree = [] := by
    cases hl : t₃.edgeTree with
    | nil => rfl
    | cons x l => exact absurd ((mem_edges_iff hw₃ ht₃ x.2).2 (by simp [hl])) (hedge x.2)
  have hprefixes : t₃.prefixTree = [] := by
    cases hl : t₃.prefixTree with
    | nil => rfl
    | cons x l => exact absurd ((mem_prefixes_iff hw₃ ht₃ x.2).2 (by simp [hl])) (hno₃ x.2)
  have hcount : t₃.refcount = 1 := by
    rw [hw₃.refcount p t₃ ht₃, hedges, hprefixes]; rfl
  refine ⟨removeEntry s₃ p, ?_, wf_removeEntry hw₃ ?_ ?_, fun q => ?_, fun ho => ?_⟩
  · simp only [olsrDeleteTcEntry, ht, hs₁, ht₁, hs₂, ht₂, hs₃, Option.bind_eq_bind, Option.bind_some]
    exact olsrUnlockTcEntry_of_one (s := { s₃ with tcTree := Keyed.erase p s₃.tcTree }) ht₃ hcount
  · intro e d hd hp
    exact hedge e (owns_iff.2 ⟨d, hd, hp⟩)
  · intro r y hy hp
    exact hno₃ r ⟨y, hy, hp⟩
  · split
    · rename_i hq; rw [hq]; exact addrOf_removeEntry_self s₃ p
    · rename_i hq; rw [addrOf_removeEntry_of_ne s₃ hq, hf₃.addrOf, ha₂, hf₁.addrOf]
  · have ho₃ : Ordered env s₃ := ordered_congr hf₃.edgeTree (ho₂ (ordered_congr hf₁.edgeTree ho))
    intro q t' hq
    have hne : q ≠ p := by
      rintro rfl
      rw [show (removeEntry s₃ q).tc q = none from Function.update_self _ _ _] at hq; cases hq
    exact ho₃ q t' (by rw [← hq]; exact (Function.update_of_ne hne _ _).symm)

/-- The loop body of `olsr_delete_outdated_tc_edges` on an edge of `p`. -/
theorem deleteIfOutdated_spec (h : Wf s) {p e : Ptr} (he : Owns s p e) :
    ∃ s', deleteIfOutdated p s e = some s' ∧ Wf s' ∧ ∀ q, q ≠ e → Owns s p q → Owns s' p q := by
  obtain ⟨d, hd, rfl⟩ := owns_iff.1 he
  obtain ⟨t, ht⟩ := h.edgeTc e d hd
  by_cases hold : seqnoGreaterThan t.ansn d.ansn = true
  · obtain ⟨s', hs', hw, hf⟩ := olsrDeleteTcEdgeEntry_spec h hd
    exact ⟨s', by simp [deleteIfOutdated, ht, hd, hold, hs'], hw, fun q hq hL => (hf.owns d.tc q).2 ⟨hL, hq⟩⟩
  · exact ⟨s, by simp [deleteIfOutdated, ht, hd, hold], h, fun q _ hL => hL⟩

theorem olsrDeleteOutdatedTcEdges_spec (h : Wf s) {p : Ptr} {t : TcEntry} (ht : s.tc p = some t) :
    ∃ s', olsrDeleteOutdatedTcEdges s p = some s' ∧ Wf s' := by
  obtain ⟨s', hs', hw⟩ := forAll_spec (fun s₁ e hI he => deleteIfOutdated_spec hI he) _ s h (nodup_edges h ht)
    fun e he => (mem_edges_iff h ht e).2 he
  exact ⟨s', by simp [olsrDeleteOutdatedTcEdges, ht, hs'], hw⟩

end Olsrd.Topology
