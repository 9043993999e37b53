/-
Runs of the link state database: whatever sequence of operations led to a database, its back
pointers, inverse pointers and reference counts are right, and no operation on its live objects
follows a dangling pointer.
-/
import Olsrd.Topology.Operations

namespace Olsrd.Topology

open Keyed

variable {Lq : Type} {env : Env Lq} {s s' : Lsdb Lq}

/-! ## Runs -/

inductive Op (Lq : Type) where
  | locate (adr : IpAddr)
  | addEdge (tc : Ptr) (addr : IpAddr) (ansn : UInt16)
  | deleteEdge (e : Ptr)
  | deleteTc (tc : Ptr)
  /-- `olsr_expire_tc_entry` -/
  | expireTc (tc : Ptr)
  /-- `olsr_expire_tc_edge_gc` -/
  | expireEdgeGc (tc : Ptr)
  | insertRtPath (dst : IpPrefix) (originator : IpAddr) (origin : Nat)
  | deleteRtPath (dst : IpPrefix) (originator : IpAddr)
  /-- a TC message brings a new ANSN for an entry -/
  | setAnsn (tc : Ptr) (ansn : UInt16)
  /-- a TC message or the link sensing updates an edge -/
  | updateEdge (e : Ptr) (ansn : UInt16) (linkquality : Lq) (cost : Nat)

def apply (env : Env Lq) (s : Lsdb Lq) : Op Lq → Option (Lsdb Lq)
  | .locate adr => (olsrLocateTcEntry env s adr).map Prod.fst
  | .addEdge tc addr ansn => (olsrAddTcEdgeEntry env s tc addr ansn).map Prod.fst
  | .deleteEdge e => olsrDeleteTcEdgeEntry s e
  | .deleteTc tc => olsrDeleteTcEntry env s tc
  | .expireTc tc => olsrDeleteTcEntry env s tc
  | .expireEdgeGc tc => olsrDeleteOutdatedTcEdges s tc
  | .insertRtPath dst originator origin => (olsrInsertRoutingTable env s dst originator origin).map Prod.fst
  | .deleteRtPath dst originator => olsrDeleteRoutingTable env s dst originator
  | .setAnsn tc ansn => do
    let t ← s.tc tc
    pure (s.setTc tc { t with ansn := ansn })
  | .updateEdge e ansn linkquality cost => do
    let d ← s.edge e
    pure (s.setEdge e { d with ansn := ansn, linkquality := linkquality, cost := cost })

/-- Operations get pointers to live objects; an edge is added only for a destination the entry has no
edge to; a prefix is inserted while the node has a main address. -/
def Allowed (env : Env Lq) (s : Lsdb Lq) : Op Lq → Prop
  | .locate _ => True
  | .addEdge tc addr _ => ∃ t, s.tc tc = some t ∧ Keyed.find addr t.edgeTree = none
  | .deleteEdge e => ∃ d, s.edge e = some d
  | .deleteTc tc => ∃ t, s.tc tc = some t
  | .expireTc tc => ∃ t, s.tc tc = some t
  | .expireEdgeGc tc => ∃ t, s.tc tc = some t
  | .insertRtPath _ _ _ => ipequal env.cnf env.cnf.mainAddr (List.replicate env.cnf.ipsize 0) = false
  | .deleteRtPath _ _ => True
  | .setAnsn tc _ => ∃ t, s.tc tc = some t
  | .updateEdge e _ _ _ => ∃ d, s.edge e = some d

/-- The database before `olsr_init_tc` locates the node itself. -/
def emptyLsdb (Lq : Type) : Lsdb Lq := ⟨fun _ => none, fun _ => none, fun _ => none, [], 0⟩

inductive Reachable (env : Env Lq) : Lsdb Lq → Prop
  | init : Reachable env (emptyLsdb Lq)
  | step {s s' : Lsdb Lq} (op : Op Lq) : Reachable env s → Allowed env s op → apply env s op = some s' →
      Reachable env s'

/-! ## One step -/

/-- An allowed operation has a result, and it is well formed. -/
theorem apply_spec (env : Env Lq) (h : Wf s) {op : Op Lq} (ha : Allowed env s op) :
    ∃ s', apply env s op = some s' ∧ Wf s' := by
  cases op with
  | locate adr =>
    obtain ⟨s', o, hs', hw, -, -⟩ := olsrLocateTcEntry_spec env h adr
    exact ⟨s', by simp [apply, hs'], hw⟩
  | addEdge tc addr ansn =>
    obtain ⟨t, ht, hnew⟩ := ha
    obtain ⟨s', hs', hw, -⟩ := olsrAddTcEdgeEntry_spec env h ansn ht hnew
    exact ⟨s', by simp [apply, hs'], hw⟩
  | deleteEdge e =>
    obtain ⟨d, hd⟩ := ha
    obtain ⟨s', hs', hw, -⟩ := olsrDeleteTcEdgeEntry_spec h hd
    exact ⟨s', hs', hw⟩
  | deleteTc tc | expireTc tc =>
    obtain ⟨t, ht⟩ := ha
    obtain ⟨s', hs', hw, -⟩ := olsrDeleteTcEntry_spec env h ht
    exact ⟨s', hs', hw⟩
  | expireEdgeGc tc =>
    obtain ⟨t, ht⟩ := ha
    exact olsrDeleteOutdatedTcEdges_spec h ht
  | insertRtPath dst originator origin =>
    obtain ⟨s', r, hs', hw⟩ := olsrInsertRoutingTable_spec env h dst originator origin ha
    exact ⟨s', by simp [apply, hs'], hw⟩
  | deleteRtPath dst originator =>
    obtain ⟨s', hs', hw, -⟩ := olsrDeleteRoutingTable_spec env h dst originator
    exact ⟨s', hs', hw⟩
  | setAnsn tc ansn =>
    obtain ⟨t, ht⟩ := ha
    exact ⟨s.setTc tc { t with ansn := ansn }, by simp [apply, ht], wf_setTc h ht rfl⟩
  | updateEdge e ansn linkquality cost =>
    obtain ⟨d, hd⟩ := ha
    exact ⟨s.setEdge e { d with ansn := ansn, linkquality := linkquality, cost := cost },
      by simp [apply, hd], wf_setEdge h hd rfl rfl rfl⟩

/-! ## Every run -/

theorem wf_empty (Lq : Type) : Wf (emptyLsdb Lq) := by
  refine ⟨⟨indexes_nil fun k i h => ?_, ?_, ?_, ?_, ?_, ?_, ?_⟩, ?_⟩
  · cases h
  all_goals first | exact fun _ _ h => nomatch h | exact fun _ _ => ⟨rfl, rfl, rfl⟩

theorem reachable_wf (h : Reachable env s) : Wf s := by
  induction h with
  | init => exact wf_empty Lq
  | step op _ ha hs ih =>
    obtain ⟨s'', hs'', hw⟩ := apply_spec env ih ha
    rw [hs] at hs''
    rw [Option.some.inj hs'']; exact hw

/-- The stored edge from the destination of `d` to its origin, if there is one. -/
def storedInverse (s : Lsdb Lq) (d : TcEdgeEntry Lq) : Option Ptr := do
  let a ← s.tc d.tc
  let b ← s.tc (← olsrLookupTcEntry s d.destAddr)
  Keyed.find a.addr b.edgeTree

/-- The structure of the database in the terms of the code. -/
structure Consistent (s : Lsdb Lq) : Prop where
  /-- a member of an entry's edge tree is an edge of this entry to the member's key -/
  backPointer : ∀ p t b e, s.tc p = some t → (b, e) ∈ t.edgeTree →
    ∃ d, s.edge e = some d ∧ d.tc = p ∧ d.destAddr = b
  /-- an edge that is not freed is stored -/
  stored : ∀ e d, s.edge e = some d → ∃ t, s.tc d.tc = some t ∧ (d.destAddr, e) ∈ t.edgeTree
  inverse : ∀ e d, s.edge e = some d → d.edgeInv = storedInverse s d
  mutual_inverse : ∀ e d f, s.edge e = some d → d.edgeInv = some f → ∃ df, s.edge f = some df ∧ df.edgeInv = some e
  refcount : ∀ p t, s.tc p = some t → t.refcount =
    (if p ∈ s.tcTree.map Prod.snd then 1 else 0) + t.edgeTree.length + t.prefixTree.length
  /-- freed exactly when not in the tree and referred to by nothing -/
  freed : ∀ p, s.tc p = none ↔ p ∉ s.tcTree.map Prod.snd ∧ (∀ e d, s.edge e = some d → d.tc ≠ p) ∧
    ∀ r y, s.rtPath r = some y → y.tc ≠ some p

theorem mem_tcTree_iff (h : Wf s) (p : Ptr) : p ∈ s.tcTree.map Prod.snd ↔ ∃ t, s.tc p = some t := by
  simp only [List.mem_map, Prod.exists, exists_eq_right, h.tcTree.mem]
  constructor
  · rintro ⟨a, ha⟩
    obtain ⟨t, ht, -⟩ := exists_tc_of_addrOf ha
    exact ⟨t, ht⟩
  · rintro ⟨t, ht⟩; exact ⟨t.addr, addrOf_some ht⟩

theorem storedInverse_eq_some_iff (h : Wf s) {d : TcEdgeEntry Lq} {t : TcEntry} (ht : s.tc d.tc = some t) (f : Ptr) :
    storedInverse s d = some f ↔ Inverse s d f := by
  have haddr := addrOf_some ht
  constructor
  · intro hf
    simp only [storedInverse, ht, Option.bind_eq_bind, Option.bind_some] at hf
    obtain ⟨q, hq, hf⟩ := Option.bind_eq_some_iff.1 hf
    obtain ⟨u, hu, hf⟩ := Option.bind_eq_some_iff.1 hf
    obtain ⟨df, hdf, hdtc, hdest⟩ := (h.edgeTree q u hu).find_iff.1 hf
    exact ⟨df, hdf, by rw [haddr, hdest], by rw [hdtc]; exact h.lookup_iff.1 hq⟩
  · rintro ⟨df, hdf, ha, hb⟩
    obtain ⟨u, hu⟩ := h.edgeTc f df hdf
    have hdest : t.addr = df.destAddr := Option.some.inj (haddr.symm.trans ha)
    have hfind : Keyed.find t.addr u.edgeTree = some f :=
      (h.edgeTree df.tc u hu).find_iff.2 ⟨df, hdf, rfl, hdest.symm⟩
    simp [storedInverse, ht, h.lookup_iff.2 hb, hu, hfind]

theorem Wf.consistent (h : Wf s) : Consistent s := by
  refine ⟨?_, ?_, ?_, ?_, ?_, ?_⟩
  · intro p t b e ht hmem
    exact ((h.edgeTree p t ht).mem b e).1 hmem
  · intro e d hd
    obtain ⟨t, ht⟩ := h.edgeTc e d hd
    exact ⟨t, ht, ((h.edgeTree d.tc t ht).mem d.destAddr e).2 ⟨d, hd, rfl, rfl⟩⟩
  · intro e d hd
    obtain ⟨t, ht⟩ := h.edgeTc e d hd
    refine Option.ext fun f => ?_
    rw [h.edgeInv e d hd f, storedInverse_eq_some_iff h ht]
  · intro e d f hd hf
    have hinv := (h.edgeInv e d hd f).1 hf
    obtain ⟨df, hdf, -, -⟩ := id hinv
    exact ⟨df, hdf, (h.edgeInv f df hdf e).2 (inverse_symm hd hdf hinv)⟩
  · intro p t ht
    rw [if_pos ((mem_tcTree_iff h p).2 ⟨t, ht⟩)]
    exact h.refcount p t ht
  · intro p
    constructor
    · intro hp
      refine ⟨?_, ?_, ?_⟩
      · rw [mem_tcTree_iff h]; rintro ⟨t, ht⟩; rw [hp] at ht; cases ht
      · rintro e d hd rfl
        obtain ⟨t, ht⟩ := h.edgeTc e d hd
        rw [hp] at ht; cases ht
      · intro r y hy hyp
        obtain ⟨q, t, hq, ht⟩ := h.rtPathTc r y hy
        obtain rfl : p = q := Option.some.inj (hyp.symm.trans hq)
        rw [hp] at ht; cases ht
    · rintro ⟨hp, -, -⟩
      rw [mem_tcTree_iff h] at hp
      cases ht : s.tc p with
      | none => rfl
      | some t => exact absurd ⟨t, ht⟩ hp

/-- In every reachable database the pointers and reference counts are right, and every allowed
operation is defined there. -/
theorem reachable_consistent (env : Env Lq) (s : Lsdb Lq) (h : Reachable env s) :
    Consistent s ∧ ∀ op, Allowed env s op → ∃ s', apply env s op = some s' := by
  refine ⟨(reachable_wf h).consistent, fun op ha => ?_⟩
  obtain ⟨s', hs', -⟩ := apply_spec env (reachable_wf h) ha
  exact ⟨s', hs'⟩

/-- A configuration in which every link quality is the same. -/
def plainEnv : Env Unit where
  platform := ⟨true, 8⟩
  cnf := ⟨.inet, [10, 0, 0, 1], 2, denyIpv4Defaults⟩
  lq := ⟨.allFour, fun _ => (), fun _ => 1, ()⟩

/-- A database with an edge of the node 10.0.0.1 to itself. -/
theorem reachable_consistent_selfEdge :
    ∃ s, s.edge 2 = some ⟨[10, 0, 0, 1], some 2, 0, 1, 7, ()⟩ ∧ Consistent s :=
  ⟨_, rfl, (reachable_consistent plainEnv _
    (.step (.addEdge 0 [10, 0, 0, 1] 7) (.step (.locate [10, 0, 0, 1]) .init trivial rfl) ⟨_, rfl, rfl⟩ rfl)).1⟩

end Olsrd.Topology
