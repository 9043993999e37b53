/-
Hop counts in `lq_level` 0. No edge gets a cost there, so that all candidates have the same key. The candidate tree
gives equal keys back in the order of their insertion, and an entry with a path is not labelled again: the run is a
breadth first search.
-/
import Olsrd.Spf.Prepare

namespace Olsrd.Spf

open Olsrd.Topology (Lsdb TcEdgeEntry EdgeMap)
open ShortestPath (Graph Walk Least Search)

variable {Lq Hq L : Type} {env : Env Lq Hq} {n n' : Node Lq Hq} {s : Lsdb Lq}

/-! ## Costs -/

/-- The edge has the cost it was allocated with. -/
def Free (d : TcEdgeEntry Lq) : Prop := d.cost = 0

theorem calc_of_rfc {env : Topology.Env Lq} (hlq : env.cnf.lqLevel = 0) (d : TcEdgeEntry Lq) :
    (Topology.olsrCalcTcEdgeEntryEtx env d).1 = d := by
  unfold Topology.olsrCalcTcEdgeEntryEtx
  rw [if_pos (by omega)]

theorem free_newEdge {env : Topology.Env Lq} (hlq : env.cnf.lqLevel = 0) (p : Topology.Ptr) (b : IpAddr)
    (ansn : UInt16) : Free (Topology.newEdge env p b ansn) := by
  unfold Topology.newEdge
  rw [calc_of_rfc hlq]
  rfl

theorem edgeInvariant_free (hlq : env.cnf.lqLevel = 0) : EdgeInvariant env Free := by
  refine ⟨fun _ => .rfl, fun p b q o x ho hx => ?_⟩
  cases q with
  | none => cases hx
  | some quality =>
    cases o with
    | none =>
      obtain rfl := Option.some.inj hx
      exact @free_newEdge _ env.topology hlq p b 0
    | some d =>
      obtain rfl := Option.some.inj hx
      rw [@calc_of_rfc _ env.topology hlq]
      exact ho d rfl

theorem free_recordEdge {env : Topology.Env Lq} (hlq : env.cnf.lqLevel = 0) {p : Topology.Ptr} {ansn : UInt16}
    {msg : Bytes.Mem} {c : Cursor} {o : Option (TcEdgeEntry Lq)} {x : TcEdgeEntry Lq} (ho : ∀ d, o = some d → Free d)
    (hx : Topology.recordEdge env p ansn msg c o = some x) : Free x := by
  unfold Topology.recordEdge at hx
  cases o with
  | none =>
    dsimp only at hx
    split at hx
    · obtain rfl := Option.some.inj hx
      exact free_newEdge hlq p _ ansn
    · cases hx
  | some d =>
    dsimp only at hx
    rw [if_neg (by omega)] at hx
    obtain rfl := Option.some.inj hx
    exact ho d rfl

theorem free_recordWalk {env : Topology.Env Lq} (hlq : env.cnf.lqLevel = 0) (p : Topology.Ptr) (ansn : UInt16)
    (msg : Bytes.Mem) (limit : Nat) (E : EdgeMap Lq) (c : Cursor) (hE : ∀ b x, E b = some x → Free x) :
    ∀ b x, (Topology.recordWalk env p ansn msg limit E c).1 b = some x → Free x := by
  fun_induction Topology.recordWalk env p ansn msg limit E c with
  | case1 E c hlt a rest ih =>
    refine ih fun b x hx => ?_
    by_cases hb : b = a
    · subst hb
      rw [Function.update_self] at hx
      exact free_recordEdge hlq (hE _) hx
    · rw [Function.update_of_ne hb] at hx
      exact hE b x hx
  | case2 E c hlt => exact hE

theorem keeps_free (hlq : env.cnf.lqLevel = 0) (n : Node Lq Hq) (ev : Event Hq) : ev.Keeps env Free n := by
  cases ev with
  | inputTc symLink msg => exact fun _ _ _ p hE => @free_recordWalk _ env.topology hlq p _ msg _ _ _ hE
  | _ => trivial

/-! ## Hops -/

/-- A path over edges with an inverse edge, with its number of hops. -/
inductive HopPath (s : Lsdb Lq) (root : Topology.Ptr) : Topology.Ptr → Nat → Prop
  | nil : HopPath s root root 0
  | snoc {u v : Topology.Ptr} {c k : Nat} : HopPath s root u k → Linked s u v c → HopPath s root v (k + 1)

/-- The least number of hops. -/
def HopDistance (s : Lsdb Lq) (root v : Topology.Ptr) (k : Nat) : Prop :=
  HopPath s root v k ∧ ∀ j, HopPath s root v j → k ≤ j

variable {r u v : Topology.Ptr}

theorem linked_free (hfree : EdgesAll Free s) {c : Nat} (h : Linked s u v c) : c = 0 := by
  obtain ⟨e, d, f, i, hd, -, rfl, -, -, -⟩ := h
  exact hfree e d hd

theorem spfGraph_free (hw : Topology.Wf s) (hfree : EdgesAll Free s) (u v : Topology.Ptr) (c : Nat)
    (h : (v, c) ∈ spfGraph s u) : c = 0 := linked_free hfree ((mem_spfGraph hw).1 h).1

/-- Without costs no edge is broken. -/
theorem hopPath_iff (hw : Topology.Wf s) (hfree : EdgesAll Free s) {k : Nat} :
    HopPath s r v k ↔ ∃ c, Walk (spfGraph s) r v c k := by
  constructor
  · intro h
    induction h with
    | nil => exact ⟨0, .nil⟩
    | @snoc u v c k _ hlink ih =>
      obtain ⟨c', hway⟩ := ih
      obtain rfl := linked_free hfree hlink
      exact ⟨_, hway.snoc ((mem_spfGraph hw).2 ⟨hlink, by decide⟩)⟩
  · rintro ⟨c, h⟩
    induction h with
    | nil => exact .nil
    | snoc _ hmem ih => exact ih.snoc ((mem_spfGraph hw).1 hmem).1

theorem vertex_of_hopPath (hw : Topology.Wf s) (hr : Vertex s r) {k : Nat} (h : HopPath s r v k) : Vertex s v := by
  cases h with
  | nil => exact hr
  | snoc _ hlink => exact vertex_of_linked hw hlink

/-- Without costs the run ends, with the least numbers of hops up to the width of the field. -/
theorem hops_of_free (hw : Topology.Wf s) (hfree : EdgesAll Free s) (hr : Vertex s r) {w : SpfRun L}
    (h : Labels s w (Search.start r w.nextHop)) : ∃ w', w.olsrSpfRunFull s (s.tcTree.length + 1) = some w' ∧
      ∀ v k, HopDistance s r v k → w'.hops v = UInt8.ofNat k := by
  have hzero := spfGraph_free hw hfree
  have hfit : SumsFit s r := by
    rintro u c ⟨⟨k, hway⟩, -⟩ v x hx
    rw [hway.cost_eq_zero hzero, hzero u v x hx]
    decide
  obtain ⟨w', b, hw', hb, hlabels⟩ := olsrSpfRunFull_total hw hr hfit h
  obtain ⟨hinv, hqueue⟩ := (Search.inv_start (spfGraph s) r w.nextHop).run hb
  refine ⟨w', hw', fun v k hk => ?_⟩
  obtain ⟨c, hway⟩ := (hopPath_iff hw hfree).1 hk.1
  obtain ⟨d, hd, -⟩ := hinv.walk_le hqueue hway
  have hle := Search.hops_le_of_free hzero hb hway
  have hge := hk.2 _ ((hopPath_iff hw hfree).2 ⟨d, hinv.walk v d hd⟩)
  rw [hlabels.hops v (vertex_of_hopPath hw hr hk.1), le_antisymm hle hge]

/-! ## Runs -/

/-- In `lq_level` 0 the SPF run of a node ends, and leaves each entry that is less than 256 hops away from `tc_myself`
with its number of hops; the code before the run gets there unless a link leads to a freed neighbour entry. -/
theorem reachable_hops (env : Env Lq Hq) (hlq : env.cnf.lqLevel = 0) (n : Node Lq Hq)
    (h : Reachable env (fun _ _ => True) n) (w : SpfRun Neighbor.Ptr) :
    (LinksLive n.nbh → n.own.tcMyself ≠ none → ∃ x, spfPrepare env n w = some x) ∧
      ∀ n' w₁, spfPrepare env n w = some (n', w₁) → ∃ root w₂, n'.own.tcMyself = some root ∧
        w₁.olsrSpfRunFull n'.own.lsdb (n'.own.lsdb.tcTree.length + 1) = some w₂ ∧
        ∀ v k, HopDistance n'.own.lsdb root v k → k < 256 → (w₂.hops v).toNat = k := by
  have hn := reachable_nodeWf h
  refine ⟨fun hlive hp => ?_, fun n' w₁ hprep => ?_⟩
  · obtain ⟨p, hp⟩ := Option.ne_none_iff_exists'.1 hp
    exact spfPrepare_total hn (reachable_tableWf h) hlive hp w
  · obtain ⟨root, hdone⟩ := spfPrepare_spec hn hprep
    have hfree := (reachable_edgesAll (edgeInvariant_free hlq) (fun n ev _ => keeps_free hlq n ev) h).2 n' hdone.loop
    obtain ⟨w₂, hw₂, hhops⟩ := hops_of_free hdone.nodeWf.lsdb hfree hdone.vertex hdone.labels
    refine ⟨root, w₂, hdone.tcMyself, hw₂, fun v k hk hlt => ?_⟩
    rw [hhops v k hk, UInt8.toNat_ofNat']
    exact Nat.mod_eq_of_lt hlt

/-! ## A run -/

def rfcEnv : Env (UInt8 × UInt8) (UInt8 × UInt8) := { ffEnv with cnf := { ffEnv.cnf with lqLevel := 0 } }

def rfcStart : Option (Node (UInt8 × UInt8) (UInt8 × UInt8)) :=
  (Topology.addMyself rfcEnv.topology (Topology.emptyLsdb (UInt8 × UInt8))).map fun own =>
    ⟨Neighbor.emptyNbh, { own with changesTopology := false }, fun _ => (0, 0)⟩

/-- 10.0.0.2 announces a link to this node. -/
def ownTc : Bytes.Mem := fun i =>
  [202, 0x86, 0, 24, 10, 0, 0, 2, 255, 0, 0, 1, 0, 0, 0, 0, 10, 0, 0, 1, 0, 0, 0, 0].getD i 0

def blankRun : SpfRun Neighbor.Ptr := ⟨fun _ => 0, fun _ => 0, fun _ => none, [], []⟩

/-- 10.0.0.2 announces links to this node and to 10.0.0.3. -/
def middleTc : Bytes.Mem := fun i =>
  [202, 0x86, 0, 32, 10, 0, 0, 2, 255, 0, 0, 1, 0, 0, 0, 0, 10, 0, 0, 1, 0, 0, 0, 0, 10, 0, 0, 3, 0, 0, 0, 0].getD i 0

/-- 10.0.0.3 announces its link to 10.0.0.2. -/
def farTc : Bytes.Mem := fun i =>
  [202, 0x86, 0, 24, 10, 0, 0, 3, 254, 1, 0, 1, 0, 0, 0, 0, 10, 0, 0, 2, 0, 0, 0, 0].getD i 0

/-- A node behind a neighbour is two hops away. -/
theorem reachable_hops_twoHops : ∃ (n' : Node (UInt8 × UInt8) (UInt8 × UInt8)) (w₁ w₂ : SpfRun Neighbor.Ptr)
    (root u v : Topology.Ptr), w₁.olsrSpfRunFull n'.own.lsdb (n'.own.lsdb.tcTree.length + 1) = some w₂ ∧
      Linked n'.own.lsdb root u 0 ∧ HopDistance n'.own.lsdb root v 2 ∧ (w₂.hops v).toNat = 2 := by
  have hrun : (rfcStart.any fun n₀ =>
      (Run.forEach (step rfcEnv) [.nbh (symHello [10, 0, 0, 2]), .inputTc true middleTc, .inputTc true farTc] n₀).any
        fun n => (spfPrepare rfcEnv n blankRun).any fun x => x.1.own.tcMyself == some 0 &&
          spfGraph x.1.own.lsdb 0 == [(2, 0)] && (spfGraph x.1.own.lsdb 2).contains (6, 0)) = true := by decide +kernel
  obtain ⟨n₀, h₀, hrun⟩ := (Option.any_eq_true _ _).1 hrun
  obtain ⟨n, hn, hrun⟩ := (Option.any_eq_true _ _).1 hrun
  obtain ⟨⟨n', w₁⟩, hprep, hrun⟩ := (Option.any_eq_true _ _).1 hrun
  rw [Bool.and_eq_true, Bool.and_eq_true, beq_iff_eq, beq_iff_eq, List.contains_iff_mem] at hrun
  obtain ⟨⟨hp, hone⟩, htwo⟩ := hrun
  have hstart : Start rfcEnv n₀ := by
    obtain ⟨own, hown, rfl⟩ := Option.map_eq_some_iff.1 h₀
    exact ⟨rfl, own, hown, rfl⟩
  have hmiddle : (Topology.headerOf rfcEnv.topology middleTc).originator ≠ rfcEnv.cnf.mainAddr := by decide
  have hfar : (Topology.headerOf rfcEnv.topology farTc).originator ≠ rfcEnv.cnf.mainAddr := by decide
  have hreach : Reachable rfcEnv (fun _ _ => True) n := by
    refine Run.reaches_forEach (.init hstart) ?_ hn
    exact ⟨⟨trivial, trivial⟩, fun _ _ => ⟨⟨hmiddle, trivial⟩, fun _ _ => ⟨⟨hfar, trivial⟩, fun _ _ => trivial⟩⟩⟩
  obtain ⟨root, w₂, hroot, hw₂, hhops⟩ := (reachable_hops rfcEnv rfl n hreach blankRun).2 n' w₁ hprep
  obtain rfl : 0 = root := Option.some.inj (hp.symm.trans hroot)
  obtain ⟨root', hdone⟩ := spfPrepare_spec (reachable_nodeWf hreach) hprep
  have hw := hdone.nodeWf.lsdb
  have hfirst : Linked n'.own.lsdb 0 2 0 := ((mem_spfGraph hw).1 (hone ▸ List.mem_singleton.2 rfl)).1
  have hsecond : Linked n'.own.lsdb 2 6 0 := ((mem_spfGraph hw).1 htwo).1
  have hdist : HopDistance n'.own.lsdb 0 6 2 := by
    refine ⟨(HopPath.nil.snoc hfirst).snoc hsecond, fun j hj => ?_⟩
    cases hj with
    | snoc hpath hlink =>
      cases hpath with
      | nil =>
        -- the only link of this node leads to the neighbour
        have hfree := (reachable_edgesAll (edgeInvariant_free rfl) (fun n ev _ => keeps_free rfl n ev) hreach).2
          n' hdone.loop
        obtain rfl := linked_free hfree hlink
        have hmem := (mem_spfGraph hw).2 ⟨hlink, by decide⟩
        rw [hone, List.mem_singleton] at hmem
        cases hmem
      | snoc _ _ => exact Nat.le_add_left ..
  exact ⟨n', w₁, w₂, 0, 2, 6, hw₂, hfirst, hdist, hhops 6 2 hdist (by decide)⟩

end Olsrd.Spf
