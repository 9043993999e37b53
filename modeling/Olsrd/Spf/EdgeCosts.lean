/-
The cost of an edge is a cached function of its link quality. The paths that write a link quality compute
the cost again, except one: a TC message that announces an edge for the first time stores the quality
behind the computation, so that the edge keeps the cost of the zeroed quality.
-/
import Olsrd.Spf.EdgesAll

namespace Olsrd.Spf

open Olsrd.Topology (Lsdb TcEdgeEntry EdgeMap edgeAt edgeAt_eq_some_iff)

variable {Lq Hq : Type} {env : Env Lq Hq} {n n' : Node Lq Hq} {s s' : Lsdb Lq}

/-! ## Costs -/

/-- The cost of an edge is that of its link quality. -/
def CostRight (lq : Topology.LqHandler Lq) (d : TcEdgeEntry Lq) : Prop := d.cost = lq.calcTcCost d.linkquality

/-- The costs of all stored edges are those of their link qualities. -/
def CostsRight (lq : Topology.LqHandler Lq) (s : Lsdb Lq) : Prop := ∀ e d, s.edge e = some d → CostRight lq d

/-- `olsr_calc_tc_edge_entry_etx` -/
theorem costRight_calc {env : Topology.Env Lq} (hlq : 1 ≤ env.cnf.lqLevel) (d : TcEdgeEntry Lq) :
    CostRight env.lq (Topology.olsrCalcTcEdgeEntryEtx env d).1 := by
  unfold Topology.olsrCalcTcEdgeEntryEtx
  rw [if_neg (by omega)]
  rfl

/-- A new edge has the cost of the zeroed quality. -/
theorem newEdge_of_lq {env : Topology.Env Lq} (hlq : 1 ≤ env.cnf.lqLevel) (p : Topology.Ptr) (b : IpAddr)
    (ansn : UInt16) : (Topology.newEdge env p b ansn).cost = env.lq.calcTcCost env.lq.zeroLq ∧
      (Topology.newEdge env p b ansn).linkquality = env.lq.zeroLq := by
  unfold Topology.newEdge Topology.olsrCalcTcEdgeEntryEtx
  rw [if_neg (by omega)]
  exact ⟨rfl, rfl⟩

/-! ## The neighbour loop -/

theorem costRight_ownEdge (hlq : 1 ≤ env.cnf.lqLevel) (p : Topology.Ptr) (b : IpAddr) {q : Option Hq}
    {o : Option (TcEdgeEntry Lq)} {x : TcEdgeEntry Lq} (hx : ownEdge env p b q o = some x) : CostRight env.lq x := by
  cases q with
  | none => cases hx
  | some quality =>
    cases o with
    | none =>
      obtain rfl := Option.some.inj hx
      obtain ⟨hcost, hzero⟩ := @newEdge_of_lq _ env.topology hlq p b 0
      exact hcost.trans (congrArg env.lq.calcTcCost hzero.symm)
    | some d =>
      obtain rfl := Option.some.inj hx
      exact @costRight_calc _ env.topology hlq _

/-- A round of the neighbour loop computes the cost of the edge that it makes or changes. -/
theorem edgeInvariant_costRight (hlq : 1 ≤ env.cnf.lqLevel) : EdgeInvariant env (CostRight env.lq) :=
  ⟨fun _ => .rfl, fun p b _ _ _ _ hx => costRight_ownEdge hlq p b hx⟩

/-! ## TC messages -/

/-- A record that announces an edge for the first time carries a link quality of the same cost as the zeroed one;
so do the records behind it. `E` is what is known of the originator's edges. -/
def NewRecordsMatch (env : Topology.Env Lq) (p : Topology.Ptr) (ansn : UInt16) (msg : Bytes.Mem) (limit : Nat)
    (E : EdgeMap Lq) (c : Cursor) : Prop :=
  if c.curr < limit then
    let a := Topology.recordAddr env msg c
    (E a = none → olsrValidateAddress env.cnf a = true →
      env.lq.calcTcCost (Topology.recordLq env msg c) = env.lq.calcTcCost env.lq.zeroLq) ∧
    NewRecordsMatch env p ansn msg limit (Function.update E a (Topology.recordEdge env p ansn msg c (E a)))
      (Topology.recordCursor env msg c (E a))
  else True
termination_by limit - c.curr
decreasing_by
  have := Topology.recordCursor_curr env msg c (E (Topology.recordAddr env msg c))
  have := env.cnf.ipsize_pos
  omega

theorem costRight_recordEdge {env : Topology.Env Lq} (hlq : 1 ≤ env.cnf.lqLevel) {p : Topology.Ptr} {ansn : UInt16}
    {msg : Bytes.Mem} {c : Cursor} {o : Option (TcEdgeEntry Lq)} {x : TcEdgeEntry Lq}
    (hnew : o = none → olsrValidateAddress env.cnf (Topology.recordAddr env msg c) = true →
      env.lq.calcTcCost (Topology.recordLq env msg c) = env.lq.calcTcCost env.lq.zeroLq)
    (hx : Topology.recordEdge env p ansn msg c o = some x) : CostRight env.lq x := by
  cases o with
  | none =>
    unfold Topology.recordEdge at hx
    dsimp only at hx
    split at hx
    · rename_i hval
      obtain rfl := Option.some.inj hx
      exact (newEdge_of_lq hlq p _ ansn).1.trans (hnew rfl hval).symm
    · cases hx
  | some d =>
    unfold Topology.recordEdge at hx
    dsimp only at hx
    rw [if_pos (by omega)] at hx
    obtain rfl := Option.some.inj hx
    exact costRight_calc hlq _

theorem costsRight_recordWalk {env : Topology.Env Lq} (hlq : 1 ≤ env.cnf.lqLevel) (p : Topology.Ptr) (ansn : UInt16)
    (msg : Bytes.Mem) (limit : Nat) (E : EdgeMap Lq) (c : Cursor) (hE : ∀ b x, E b = some x → CostRight env.lq x)
    (hmatch : NewRecordsMatch env p ansn msg limit E c) :
    ∀ b x, (Topology.recordWalk env p ansn msg limit E c).1 b = some x → CostRight env.lq x := by
  fun_induction Topology.recordWalk env p ansn msg limit E c with
  | case1 E c hlt a rest ih =>
    rw [NewRecordsMatch, if_pos hlt] at hmatch
    refine ih (fun b x hx => ?_) hmatch.2
    by_cases hb : b = a
    · subst hb
      rw [Function.update_self] at hx
      exact costRight_recordEdge hlq hmatch.1 hx
    · rw [Function.update_of_ne hb] at hx
      exact hE b x hx
  | case2 E c hlt => exact hE

/-- If the message is accepted, its records meet `NewRecordsMatch`. -/
def TcMatches (env : Topology.Env Lq) (s : Lsdb Lq) (symLink : Bool) (msg : Bytes.Mem) : Prop :=
  Topology.IsTc msg → symLink = true → Topology.GateOpen s (Topology.headerOf env msg) → ∀ p,
    NewRecordsMatch env p (Topology.headerOf env msg).ansn msg (Topology.headerOf env msg).size
      (Topology.edgesFrom s (Topology.headerOf env msg).originator) (Topology.headerOf env msg).cursor

/-- The event creates no edge behind whose back the cost changes. -/
def CostsKept (env : Env Lq Hq) (n : Node Lq Hq) : Event Hq → Prop
  | .inputTc symLink msg => TcMatches env.topology n.own.lsdb symLink msg
  | _ => True

theorem CostsKept.keeps (hlq : 1 ≤ env.cnf.lqLevel) {ev : Event Hq} (h : CostsKept env n ev) :
    ev.Keeps env (CostRight env.lq) n := by
  cases ev with
  | inputTc symLink msg =>
    intro htc hsym hgate p hE
    exact @costsRight_recordWalk _ env.topology hlq p _ msg _ _ _ hE (h htc hsym hgate p)
  | _ => trivial

/-- As long as a TC message that announces an edge for the first time carries a link quality of the same cost as
the zeroed one, the cost of every stored edge is that of its link quality, in every state and for every SPF run. -/
theorem reachable_costs (env : Env Lq Hq) (hlq : 1 ≤ env.cnf.lqLevel) (n : Node Lq Hq)
    (h : Reachable env (CostsKept env) n) :
    CostsRight env.lq n.own.lsdb ∧ ∀ n', neighborLoop env n = some n' → CostsRight env.lq n'.own.lsdb :=
  reachable_edgesAll (edgeInvariant_costRight hlq) (fun _ _ hok => hok.keeps hlq) h

/-- The first message of 10.0.0.2, which announces a link to 10.0.0.3. -/
def firstTc (quality : UInt8) : Bytes.Mem := fun i =>
  [202, 0x86, 0, 24, 10, 0, 0, 2, 255, 0, 0, 1, 0, 0, 0, 0, 10, 0, 0, 3, quality, quality, 0, 0].getD i 0

theorem header_firstTc (quality : UInt8) :
    (Topology.headerOf ffEnv.topology (firstTc quality)).originator = [10, 0, 0, 2] ∧
      (Topology.headerOf ffEnv.topology (firstTc quality)).size = 24 ∧
      (Topology.headerOf ffEnv.topology (firstTc quality)).cursor.curr = 16 := by
  refine ⟨rfl, ?_, rfl⟩
  show (0 : UInt8).toNat * 256 + (24 : UInt8).toNat = 24
  rfl

/-- A node that has just been started, and what it knows of 10.0.0.2. -/
theorem exists_start : ∃ n₀ : Node (UInt8 × UInt8) (UInt8 × UInt8), Start ffEnv n₀ ∧
    Topology.olsrLookupTcEntry n₀.own.lsdb [10, 0, 0, 2] = none := by
  obtain ⟨own, hown, hno⟩ : ∃ own, Topology.addMyself ffEnv.topology (Topology.emptyLsdb (UInt8 × UInt8)) = some own ∧
      Topology.olsrLookupTcEntry own.lsdb [10, 0, 0, 2] = none := ⟨_, rfl, rfl⟩
  exact ⟨⟨Neighbor.emptyNbh, { own with changesTopology := false }, fun _ => (0, 0)⟩, ⟨rfl, own, hown, rfl⟩, hno⟩

/-- The node accepts the message, and stores its link quality. -/
theorem accepted_firstTc (quality : UInt8) {n₀ : Node (UInt8 × UInt8) (UInt8 × UInt8)} (hstart : Start ffEnv n₀)
    (hno : Topology.olsrLookupTcEntry n₀.own.lsdb [10, 0, 0, 2] = none) :
    ∃ n, step ffEnv n₀ (.inputTc true (firstTc quality)) = some n ∧
      ∃ e d, n.own.lsdb.edge e = some d ∧ d.linkquality = (quality, quality) := by
  have hn₀ := (start_spec hstart).1
  have hgate : Topology.GateOpen n₀.own.lsdb (Topology.headerOf ffEnv.topology (firstTc quality)) := by
    intro p t hp
    rw [(header_firstTc quality).1, hno] at hp; cases hp
  obtain ⟨r, p, hr, hacc⟩ :=
    Topology.olsrInputTc_accepted ffEnv.topology hn₀.lsdb hn₀.ordered (.inl rfl) hgate fun _ => rfl
  refine ⟨n₀.setLsdb r.db, by simp only [step]; rw [hr]; rfl, ?_⟩
  have hclean : ¬ (Topology.headerOf ffEnv.topology (firstTc quality)).cleansUp := fun h => absurd h.1 (by
    rw [(header_firstTc quality).2.1, (header_firstTc quality).2.2]; decide)
  have hedges := hacc.edges hclean
  have hborders : ∀ addrs,
      Topology.tcBorders ffEnv.topology (Topology.headerOf ffEnv.topology (firstTc quality)) addrs = none := by
    intro addrs
    unfold Topology.tcBorders
    cases Topology.bordersAfter none addrs <;> rfl
  have hfrom : Topology.edgesFrom n₀.own.lsdb (Topology.headerOf ffEnv.topology (firstTc quality)).originator =
      fun _ => none := by
    rw [(header_firstTc quality).1]
    unfold Topology.edgesFrom
    rw [hno]
  rw [hborders, hfrom] at hedges
  unfold Topology.tcRecords at hedges
  have hcursor : (Topology.recordCursor ffEnv.topology (firstTc quality)
      (Topology.headerOf ffEnv.topology (firstTc quality)).cursor none).curr = 24 := rfl
  rw [(header_firstTc quality).2.1, Topology.recordWalk,
    if_pos (by rw [(header_firstTc quality).2.2]; decide)] at hedges
  simp only [Topology.revokeWithin, Topology.recordWalk_of_ge _ _ _ _ _ hcursor.ge] at hedges
  have hedge := congrFun hedges (Topology.recordAddr ffEnv.topology (firstTc quality)
    (Topology.headerOf ffEnv.topology (firstTc quality)).cursor)
  rw [Function.update_self] at hedge
  obtain ⟨x, hx, hquality⟩ : ∃ x, Topology.recordEdge ffEnv.topology p
      (Topology.headerOf ffEnv.topology (firstTc quality)).ansn (firstTc quality)
      (Topology.headerOf ffEnv.topology (firstTc quality)).cursor none = some x ∧
      x.linkquality = (quality, quality) := ⟨_, rfl, rfl⟩
  rw [hx] at hedge
  unfold Topology.edgesFrom at hedge
  cases hl : Topology.olsrLookupTcEntry r.db (Topology.headerOf ffEnv.topology (firstTc quality)).originator with
  | none => rw [hl] at hedge; cases hedge
  | some q =>
    rw [hl] at hedge
    obtain ⟨-, -, e, he⟩ := (edgeAt_eq_some_iff hacc.wf).1 hedge
    obtain ⟨d, hd, rfl⟩ := Option.map_eq_some_iff.1 he
    exact ⟨e, d, hd, hquality⟩

/-- A message that announces a link of a quality too low to be used, which has the cost of zero. -/
theorem reachable_costs_unusableLink : ∃ n : Node (UInt8 × UInt8) (UInt8 × UInt8),
    (∃ e d, n.own.lsdb.edge e = some d ∧ d.linkquality = (10, 10)) ∧ CostsRight ffEnv.lq n.own.lsdb := by
  obtain ⟨n₀, hstart, hno⟩ := exists_start
  obtain ⟨n, hstep, e, d, hd, hquality⟩ := accepted_firstTc 10 hstart hno
  have hfirst : (Topology.headerOf ffEnv.topology (firstTc 10)).originator ≠ ffEnv.cnf.mainAddr := by
    rw [(header_firstTc 10).1]; decide
  refine ⟨n, ⟨e, d, hd, hquality⟩, (reachable_costs ffEnv (by decide) n ?_).1⟩
  refine .step (.inputTc true (firstTc 10)) (.init hstart) ⟨hfirst, fun _ _ _ p => ?_⟩ hstep
  rw [(header_firstTc 10).2.1, NewRecordsMatch, if_pos (by rw [(header_firstTc 10).2.2]; decide)]
  refine ⟨fun _ _ => rfl, ?_⟩
  have hcursor : (Topology.recordCursor ffEnv.topology (firstTc 10)
      (Topology.headerOf ffEnv.topology (firstTc 10)).cursor
      (Topology.edgesFrom n₀.own.lsdb (Topology.headerOf ffEnv.topology (firstTc 10)).originator
        (Topology.recordAddr ffEnv.topology (firstTc 10)
          (Topology.headerOf ffEnv.topology (firstTc 10)).cursor))).curr = 24 := by
    rw [(header_firstTc 10).1, show Topology.edgesFrom n₀.own.lsdb [10, 0, 0, 2] = fun _ => none by
      unfold Topology.edgesFrom; rw [hno]]
    rfl
  rw [NewRecordsMatch, if_neg (by rw [hcursor]; decide)]
  trivial

end Olsrd.Spf
