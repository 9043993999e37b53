/-
The IPv4 gateway that the default handler chooses, and the gateways that `olsr_set_inet_gateway` accepts. With NAT
allowed, the handler only looks at gateways behind NAT, while the setter accepts the others as well.
-/
import Olsrd.Gateway.Invariant
import Olsrd.Lib.FirstBest

namespace Olsrd.Gateway

open Bytes
open Olsrd.Spf (routeCostBroken)

variable {cnf : GwCnf} {s : GwState} {f : Family} {p : GwPtr} {cost : Nat}

/-! ## The cheapest candidate -/

/-- The gateways whose originators have a TC entry, with their path costs. -/
def costed (s : GwState) : List (GwPtr × Nat) :=
  s.tree.filterMap fun e => (s.pathCost (s.mem e.2).originator).map (Prod.mk e.2)

/-- The gateway is in the tree, and there is a route to it. -/
def HasRoute (s : GwState) (p : GwPtr) (cost : Nat) : Prop :=
  p ∈ s.tree.map Prod.snd ∧ s.pathCost (s.mem p).originator = some cost ∧ cost < routeCostBroken

theorem mem_costed : (p, cost) ∈ costed s ↔
    p ∈ s.tree.map Prod.snd ∧ s.pathCost (s.mem p).originator = some cost := by
  unfold costed
  rw [List.mem_filterMap]
  constructor
  · rintro ⟨e, he, heq⟩
    obtain ⟨c, hc, hpair⟩ := Option.map_eq_some_iff.1 heq
    obtain ⟨rfl, rfl⟩ := Prod.mk.inj hpair
    exact ⟨List.mem_map_of_mem he, hc⟩
  · rintro ⟨hp, hc⟩
    obtain ⟨e, he, rfl⟩ := List.mem_map.1 hp
    exact ⟨e, he, by rw [hc]; rfl⟩

theorem foldl_chooseStep_eq (hfin : s.finished f = false) : ∀ (l : List (IpAddr × GwPtr)) (best : Option GwPtr × Nat),
    l.foldl (chooseStep cnf s f) best =
      (l.filterMap fun e => (s.pathCost (s.mem e.2).originator).map (Prod.mk e.2)).foldl
        (FirstBest.better fun p => (s.mem p).candidate cnf f) best
  | [], _ => rfl
  | e :: l, best => by
    rw [List.foldl_cons, foldl_chooseStep_eq hfin l]
    unfold chooseStep
    cases hc : s.pathCost (s.mem e.2).originator with
    | none => rw [List.filterMap_cons_none (by rw [hc]; rfl)]
    | some c =>
      rw [List.filterMap_cons_some (b := (e.2, c)) (by rw [hc]; rfl), List.foldl_cons]
      congr 1
      simp only [hfin, Bool.not_false, Bool.true_and, Bool.and_eq_true, decide_eq_true_eq, FirstBest.better]

/-- The handler chooses the first candidate of lowest cost, if there is a candidate. -/
theorem inetGateway_first (cnf : GwCnf) (hfin : s.finished f = false) :
    (inetGateway cnf s f = none ∧ ∀ p cost, HasRoute s p cost → (s.mem p).candidate cnf f = false) ∨
      ∃ p cost, inetGateway cnf s f = some p ∧ HasRoute s p cost ∧ (s.mem p).candidate cnf f = true ∧
        ∀ q d, HasRoute s q d → (s.mem q).candidate cnf f = true → cost ≤ d := by
  have hmem : ∀ {p cost}, (p, cost) ∈ (costed s).filter (fun x =>
      (s.mem x.1).candidate cnf f && decide (x.2 < routeCostBroken)) ↔
        HasRoute s p cost ∧ (s.mem p).candidate cnf f = true := by
    intro p cost
    rw [List.mem_filter, mem_costed, Bool.and_eq_true, decide_eq_true_eq, HasRoute]
    tauto
  unfold inetGateway
  rw [foldl_chooseStep_eq hfin]
  rcases FirstBest.foldl_better (fun p => (s.mem p).candidate cnf f) routeCostBroken (costed s) with
    ⟨hnone, hnil⟩ | ⟨p, hp, hfirst⟩
  · refine .inl ⟨congrArg Prod.fst hnone, fun p cost hroute => ?_⟩
    by_contra hc
    have hin := hmem.2 ⟨hroute, eq_true_of_ne_false hc⟩
    rw [hnil] at hin
    exact List.not_mem_nil hin
  · obtain ⟨hroute, hcand⟩ := hmem.1 hfirst.mem
    exact .inr ⟨p, _, hp, hroute, hcand, fun q d hq hqc => hfirst.le (q, d) (hmem.2 ⟨hq, hqc⟩)⟩

/-! ## The acceptable gateways -/

/-- A gateway with a route that `olsr_set_inet_gateway` accepts for IPv4. -/
def Acceptable (cnf : GwCnf) (s : GwState) (p : GwPtr) (cost : Nat) : Prop :=
  HasRoute s p cost ∧ (s.mem p).valid cnf .v4 = true

/-- The handler changes to a cheapest acceptable gateway, and finds none only if there is none. -/
structure BestAcceptable (cnf : GwCnf) (s : GwState) : Prop where
  chosen : ∀ p, inetGateway cnf s .v4 = some p → (gwDefaultChooseGateway cnf s).current .v4 = some p ∧
    ∃ cost, Acceptable cnf s p cost ∧ ∀ q d, Acceptable cnf s q d → cost ≤ d
  none : inetGateway cnf s .v4 = none → ∀ p cost, ¬Acceptable cnf s p cost

/-- With NAT allowed, no acceptable gateway is cheaper than all acceptable gateways behind NAT. -/
def NatGatewaysSuffice (cnf : GwCnf) (s : GwState) : Prop :=
  cnf.smartGwAllowNat = true → ∀ p cost, Acceptable cnf s p cost → (s.mem p).ipv4nat = false →
    ∃ q d, Acceptable cnf s q d ∧ (s.mem q).ipv4nat = true ∧ d ≤ cost

theorem candidate_v4_iff {gw : GatewayEntry} : gw.candidate cnf .v4 = true ↔
    gw.valid cnf .v4 = true ∧ (cnf.smartGwAllowNat = true → gw.ipv4nat = true) := by
  cases h4 : gw.ipv4 <;> cases hn : gw.ipv4nat <;> cases ha : cnf.smartGwAllowNat <;>
    simp [GatewayEntry.candidate, GatewayEntry.valid, h4, hn, ha]

/-- An acceptable gateway costs no less than some candidate. -/
theorem NatGatewaysSuffice.candidate (h : NatGatewaysSuffice cnf s) (hp : Acceptable cnf s p cost) :
    ∃ q d, HasRoute s q d ∧ (s.mem q).candidate cnf .v4 = true ∧ d ≤ cost := by
  by_cases hnat : cnf.smartGwAllowNat = true → (s.mem p).ipv4nat = true
  · exact ⟨p, cost, hp.1, candidate_v4_iff.2 ⟨hp.2, hnat⟩, le_refl _⟩
  · obtain ⟨hallow, hno⟩ := Classical.not_imp.1 hnat
    obtain ⟨q, d, hq, hqnat, hle⟩ := h hallow p cost hp (eq_false_of_ne_true hno)
    exact ⟨q, d, hq.1, candidate_v4_iff.2 ⟨hq.2, fun _ => hqnat⟩, hle⟩

/-- Handler and setter agree exactly if the gateways behind NAT suffice. -/
theorem bestAcceptable_iff (cnf : GwCnf) (s : GwState) (hfind : Findable s) (hserves : cnf.serves .v4 = true)
    (hfin : s.finished .v4 = false) : BestAcceptable cnf s ↔ NatGatewaysSuffice cnf s := by
  have hcur := (gwDefaultChooseGateway_spec cnf hfind).2
  constructor
  · rintro ⟨hchosen, hnone⟩ hallow p cost hp hno
    rcases inetGateway_first cnf hfin with ⟨hg, -⟩ | ⟨g, c, hg, hroute, hcand, -⟩
    · exact absurd hp (hnone hg p cost)
    · obtain ⟨-, c', hacc, hmin⟩ := hchosen g hg
      exact ⟨g, c', hacc, (candidate_v4_iff.1 hcand).2 hallow, hmin p cost hp⟩
  · intro h
    rcases inetGateway_first cnf hfin with ⟨hg, hall⟩ | ⟨g, c, hg, hroute, hcand, hmin⟩
    · refine ⟨fun p hp => ?_, fun _ p cost hp => ?_⟩
      · rw [hg] at hp
        cases hp
      · obtain ⟨q, d, hq, hqc, -⟩ := h.candidate hp
        rw [hall q d hq] at hqc
        cases hqc
    · refine ⟨fun p hp => ?_, fun hn => ?_⟩
      · obtain rfl := Option.some.inj (hg.symm.trans hp)
        refine ⟨hcur .v4 g hg hserves, c, ⟨hroute, candidate_valid hcand⟩, fun q d hq => ?_⟩
        obtain ⟨q', d', hq', hqc, hle⟩ := h.candidate hq
        exact (hmin q' d' hq' hqc).trans hle
      · rw [hg] at hn
        cases hn

/-- A gateway announces IPv4 with the flags, and there is a route to it. -/
def routedGateway (flags : UInt8) : List GwEvent :=
  [.update [10, 0, 0, 1] (Mem.write (fun _ => 0) 1 [flags]) 0 1 0,
    .pathCosts fun a => if a = [10, 0, 0, 1] then some 1024 else none]

/-- The only gateway is behind NAT. -/
theorem routedGateway_nat :
    ∃ s, Run.forEach (GwState.step testPlatform testCnf) (routedGateway (flagIpv4 ||| flagIpv4Nat))
    testStart = some s ∧ inetGateway testCnf s .v4 = some 0 ∧ BestAcceptable testCnf s := by
  have hrun : (Run.forEach (GwState.step testPlatform testCnf) (routedGateway (flagIpv4 ||| flagIpv4Nat)) testStart).any
      (fun s => s.finished .v4 == false && inetGateway testCnf s .v4 == some 0 && s.tree.map Prod.snd == [0] &&
        (s.mem 0).ipv4nat) = true := by
    decide +kernel
  obtain ⟨s, hs, hcheck⟩ := (Option.any_eq_true _ _).1 hrun
  simp only [Bool.and_eq_true, beq_iff_eq] at hcheck
  obtain ⟨⟨⟨hfin, hgateway⟩, htree⟩, hnat⟩ := hcheck
  have hfind := (reachable_wf (reachable_run _ hs)).findable
  refine ⟨s, hs, hgateway, (bestAcceptable_iff testCnf s hfind (by decide) hfin).2 fun _ p cost hp hno => ?_⟩
  have hmem := hp.1.1
  rw [htree, List.mem_singleton] at hmem
  rw [hmem, hnat] at hno
  cases hno

/-- A gateway that has no NAT is acceptable, and not chosen. -/
theorem routedGateway_not_bestAcceptable : ∃ s, Run.forEach (GwState.step testPlatform testCnf) (routedGateway flagIpv4)
    testStart = some s ∧ testCnf.serves .v4 = true ∧ s.finished .v4 = false ∧ Findable s ∧
    ¬BestAcceptable testCnf s := by
  have hrun : (Run.forEach (GwState.step testPlatform testCnf) (routedGateway flagIpv4) testStart).any
      (fun s => s.finished .v4 == false && inetGateway testCnf s .v4 == none && s.tree.map Prod.snd == [0] &&
        s.pathCost (s.mem 0).originator == some 1024 && (s.mem 0).valid testCnf .v4) = true := by
    decide +kernel
  obtain ⟨s, hs, hcheck⟩ := (Option.any_eq_true _ _).1 hrun
  simp only [Bool.and_eq_true, beq_iff_eq] at hcheck
  obtain ⟨⟨⟨⟨hfin, hnone⟩, htree⟩, hcost⟩, hvalid⟩ := hcheck
  refine ⟨s, hs, by decide, hfin, (reachable_wf (reachable_run _ hs)).findable, fun h => ?_⟩
  exact h.none hnone 0 1024 ⟨⟨by rw [htree]; decide, hcost, by decide⟩, hvalid⟩

end Olsrd.Gateway
