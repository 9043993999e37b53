/-
What `lq_mpr.c` chooses for a two hop neighbour: of the symmetric neighbours whose paths to it work and beat the best
direct link, as many of the cheapest as the coverage asks for.
-/
import Olsrd.Mpr.LqRelays
import Olsrd.Neighbor.CrossLinks

namespace Olsrd.Mpr

open FirstBest (Cheapest Ranked chosen)
open Olsrd.Neighbor (Ptr linkCostBroken)

variable {cnf : MprCnf} {t : Tables} {st : MprState} {p q : Ptr}

/-! ## Candidates -/

/-- What a path to the two hop neighbour has to cost less than; a symmetric neighbour without a link has no limit. -/
def directLimit (t : Tables) (q : Ptr) : Option UInt32 :=
  match t.lookup (t.twoHop q).addr with
  | some n => if (t.nbr n).sym then t.bestLinkcost n else some linkCostBroken
  | none => some linkCostBroken

/-- The neighbours that can be chosen for the two hop neighbour, with their path costs. -/
def candidates (t : Tables) (q : Ptr) : List (Ptr × UInt32) :=
  match directLimit t q with
  | some limit => (t.twoHop q).nblist.filter fun x =>
    (t.nbr x.1).sym && decide (x.2 < linkCostBroken) && decide (x.2 < limit)
  | none => []

theorem paths_eq (t : Tables) (limit : UInt32) (q : Ptr) : paths t (fun _ => false) limit q =
    (t.twoHop q).nblist.filter fun x => (t.nbr x.1).sym && decide (x.2 < linkCostBroken) && decide (x.2 < limit) := by
  rw [paths, List.filter_filter]
  refine List.filter_congr fun x _ => ?_
  rw [Bool.not_false, Bool.and_true, Bool.and_comm]

theorem directLimit_of_best1hop {limit : UInt32} (h : best1hop t q = some limit) : directLimit t q = some limit := by
  unfold best1hop at h
  unfold directLimit
  cases hn : t.lookup (t.twoHop q).addr with
  | none => simpa only [hn] using h
  | some n =>
    simp only [hn] at h ⊢
    by_cases hsym : (t.nbr n).sym = true
    · rw [if_pos hsym] at h ⊢
      cases hcost : t.bestLinkcost n with
      | none => simp only [hcost] at h; nomatch h
      | some cost =>
        simp only [hcost] at h
        split at h
        · exact h
        · nomatch h
    · rw [if_neg hsym] at h ⊢
      exact h

/-- A two hop neighbour that is passed over has no candidates. -/
theorem candidates_of_best1hop (h : best1hop t q = none) : candidates t q = [] := by
  unfold best1hop at h
  unfold candidates directLimit
  cases hn : t.lookup (t.twoHop q).addr with
  | none => simp only [hn] at h; nomatch h
  | some n =>
    simp only [hn] at h ⊢
    by_cases hsym : (t.nbr n).sym = true
    · rw [if_pos hsym] at h ⊢
      cases hcost : t.bestLinkcost n with
      | none => rfl
      | some cost =>
        simp only [hcost] at h ⊢
        split at h
        · nomatch h
        · rename_i hnone
          refine List.filter_eq_nil_iff.2 fun x hx hc => hnone ?_
          exact List.any_eq_true.2 ⟨x, hx, (Bool.and_eq_true_iff.1 hc).2⟩
    · rw [if_neg hsym] at h
      nomatch h

/-- The choice for one two hop neighbour. -/
theorem bestFor_iff : BestFor cnf t q p ↔ p ∈ chosen cnf.mprCoverage.toNat (candidates t q) := by
  rw [FirstBest.mem_chosen]
  unfold BestFor
  cases hlimit : best1hop t q with
  | none =>
    rw [candidates_of_best1hop hlimit]
    refine iff_of_false ?_ FirstBest.not_ranked_nil
    rintro ⟨limit, h, -⟩
    nomatch h
  | some limit =>
    have hcand : candidates t q = paths t (fun _ => false) limit q := by
      unfold candidates
      rw [directLimit_of_best1hop hlimit, paths_eq]
    rw [hcand]
    constructor
    · rintro ⟨limit', h, hranked⟩
      obtain rfl := Option.some.inj h
      exact hranked
    · exact fun h => ⟨limit, rfl, h⟩

/-! ## The choice -/

/-- The lists of neighbours and two hop neighbours agree, and name an entry once. -/
structure CrossLinked (t : Tables) : Prop where
  mirror : ∀ p ∈ t.nbrs, ∀ q ∈ t.twoHops, q ∈ (t.nbr p).twoHops ↔ p ∈ (t.twoHop q).nblist.map Prod.fst
  nodup : ∀ q ∈ t.twoHops, ((t.twoHop q).nblist.map Prod.fst).Nodup

theorem nodup_candidates (hnodup : ((t.twoHop q).nblist.map Prod.fst).Nodup) :
    ((candidates t q).map Prod.fst).Nodup := by
  unfold candidates
  split
  · exact hnodup.sublist (List.filter_sublist.map Prod.fst)
  · exact List.nodup_nil

/-- `is_mpr` marks the symmetric neighbours that are always willing, and the chosen candidates. -/
theorem isMpr_iff_chosen (cnf : MprCnf) (st : MprState)
    (hnodup : ∀ q ∈ t.twoHops, ((t.twoHop q).nblist.map Prod.fst).Nodup) :
    (∀ q ∈ t.twoHops, Cheapest cnf.mprCoverage.toNat (candidates t q) (chosen cnf.mprCoverage.toNat (candidates t q))) ∧
      ∀ p ∈ t.nbrs, (olsrCalculateLqMpr cnf t st).isMpr p = true ↔
        ((t.nbr p).sym = true ∧ (t.nbr p).willingness = willAlways) ∨
          ∃ q ∈ t.twoHops, p ∈ chosen cnf.mprCoverage.toNat (candidates t q) := by
  refine ⟨fun q hq => FirstBest.cheapest_chosen _ (nodup_candidates (hnodup q hq)), fun p hp => ?_⟩
  simp only [olsrCalculateLqMpr_isMpr st hp, bestFor_iff]

/-- The relays are the symmetric neighbours that are always willing, and the cheapest candidates of each two hop
neighbour. -/
theorem lqRelays_cheapest (cnf : MprCnf) (t : Tables) (st : MprState) (ht : CrossLinked t) :
    ∃ choice : Ptr → Finset Ptr,
      (∀ q ∈ t.twoHops, Cheapest cnf.mprCoverage.toNat (candidates t q) (choice q)) ∧
      ∀ p ∈ t.nbrs, (olsrCalculateLqMpr cnf t st).isMpr p = true ↔
        ((t.nbr p).sym = true ∧ (t.nbr p).willingness = willAlways) ∨ ∃ q ∈ t.twoHops, p ∈ choice q :=
  ⟨fun q => chosen cnf.mprCoverage.toNat (candidates t q), isMpr_iff_chosen cnf st ht.nodup⟩

/-- Two neighbours reach one two hop neighbour. -/
def twoRelays : Tables where
  nbrs := [1, 2]
  nbr _ := ⟨true, 3, [10]⟩
  twoHops := [10]
  twoHop _ := ⟨[10, 0, 0, 9], 2, [(1, 3000), (2, 2000)]⟩
  lookup _ := none
  bestLinkcost _ := none

theorem lqRelays_cheapest_twoRelays : CrossLinked twoRelays ∧ ∃ choice : Ptr → Finset Ptr,
    (∀ q ∈ twoRelays.twoHops, Cheapest 1 (candidates twoRelays q) (choice q)) ∧
      ∀ p ∈ twoRelays.nbrs, (olsrCalculateLqMpr ⟨1, 2⟩ twoRelays noMprs).isMpr p = true ↔
        ((twoRelays.nbr p).sym = true ∧ (twoRelays.nbr p).willingness = willAlways) ∨
          ∃ q ∈ twoRelays.twoHops, p ∈ choice q :=
  have ht : CrossLinked twoRelays := ⟨by decide, by decide⟩
  ⟨ht, lqRelays_cheapest ⟨1, 2⟩ twoRelays noMprs ht⟩

/-! ## The tables of a node -/

section
open Olsrd.Neighbor

/-- The cost of the best link to a neighbour. -/
def bestCost (env : Env) (s : Nbh) (p : Ptr) : Option UInt32 := do
  let e ← s.nbr p
  let best ← getBestLinkToNeighbor env s e.mainAddr
  best.map LinkEntry.linkcost

/-- What the selection reads of the neighbourhood of a node. -/
def tablesOf (env : Env) (s : Nbh) : Tables where
  nbrs := (List.range 128).flatMap s.nbrTable
  nbr p := ⟨((s.nbr p).map NeighborEntry.sym).getD false, ((s.nbr p).map NeighborEntry.willingness).getD willNever,
    hops s p⟩
  twoHops := (List.range 128).flatMap s.nbr2Table
  twoHop q := ⟨((s.nbr2 q).map Neighbor2Entry.addr).getD [], ((s.nbr2 q).map fun t => t.pointer.toInt).getD 0,
    (nblistOf s q).map fun y => (y.neighbor, y.pathLinkcost)⟩
  lookup := olsrLookupNeighborTable s
  bestLinkcost := bestCost env s

theorem backs_tablesOf (env : Env) (s : Nbh) (q : Ptr) :
    ((tablesOf env s).twoHop q).nblist.map Prod.fst = backs s q := by
  simp only [tablesOf, List.map_map]
  rfl

/-- The tables of a node agree while its lists do. -/
theorem crossLinked_tablesOf {env : Env} {s : Nbh} (h : Neighbor.CrossLinked s) : CrossLinked (tablesOf env s) where
  mirror p _ q _ := by
    rw [backs_tablesOf]
    exact h.mirror p q
  nodup q _ := by
    rw [backs_tablesOf]
    exact h.backsNodup q

/-- In every run in which the lists of a node stay in agreement, its selection takes the cheapest candidates. -/
theorem reachable_isMpr {env : Env} {s : Nbh} (h : Neighbor.Reachable env (CrossOk env) s) (cnf : MprCnf)
    (st : MprState) {q : Ptr} (hq : q ∈ (tablesOf env s).twoHops) :
    Cheapest cnf.mprCoverage.toNat (candidates (tablesOf env s) q)
        (chosen cnf.mprCoverage.toNat (candidates (tablesOf env s) q)) ∧
      ∀ p ∈ (tablesOf env s).nbrs, p ∈ chosen cnf.mprCoverage.toNat (candidates (tablesOf env s) q) →
        (olsrCalculateLqMpr cnf (tablesOf env s) st).isMpr p = true := by
  have ht := @crossLinked_tablesOf env s (reachable_twoHopWf h).toCrossLinked
  obtain ⟨hcheapest, hiff⟩ := isMpr_iff_chosen cnf st ht.nodup
  exact ⟨hcheapest q hq, fun p hp hchosen => (hiff p hp).2 (.inr ⟨q, hq, hchosen⟩)⟩

end

end Olsrd.Mpr
