/-
The relays of `lq_mpr.c`: the symmetric neighbours that are always willing, and for each two hop neighbour the
symmetric neighbours with the best paths to it, whatever their willingness is.
-/
import Olsrd.Lib.FirstBest
import Olsrd.Mpr.Selection

namespace Olsrd.Mpr

open FirstBest (First Ranked)
open Olsrd.Neighbor (Ptr willNever linkCostBroken)

instance linearOrderUInt32 : LinearOrder UInt32 where
  le_refl := UInt32.le_refl
  le_trans _ _ _ := UInt32.le_trans
  lt_iff_le_not_ge _ _ := by rw [UInt32.not_le]; exact ⟨fun h => ⟨UInt32.le_of_lt h, h⟩, fun h => h.2⟩
  le_antisymm _ _ := UInt32.le_antisymm
  le_total := UInt32.le_total
  toDecidableLE := UInt32.decLe
  toDecidableLT := UInt32.decLt

variable {cnf : MprCnf} {t : Tables} {limit : UInt32} {p q w : Ptr}

/-! ## One two hop neighbour -/

/-- The paths to a two hop neighbour over symmetric neighbours that are not skipped, if they are better than the
limit. -/
def paths (t : Tables) (skip : Ptr → Bool) (limit : UInt32) (q : Ptr) : List (Ptr × UInt32) :=
  ((t.twoHop q).nblist.filter fun x => ((t.nbr x.1).sym && !skip x.1) && decide (x.2 < linkCostBroken)).filter
    fun x => decide (x.2 < limit)

theorem betterWalker_eq (t : Tables) (st : MprState) :
    betterWalker t st = FirstBest.better fun n => (t.nbr n).sym && !st.skip n := by
  funext best x
  simp only [betterWalker, FirstBest.better, Bool.and_eq_true, Bool.not_eq_true', and_assoc]

/-- The best path to choose, if there is one. -/
theorem foldl_betterWalker (t : Tables) (st : MprState) (q : Ptr) (limit : UInt32) :
    (∃ n best, (t.twoHop q).nblist.foldl (betterWalker t st) (none, linkCostBroken) = (some n, best) ∧
        best < limit ∧ First (paths t st.skip limit q) (n, best)) ∨
      paths t st.skip limit q = [] ∧
        ∀ n best, (t.twoHop q).nblist.foldl (betterWalker t st) (none, linkCostBroken) = (some n, best) →
          ¬best < limit := by
  rw [betterWalker_eq]
  rcases FirstBest.foldl_better (fun n => (t.nbr n).sym && !st.skip n) linkCostBroken (t.twoHop q).nblist with
    ⟨hr, hnil⟩ | ⟨n, hn, hfirst⟩
  · refine .inr ⟨?_, fun n best h => ?_⟩
    · rw [paths, hnil, List.filter_nil]
    · rw [hr] at h
      nomatch h
  · obtain ⟨r, hr⟩ : ∃ r, r = (t.twoHop q).nblist.foldl
        (FirstBest.better fun n => (t.nbr n).sym && !st.skip n) (none, linkCostBroken) := ⟨_, rfl⟩
    rw [← hr] at hn hfirst ⊢
    obtain ⟨_, best⟩ := r
    obtain rfl : _ = some n := hn
    by_cases hlt : best < limit
    · exact .inl ⟨n, best, rfl, hlt, hfirst.filter (decide_eq_true hlt)⟩
    · refine .inr ⟨List.filter_eq_nil_iff.2 fun x hx => ?_, fun n' best' h => ?_⟩
      · have := hfirst.le x hx
        simpa using (not_lt.1 hlt).trans this
      · obtain ⟨-, rfl⟩ := Prod.mk.inj h
        exact hlt

theorem paths_skip (t : Tables) (skip : Ptr → Bool) (limit : UInt32) (q n : Ptr) :
    paths t (Function.update skip n true) limit q = (paths t skip limit q).filter (·.1 ≠ n) := by
  simp only [paths, List.filter_filter]
  refine List.filter_congr fun x _ => ?_
  by_cases hxn : x.1 = n
  · simp [hxn]
  · simp [hxn, Bool.and_comm, Bool.and_left_comm]

/-- The rounds choose the neighbours that rank before the others. -/
theorem selectRelays_isMpr : ∀ (k : Nat) (x : MprState × Bool),
    (selectRelays t q limit k x).1.isMpr w = true ↔
      x.1.isMpr w = true ∨ Ranked k (paths t x.1.skip limit q) w
  | 0, _ => by simp [selectRelays, FirstBest.not_ranked_zero]
  | k + 1, x => by
    rcases foldl_betterWalker t x.1 q limit with ⟨n, best, hr, hlt, hfirst⟩ | ⟨hnil, hnone⟩
    · have hstep : selectRelays t q limit (k + 1) x = selectRelays t q limit k
          ({ setMpr x.1 n true with skip := Function.update x.1.skip n true }, x.2 || !x.1.wasMpr n) := by
        rw [selectRelays, hr]
        exact if_pos hlt
      rw [hstep, selectRelays_isMpr k, hfirst.ranked_succ, ← paths_skip, ← or_assoc]
      refine or_congr_left ?_
      by_cases hwn : w = n <;> simp [hwn]
    · have hstep : selectRelays t q limit (k + 1) x = x := by
        unfold selectRelays
        split
        · rename_i n best hr
          exact if_neg (hnone n best hr)
        · rfl
      rw [hstep, hnil]
      simp [FirstBest.not_ranked_nil]

/-- The neighbour is one of the best `mpr_coverage` ones for the two hop neighbour. -/
def BestFor (cnf : MprCnf) (t : Tables) (q w : Ptr) : Prop :=
  ∃ limit, best1hop t q = some limit ∧ Ranked cnf.mprCoverage.toNat (paths t (fun _ => false) limit q) w

theorem BestFor.sym (h : BestFor cnf t q w) : (t.nbr w).sym = true := by
  obtain ⟨limit, -, hranked⟩ := h
  obtain ⟨c, hc⟩ := hranked.mem
  have := (List.mem_filter.1 (List.mem_filter.1 hc).1).2
  simp only [Bool.and_eq_true] at this
  exact this.1.1

theorem relayTwoHop_isMpr (x : MprState × Bool) :
    (relayTwoHop cnf t x q).1.isMpr w = true ↔ x.1.isMpr w = true ∨ BestFor cnf t q w := by
  unfold relayTwoHop BestFor
  split
  · rename_i hnone
    simp [hnone]
  · rename_i limit hlimit
    have hpaths : paths t (fun p => if p ∈ (t.twoHop q).nblist.map Prod.fst then false else x.1.skip p) limit q =
        paths t (fun _ => false) limit q := by
      unfold paths
      refine congrArg (List.filter _) (List.filter_congr fun y hy => ?_)
      dsimp only
      rw [if_pos (List.mem_map_of_mem hy)]
    rw [selectRelays_isMpr, hpaths, hlimit]
    simp

theorem foldl_relayTwoHop (cnf : MprCnf) (t : Tables) : ∀ (l : List Ptr) (x : MprState × Bool),
    (l.foldl (relayTwoHop cnf t) x).1.isMpr w = true ↔ x.1.isMpr w = true ∨ ∃ q ∈ l, BestFor cnf t q w
  | [], _ => by simp
  | q :: l, x => by
    rw [List.foldl_cons, foldl_relayTwoHop cnf t l, relayTwoHop_isMpr, or_assoc]
    simp

/-! ## All of them -/

theorem resetLqMpr_isMpr (x : MprState × Bool) (n : Ptr) : (resetLqMpr t x n).1.isMpr =
    Function.update x.1.isMpr n ((t.nbr n).sym && decide ((t.nbr n).willingness = willAlways)) := by
  unfold resetLqMpr
  dsimp only
  split
  · rename_i hc
    have hval : ((t.nbr n).sym && decide ((t.nbr n).willingness = willAlways)) = false := by
      simpa [← Bool.not_eq_true, imp_iff_not_or] using hc
    rw [hval]
    rfl
  · rename_i hc
    have hval : ((t.nbr n).sym && decide ((t.nbr n).willingness = willAlways)) = true := by
      simpa [not_or] using hc
    rw [hval]
    simp

theorem foldl_resetLqMpr (t : Tables) : ∀ (l : List Ptr) (x : MprState × Bool),
    p ∈ l ∨ x.1.isMpr p = ((t.nbr p).sym && decide ((t.nbr p).willingness = willAlways)) →
    (l.foldl (resetLqMpr t) x).1.isMpr p = ((t.nbr p).sym && decide ((t.nbr p).willingness = willAlways))
  | [], _, h => h.resolve_left List.not_mem_nil
  | n :: l, x, h => by
    refine foldl_resetLqMpr t l _ ?_
    rw [resetLqMpr_isMpr]
    by_cases hpn : p = n
    · subst hpn
      exact .inr (Function.update_self ..)
    · rw [Function.update_of_ne hpn]
      exact h.imp_left fun h => (List.mem_cons.1 h).resolve_left hpn

/-- The relays of `lq_mpr.c` are the always willing neighbours and the best ones for the two hop neighbours. -/
theorem olsrCalculateLqMpr_isMpr (st : MprState) (hp : p ∈ t.nbrs) : (olsrCalculateLqMpr cnf t st).isMpr p = true ↔
    ((t.nbr p).sym = true ∧ (t.nbr p).willingness = willAlways) ∨ ∃ q ∈ t.twoHops, BestFor cnf t q p := by
  have hreset := foldl_resetLqMpr t t.nbrs (st, false) (.inl hp)
  have hrelay := foldl_relayTwoHop cnf t (w := p) t.twoHops (t.nbrs.foldl (resetLqMpr t) (st, false))
  rw [hreset, Bool.and_eq_true, decide_eq_true_iff] at hrelay
  rw [← hrelay]
  unfold olsrCalculateLqMpr
  dsimp only
  split <;> rfl

end Olsrd.Mpr
