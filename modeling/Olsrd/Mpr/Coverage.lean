/-
Which two hop neighbours `mpr.c` covers. The counters decide: a neighbour is chosen for sure if its counter starts above
all that other relays can take off, and the optimization leaves it for sure if one of its two hop neighbours can have no
more relays than `mpr_coverage`. Neighbours of which this is not known may hide one another, or be removed together.
-/
import Olsrd.Mpr.Counters

namespace Olsrd.Mpr

open Olsrd.Neighbor (Ptr willNever)

variable {cnf : MprCnf} {t : Tables} {p q : Ptr}

/-- Symmetric, and willing to be a relay. -/
def willing (t : Tables) (p : Ptr) : Bool := (t.nbr p).sym && (t.nbr p).willingness != willNever

/-- Each two hop neighbour that is no symmetric neighbour has the relays that `mpr_coverage` asks for, or as many as
it has willing neighbours. -/
def MprCovered (cnf : MprCnf) (t : Tables) (st : MprState) : Prop :=
  ∀ q ∈ t.twoHops, isSymNeighbor t q = false →
    min cnf.mprCoverage.toNat ((reachedBy t q).countP (willing t)) ≤ relayCount t st q

/-! ## What is known of the choice -/

/-- Of a willingness that is chosen, and symmetric or with a count carried over. -/
def choosable (t : Tables) (p : Ptr) : Bool :=
  decide (0 < (t.nbr p).willingness) && decide ((t.nbr p).willingness ≤ willAlways) &&
    ((t.nbr p).sym || decide ((t.nbr p).willingness < willAlways ∧ 0 < startCount t p))

theorem choosable_iff : choosable t p = true ↔ 0 < (t.nbr p).willingness ∧ (t.nbr p).willingness ≤ willAlways ∧
    ((t.nbr p).sym = true ∨ (t.nbr p).willingness < willAlways ∧ 0 < startCount t p) := by
  simp [choosable, and_assoc]

/-- The relays that a two hop neighbour can get beyond `mpr_coverage`. -/
def surplus (cnf : MprCnf) (t : Tables) (q : Ptr) : Nat :=
  (reachedBy t q).countP (choosable t) - cnf.mprCoverage.toNat

/-- A neighbour that is chosen whatever else is: it is always willing, or not symmetric (nothing is taken off its
counter then), or alone at a two hop neighbour, or its counter stays above 0. -/
def surelyChosen (cnf : MprCnf) (t : Tables) (p : Ptr) : Bool :=
  choosable t p && (decide ((t.nbr p).willingness = willAlways) || !(t.nbr p).sym ||
    (toCover t p).any (fun q => (t.twoHop q).nblist.length == 1) ||
    decide (((toCover t p).map (surplus cnf t)).sum < startCount t p))

/-- A relay that the optimization leaves: it is always willing, or has a two hop neighbour that cannot get more relays
than `mpr_coverage`. -/
def spared (cnf : MprCnf) (t : Tables) (p : Ptr) : Bool :=
  decide ((t.nbr p).willingness = willAlways) ||
    (toCover t p).any fun q => decide ((reachedBy t q).countP (choosable t) ≤ cnf.mprCoverage.toNat)

/-- The neighbours that are chosen and left for sure are enough. -/
def Provided (cnf : MprCnf) (t : Tables) : Prop :=
  ∀ q ∈ t.twoHops, isSymNeighbor t q = false →
    min cnf.mprCoverage.toNat ((reachedBy t q).countP (willing t)) ≤
      (reachedBy t q).countP fun p => surelyChosen cnf t p && spared cnf t p

/-- It is known which relays the optimization leaves: two hop neighbours that can get more relays than `mpr_coverage` do
so, and those that it spares have been chosen. -/
structure Decided (cnf : MprCnf) (t : Tables) : Prop where
  surplus : ∀ q ∈ t.twoHops, isSymNeighbor t q = false → cnf.mprCoverage.toNat < (reachedBy t q).countP (choosable t) →
    cnf.mprCoverage.toNat < (reachedBy t q).countP (surelyChosen cnf t)
  chosen : ∀ p ∈ t.nbrs, choosable t p = true → spared cnf t p = true → surelyChosen cnf t p = true
  small : ∀ q ∈ t.twoHops, isSymNeighbor t q = false → (reachedBy t q).countP (choosable t) < 256

/-! ## The choice -/

/-- The state of the choice. -/
structure Choosing (cnf : MprCnf) (t : Tables) (x : MprState × UInt16) : Prop where
  relay : ∀ p ∈ t.nbrs, x.1.isMpr p = true → choosable t p = true
  counted : Counted cnf t (startCount t) (relayCount t x.1) x.1
  count : x.2.toNat ≤ coverSum t (t.nbrs.filter x.1.isMpr)

theorem Choosing.chosen (ht : TablesWf t) {x : MprState × UInt16} (h : Choosing cnf t x) (hp : p ∈ t.nbrs)
    (hnew : x.1.isMpr p = false) (hcan : choosable t p = true) : Choosing cnf t (olsrChosenMpr cnf t x p) where
  relay n hn hmpr := by
    rw [(olsrChosenMpr_frame cnf x p).1] at hmpr
    by_cases hnp : n = p
    · rw [hnp]
      exact hcan
    · rw [Function.update_of_ne hnp] at hmpr
      exact h.relay n hn hmpr
  counted := h.counted.chosen ht hp hnew
  count := by
    rw [(olsrChosenMpr_frame cnf x p).1, coverSum, Tally.sum_filter_update _ ht.nbrsNodup hp hnew]
    exact (olsrChosenMpr_count cnf x p).trans (Nat.add_le_add_right h.count _)

theorem mem_reachedBy_of_oneLink {i : Nat} (h : OneLink t i q p) : p ∈ reachedBy t q := by
  obtain ⟨n, hn, rfl⟩ := Option.map_eq_some_iff.1 h.2.2.1
  exact List.mem_map_of_mem (List.mem_of_mem_head? hn)

theorem Choosing.candidate (ht : TablesWf t) {x : MprState × UInt16} (h : Choosing cnf t x)
    (hp : Candidate t x.1 p) : Choosing cnf t (olsrChosenMpr cnf t x p) := by
  rcases hp.reason with ⟨q, hq, hone⟩ | ⟨hmem, hpos⟩
  · exact h.chosen ht (ht.listed q hq p (mem_reachedBy_of_oneLink hone)) hp.unchosen
      (choosable_iff.2 ⟨hp.willing, hp.below.le, .inl hone.2.2.2.2⟩)
  · refine h.chosen ht hmem hp.unchosen (choosable_iff.2 ⟨hp.willing, hp.below.le, ?_⟩)
    cases hsym : (t.nbr p).sym with
    | true => exact .inl rfl
    | false =>
      rw [h.counted.kept p hmem hsym] at hpos
      exact .inr ⟨hp.below, Int.natCast_pos.1 hpos⟩

/-- Relays stay relays while others are chosen. -/
theorem isMpr_chosen {x : MprState × UInt16} {n : Ptr} (h : x.1.isMpr n = true) :
    (olsrChosenMpr cnf t x p).1.isMpr n = true := by
  rw [(olsrChosenMpr_frame cnf x p).1]
  by_cases hnp : n = p
  · rw [hnp, Function.update_self]
  · rwa [Function.update_of_ne hnp]

/-! ### The start -/

theorem choosing_start (ht : TablesWf t) (hsum : reachedSum t ∅ t.nbrs < 65536) (st : MprState) :
    Choosing cnf t ((olsrCalculateTwoHopNeighbors t (olsrClearMprs t st)).1, 0) ∧
      ∀ p ∈ t.nbrs, (olsrCalculateTwoHopNeighbors t (olsrClearMprs t st)).1.isMpr p = false := by
  have hnone : ∀ p ∈ t.nbrs, (olsrCalculateTwoHopNeighbors t (olsrClearMprs t st)).1.isMpr p = false := by
    intro p hp
    have hsame := congrFun (foldl_countNeighbor_isMpr (t := t) t.nbrs
      ⟨olsrClearTwoHopProcessed t (olsrClearMprs t st), 0, 0, 0⟩) p
    exact hsame.trans (foldl_clearMpr t.nbrs (.inl hp))
  refine ⟨⟨fun p hp hmpr => ?_, ?_, Nat.zero_le _⟩, hnone⟩
  · rw [hnone p hp] at hmpr
    nomatch hmpr
  · refine (counted_start ht hsum st).1.congr fun p hp q hq => ?_
    refine List.countP_eq_zero.2 fun n hn => ?_
    rw [hnone n (ht.listed q (ht.queued p hp q (mem_toCover.1 hq).1) n hn)]
    exact Bool.false_ne_true

/-- The neighbours that are always willing are chosen. -/
theorem Choosing.foldl_addWillAlways (ht : TablesWf t) : ∀ (l : List Ptr) {x : MprState × UInt16},
    (∀ p ∈ l, p ∈ t.nbrs) → l.Nodup → (∀ p ∈ l, x.1.isMpr p = false) → Choosing cnf t x →
    Choosing cnf t (l.foldl (addWillAlways cnf t) x) ∧
      (∀ p, x.1.isMpr p = true → (l.foldl (addWillAlways cnf t) x).1.isMpr p = true) ∧
      ∀ p ∈ l, (t.nbr p).sym = true → (t.nbr p).willingness = willAlways →
        (l.foldl (addWillAlways cnf t) x).1.isMpr p = true
  | [], _, _, _, _, h => ⟨h, fun _ hp => hp, by simp⟩
  | n :: l, x, hl, hnodup, hnew, h => by
    obtain ⟨hnl, hnodup⟩ := List.nodup_cons.1 hnodup
    have hn := hl n (List.mem_cons_self ..)
    have hl' : ∀ p ∈ l, p ∈ t.nbrs := fun p hp => hl p (List.mem_cons_of_mem _ hp)
    rw [List.foldl_cons, addWillAlways]
    split
    · rename_i hc
      obtain ⟨hend, hgrows, halways⟩ := h.foldl_addWillAlways ht l hl' hnodup
        fun p hp => hnew p (List.mem_cons_of_mem _ hp)
      refine ⟨hend, hgrows, fun p hp hsym hwill => ?_⟩
      rcases List.mem_cons.1 hp with rfl | hp
      · simp [hsym, hwill] at hc
      · exact halways p hp hsym hwill
    · rename_i hc
      obtain ⟨hsym, hwill⟩ := not_or.1 hc
      have hwill := not_not.1 hwill
      have hx := h.chosen ht hn (hnew n (List.mem_cons_self ..))
        (choosable_iff.2 ⟨by rw [hwill]; decide, hwill.le, .inl (by simpa using hsym)⟩)
      have hself : (olsrChosenMpr cnf t x n).1.isMpr n = true := by
        rw [(olsrChosenMpr_frame cnf x n).1, Function.update_self]
      obtain ⟨hend, hgrows, halways⟩ := hx.foldl_addWillAlways ht l hl' hnodup fun p hp => by
        rw [(olsrChosenMpr_frame cnf x n).1, Function.update_of_ne (by rintro rfl; exact hnl hp)]
        exact hnew p (List.mem_cons_of_mem _ hp)
      refine ⟨hend, fun p hp => hgrows p (isMpr_chosen hp), fun p hp hps hpw => ?_⟩
      rcases List.mem_cons.1 hp with rfl | hp
      · exact hgrows p hself
      · exact halways p hp hps hpw

/-! ### One level of willingness -/

theorem foldl_moreCovered_some {st : MprState} {i : Nat} : ∀ (l : List Ptr) {best : UInt16 × Option Ptr},
    best.2.isSome = true → (l.foldl (moreCovered t st i) best).2.isSome = true
  | [], _, h => h
  | n :: l, best, h => by
    refine foldl_moreCovered_some l ?_
    unfold moreCovered
    split
    · rfl
    · exact h

theorem foldl_moreCovered_none {st : MprState} {i : Nat} : ∀ (l : List Ptr),
    (l.foldl (moreCovered t st i) (0, none)).2 = none →
    ∀ p ∈ l, st.isMpr p = false → (t.nbr p).willingness = i → st.nocov p ≤ 0
  | [], _ => by simp
  | n :: l, h => by
    intro p hp hmpr hwill
    rw [List.foldl_cons] at h
    by_cases hc : !st.isMpr n ∧ (t.nbr n).willingness = i ∧ ((0 : UInt16).toNat : Int) < st.nocov n
    · have hsome := @foldl_moreCovered_some t st i l (moreCovered t st i (0, none) n)
        (by rw [moreCovered, if_pos hc]; rfl)
      rw [h] at hsome
      nomatch hsome
    · rcases List.mem_cons.1 hp with rfl | hp
      · by_contra hpos
        exact hc ⟨by simp [hmpr], hwill, by simpa using hpos⟩
      · rw [moreCovered, if_neg hc] at h
        exact foldl_moreCovered_none l h p hp hmpr hwill

theorem chooseMaximum_covers {total : UInt16} {i : Nat} : ∀ (rounds : Nat) {x : MprState × UInt16},
    (chooseMaximum cnf t total i rounds x).2 = true → total ≤ (chooseMaximum cnf t total i rounds x).1.2
  | 0, _, h => nomatch h
  | rounds + 1, x, h => by
    unfold chooseMaximum at h ⊢
    split
    · rename_i hfind
      rw [hfind] at h
      nomatch h
    · rename_i p hfind
      rw [hfind] at h
      dsimp only at h ⊢
      split
      · assumption
      · rename_i hless
        rw [if_neg hless] at h
        exact chooseMaximum_covers rounds h

section

variable {i : Nat} (hi : 0 < i) (h7 : i < willAlways)

include hi h7 in
/-- The neighbours of two hop neighbours with one link are chosen. -/
theorem foldl_chooseOneLink_chosen : ∀ (l : List Ptr) {x : MprState × UInt16},
    (∀ q ∈ l, q ∈ t.twoHops ∧ ∃ p, OneLink t i q p) → ∀ q ∈ l, OneLink t i q p →
    (l.foldl (chooseOneLink cnf t) x).1.isMpr p = true
  | q' :: l, x, hl, q, hq, hone => by
    have hl' : ∀ q ∈ l, q ∈ t.twoHops ∧ ∃ p, OneLink t i q p := fun q hq => hl q (List.mem_cons_of_mem _ hq)
    rcases List.mem_cons.1 hq with rfl | hq
    · refine chooseOneLink_keeps (P := fun x => x.1.isMpr p = true) (fun x n h _ => isMpr_chosen h) hi h7 l hl' ?_
      obtain ⟨n, hn, rfl⟩ := Option.map_eq_some_iff.1 hone.2.2.1
      rw [chooseOneLink, hn]
      dsimp only
      split
      · assumption
      · rw [(olsrChosenMpr_frame cnf x n.1).1, Function.update_self]
    · exact foldl_chooseOneLink_chosen l hl' q hq hone

/-- A neighbour that is alone at a two hop neighbour. -/
theorem oneLink_of_alone (ht : TablesWf t) (hp : p ∈ t.nbrs) (hsym : (t.nbr p).sym = true) (hq : q ∈ toCover t p)
    (hone : (t.twoHop q).nblist.length = 1) : OneLink t (t.nbr p).willingness q p := by
  obtain ⟨hmem, hcover⟩ := mem_toCover.1 hq
  have hq' := ht.queued p hp q hmem
  obtain ⟨n, hn⟩ := List.length_eq_one_iff.1 hone
  have hreached := (ht.mem_reachedBy hp hq').2 hmem
  rw [reachedBy, hn, List.map_singleton, List.mem_singleton] at hreached
  refine ⟨hcover, by rw [ht.pointer q hq', hone]; rfl, ?_, rfl, hsym⟩
  rw [hn, hreached]
  rfl

/-- As long as a neighbour is not chosen, its two hop neighbours have fewer relays than they can get. -/
theorem Choosing.relayCount_lt (ht : TablesWf t) {x : MprState × UInt16} (h : Choosing cnf t x) (hp : p ∈ t.nbrs)
    (hnew : x.1.isMpr p = false) (hcan : choosable t p = true) (hq : q ∈ toCover t p) :
    relayCount t x.1 q + 1 ≤ (reachedBy t q).countP (choosable t) := by
  have hq' := ht.queued p hp q (mem_toCover.1 hq).1
  have hreached := (ht.mem_reachedBy hp hq').2 (mem_toCover.1 hq).1
  have hcount := Tally.countP_update (ht.nodup_reachedBy hq') hnew
  rw [if_pos hreached] at hcount
  rw [relayCount, ← hcount]
  refine List.countP_mono_left fun n hn hmpr => ?_
  by_cases hnp : n = p
  · rw [hnp]
    exact hcan
  · rw [Function.update_of_ne hnp] at hmpr
    exact h.relay n (ht.listed q hq' n hn) hmpr

/-- So a counter that starts above what the relays of others can take off stays above 0. -/
theorem Choosing.nocov_pos (ht : TablesWf t) {x : MprState × UInt16} (h : Choosing cnf t x) (hp : p ∈ t.nbrs)
    (hnew : x.1.isMpr p = false) (hcan : choosable t p = true) (hsym : (t.nbr p).sym = true)
    (hbound : ((toCover t p).map (surplus cnf t)).sum < startCount t p) : 0 < x.1.nocov p := by
  have hcounted := h.counted.nocov p hp hsym
  have hsurplus : ((toCover t p).map fun q => timesCovered cnf (relayCount t x.1 q)).sum ≤
      ((toCover t p).map (surplus cnf t)).sum :=
    List.sum_le_sum fun q hq => Nat.sub_le_sub_right (h.relayCount_lt ht hp hnew hcan hq) _
  omega

/-- At the end of its level, a neighbour that is chosen for sure is a relay. -/
theorem Choosing.level_chosen (ht : TablesWf t) {total : UInt16} {x : MprState × UInt16} (h : Choosing cnf t x)
    (hp : p ∈ t.nbrs) (hi : 0 < (t.nbr p).willingness) (h7 : (t.nbr p).willingness < willAlways)
    (hsure : surelyChosen cnf t p = true)
    (hend : (chooseMaximum cnf t total (t.nbr p).willingness t.nbrs.length
      ((olsrFind2HopNeighborsWith1Link t (t.nbr p).willingness).foldl (chooseOneLink cnf t) x)).2 = false) :
    (chooseMaximum cnf t total (t.nbr p).willingness t.nbrs.length
      ((olsrFind2HopNeighborsWith1Link t (t.nbr p).willingness).foldl (chooseOneLink cnf t) x)).1.1.isMpr p = true := by
  by_contra hnot
  have hnew := Bool.eq_false_iff.2 hnot
  have hlist : ∀ q ∈ olsrFind2HopNeighborsWith1Link t (t.nbr p).willingness, q ∈ t.twoHops ∧
      ∃ n, OneLink t (t.nbr p).willingness q n := fun q hq => mem_olsrFind2HopNeighborsWith1Link.1 hq
  have hone := chooseOneLink_keeps (P := Choosing cnf t) (fun x n hx hn => hx.candidate ht hn) hi h7 _ hlist h
  have hz := chooseMaximum_keeps (P := Choosing cnf t) (fun x n hx hn => hx.candidate ht hn) total hi h7
    t.nbrs.length hone
  have hnone := foldl_moreCovered_none t.nbrs
    (chooseMaximum_stops cnf total t.nbrs.length _ List.countP_le_length hend) p hp hnew rfl
  rw [surelyChosen, Bool.and_eq_true, Bool.or_eq_true, Bool.or_eq_true, Bool.or_eq_true, decide_eq_true_eq,
    decide_eq_true_eq, List.any_eq_true] at hsure
  obtain ⟨hcan, hreason⟩ := hsure
  cases hsym : (t.nbr p).sym with
  | false =>
    -- nothing is taken off the counter of a neighbour that is not symmetric
    obtain ⟨-, -, hsym' | ⟨-, hpos⟩⟩ := choosable_iff.1 hcan
    · rw [hsym] at hsym'
      nomatch hsym'
    · rw [hz.counted.kept p hp hsym] at hnone
      omega
  | true =>
    obtain ((halways | hnot') | ⟨q, hq, halone⟩) | hbound := hreason
    · exact absurd halways (ne_of_lt h7)
    · rw [hsym] at hnot'
      nomatch hnot'
    · rw [beq_iff_eq] at halone
      have hlink := oneLink_of_alone ht hp hsym hq halone
      refine hnot (chooseMaximum_keeps (P := fun x => x.1.isMpr p = true) (fun x n hx _ => isMpr_chosen hx) total hi h7
        t.nbrs.length ?_)
      exact foldl_chooseOneLink_chosen hi h7 _ hlist q
        (mem_olsrFind2HopNeighborsWith1Link.2 ⟨ht.queued p hp q (mem_toCover.1 hq).1, p, hlink⟩) hlink
    · exact absurd (hz.nocov_pos ht hp hnew hcan hsym hbound) (not_lt_of_ge hnone)

end

/-! ### All levels -/

theorem coverSum_filter_mono {f g : Ptr → Bool} : ∀ {l : List Ptr}, (∀ p ∈ l, f p = true → g p = true) →
    coverSum t (l.filter f) ≤ coverSum t (l.filter g)
  | [], _ => le_refl _
  | n :: l, h => by
    have hrest := coverSum_filter_mono fun p hp => h p (List.mem_cons_of_mem _ hp)
    have hn := h n (List.mem_cons_self ..)
    rw [List.filter_cons, List.filter_cons]
    by_cases hf : f n = true
    · rw [if_pos hf, if_pos (hn hf), coverSum, coverSum, List.map_cons, List.map_cons, List.sum_cons, List.sum_cons]
      rw [coverSum, coverSum] at hrest
      omega
    · rw [if_neg hf]
      refine hrest.trans ?_
      split
      · rw [coverSum, coverSum, List.map_cons, List.sum_cons]
        omega
      · exact le_refl _

/-- What can be chosen has no more to cover than the total. -/
def Bounded (t : Tables) : Prop := coverSum t (t.nbrs.filter (choosable t)) ≤ reachedSum t ∅ t.nbrs

/-- So when the count reaches the total, all neighbours that have something to cover and can be chosen are chosen. -/
theorem Choosing.all_chosen (ht : TablesWf t) (hbounded : Bounded t) {x : MprState × UInt16} (h : Choosing cnf t x)
    (htotal : reachedSum t ∅ t.nbrs ≤ x.2.toNat) (hp : p ∈ t.nbrs) (hcan : choosable t p = true)
    (hcover : q ∈ toCover t p) : x.1.isMpr p = true := by
  by_contra hnot
  have hpos : 0 < (toCover t p).length := List.length_pos_of_mem hcover
  have hmore := Tally.sum_filter_update (fun n => (toCover t n).length) ht.nbrsNodup hp (Bool.eq_false_iff.2 hnot)
  have hle : coverSum t (t.nbrs.filter (Function.update x.1.isMpr p true)) ≤
      coverSum t (t.nbrs.filter (choosable t)) := by
    refine coverSum_filter_mono fun n hn hmpr => ?_
    by_cases hnp : n = p
    · rw [hnp]
      exact hcan
    · rw [Function.update_of_ne hnp] at hmpr
      exact h.relay n hn hmpr
  have hcount := h.count
  rw [Bounded] at hbounded
  rw [coverSum] at hcount hle
  omega

theorem Choosing.chooseByWillingness (ht : TablesWf t) {total : UInt16} : ∀ (levels : List Nat)
    {x : MprState × UInt16}, (∀ i ∈ levels, 0 < i ∧ i < willAlways) → Choosing cnf t x →
    total ≤ (Mpr.chooseByWillingness cnf t total levels x).2 ∨
      ∀ p ∈ t.nbrs, (t.nbr p).willingness ∈ levels → surelyChosen cnf t p = true →
        (Mpr.chooseByWillingness cnf t total levels x).1.isMpr p = true
  | [], _, _, _ => .inr (by simp)
  | i :: levels, x, hl, h => by
    obtain ⟨hi, h7⟩ := hl i (List.mem_cons_self ..)
    have hl' : ∀ j ∈ levels, 0 < j ∧ j < willAlways := fun j hj => hl j (List.mem_cons_of_mem _ hj)
    have hone := chooseOneLink_keeps (P := Choosing cnf t) (fun x n hx hn => hx.candidate ht hn) hi h7
      (olsrFind2HopNeighborsWith1Link t i) (fun q hq => mem_olsrFind2HopNeighborsWith1Link.1 hq) h
    have hmax := chooseMaximum_keeps (P := Choosing cnf t) (fun x n hx hn => hx.candidate ht hn) total hi h7
      t.nbrs.length hone
    unfold Mpr.chooseByWillingness
    dsimp only
    split
    · exact .inl (by assumption)
    · split
      · rename_i z heq
        have hcovers := @chooseMaximum_covers cnf t total i t.nbrs.length
          ((olsrFind2HopNeighborsWith1Link t i).foldl (chooseOneLink cnf t) x) (by rw [heq])
        rw [heq] at hcovers
        exact .inl hcovers
      · rename_i z heq
        rw [heq] at hmax
        rcases hmax.chooseByWillingness ht levels hl' with htotal | hchosen
        · exact .inl htotal
        · refine .inr fun p hp hwill hsure => ?_
          rcases List.mem_cons.1 hwill with hwill | hwill
          · subst hwill
            have hlevel := @Choosing.level_chosen cnf t p ht total x h hp hi h7 hsure (by rw [heq])
            rw [heq] at hlevel
            exact chooseByWillingness_keeps (P := fun x => x.1.isMpr p = true) (fun x n hx _ => isMpr_chosen hx) levels
              hl' hlevel
          · exact hchosen p hp hwill hsure

/-- What is chosen for sure is chosen, if it has something to cover. -/
theorem chosenMprs_spec (ht : TablesWf t) (hsum : reachedSum t ∅ t.nbrs < 65536) (hbounded : Bounded t)
    (st : MprState) : Choosing cnf t (chosenMprs cnf t st) ∧
      ∀ p ∈ t.nbrs, surelyChosen cnf t p = true → ∀ q ∈ toCover t p, (chosenMprs cnf t st).1.isMpr p = true := by
  obtain ⟨hstart, hnone⟩ := @choosing_start cnf t ht hsum st
  obtain ⟨hadded, -, halways⟩ :=
    @Choosing.foldl_addWillAlways cnf t ht t.nbrs (_, 0) (fun _ h => h) ht.nbrsNodup hnone hstart
  have hlevels : ∀ i ∈ [6, 5, 4, 3, 2, 1], 0 < i ∧ i < willAlways := by decide
  have hend : Choosing cnf t (chosenMprs cnf t st) :=
    chooseByWillingness_keeps (P := Choosing cnf t) (fun x n hx hn => hx.candidate ht hn) _ hlevels hadded
  refine ⟨hend, fun p hp hsure q hq => ?_⟩
  have hcan : choosable t p = true := by
    rw [surelyChosen, Bool.and_eq_true] at hsure
    exact hsure.1
  obtain ⟨hpos, hle, hsym⟩ := choosable_iff.1 hcan
  by_cases hwill : (t.nbr p).willingness = willAlways
  · have hsym := hsym.resolve_right fun h => absurd hwill (ne_of_lt h.1)
    exact chooseByWillingness_keeps (P := fun x => x.1.isMpr p = true) (fun x n hx _ => isMpr_chosen hx) _ hlevels
      (halways p hp hsym hwill)
  · rcases hadded.chooseByWillingness ht [6, 5, 4, 3, 2, 1] hlevels with htotal | hchosen
    · refine hend.all_chosen ht hbounded ?_ hp hcan hq
      rw [← (@counted_start cnf t ht hsum st).2]
      exact UInt16.le_iff_toNat_le.1 htotal
    · refine hchosen p hp ?_ hsure
      have hwill7 : willAlways = 7 := rfl
      simp only [List.mem_cons, List.not_mem_nil, or_false]
      omega

/-! ## The optimization -/

/-- A relay with a two hop neighbour that has no more relays than `mpr_coverage` is not removed. -/
theorem not_removable {covered : Ptr → UInt8} (hq : q ∈ toCover t p)
    (hle : (covered q).toNat ≤ cnf.mprCoverage.toNat) : ¬removable cnf t covered p = true := by
  intro h
  have hall := List.all_eq_true.1 h q (mem_toCover.1 hq).1
  rw [(mem_toCover.1 hq).2, Bool.false_or, decide_eq_true_eq, gt_iff_lt, UInt8.lt_iff_toNat_lt] at hall
  omega

/-- The relays that are chosen for sure and spared. -/
theorem isMpr_of_sure (ht : TablesWf t) (hsum : reachedSum t ∅ t.nbrs < 65536) (hbounded : Bounded t)
    (st : MprState) (hp : p ∈ t.nbrs) (hq : q ∈ toCover t p) (hsure : surelyChosen cnf t p = true)
    (hspared : spared cnf t p = true) : (olsrCalculateMpr cnf t st).isMpr p = true := by
  obtain ⟨hend, hchosen⟩ := @chosenMprs_spec cnf t ht hsum hbounded st
  refine olsrCalculateMpr_isMpr.2 ⟨hchosen p hp hsure q hq, ?_⟩
  rintro ⟨-, hwill, hremovable⟩
  rw [spared, Bool.or_eq_true, decide_eq_true_eq, List.any_eq_true] at hspared
  rcases hspared with halways | ⟨r, hr, hfew⟩
  · rw [halways] at hwill
    exact absurd hwill (by decide)
  · rw [decide_eq_true_eq] at hfew
    refine not_removable hr ?_ hremovable
    rw [hend.counted.covered p hp r hr]
    have hr' := ht.queued p hp r (mem_toCover.1 hr).1
    have hcount : relayCount t (chosenMprs cnf t st).1 r ≤ (reachedBy t r).countP (choosable t) :=
      List.countP_mono_left fun n hn hmpr => hend.relay n (ht.listed r hr' n hn) hmpr
    exact (Nat.mod_le _ _).trans (hcount.trans hfew)

/-- Where the optimization is decided, no other relays of a two hop neighbour are left. -/
theorem Decided.sure_of_isMpr (hd : Decided cnf t) (ht : TablesWf t) (hsum : reachedSum t ∅ t.nbrs < 65536)
    (hbounded : Bounded t) (st : MprState) (hp : p ∈ t.nbrs)
    (hmpr : (olsrCalculateMpr cnf t st).isMpr p = true) : surelyChosen cnf t p = true ∧ spared cnf t p = true := by
  obtain ⟨hend, hchosen⟩ := @chosenMprs_spec cnf t ht hsum hbounded st
  obtain ⟨hmpr, hleft⟩ := olsrCalculateMpr_isMpr.1 hmpr
  have hcan := hend.relay p hp hmpr
  suffices hspared : spared cnf t p = true from ⟨hd.chosen p hp hcan hspared, hspared⟩
  by_contra hnot
  rw [spared, Bool.or_eq_true, decide_eq_true_eq, List.any_eq_true, not_or] at hnot
  obtain ⟨hwill, hmany⟩ := hnot
  refine hleft ⟨hp, ?_, List.all_eq_true.2 fun r hr => ?_⟩
  · obtain ⟨hpos, hle, -⟩ := choosable_iff.1 hcan
    have hwill7 : willAlways = 7 := rfl
    simp only [List.mem_cons, List.not_mem_nil, or_false]
    omega
  · cases hsym : isSymNeighbor t r with
    | true => rfl
    | false =>
      have hr' := ht.queued p hp r hr
      have hcover := mem_toCover.2 ⟨hr, hsym⟩
      have hmore : cnf.mprCoverage.toNat < (reachedBy t r).countP (choosable t) := by
        by_contra hfew
        exact hmany ⟨r, hcover, decide_eq_true (Nat.le_of_not_lt hfew)⟩
      have hsurely := hd.surplus r hr' hsym hmore
      have hrelays : (reachedBy t r).countP (surelyChosen cnf t) ≤ relayCount t (chosenMprs cnf t st).1 r := by
        refine List.countP_mono_left fun n hn hsure => ?_
        have hn' := ht.listed r hr' n hn
        exact hchosen n hn' hsure r (mem_toCover.2 ⟨(ht.mem_reachedBy hn' hr').1 hn, hsym⟩)
      have hcount : relayCount t (chosenMprs cnf t st).1 r ≤ (reachedBy t r).countP (choosable t) :=
        List.countP_mono_left fun n hn hmpr => hend.relay n (ht.listed r hr' n hn) hmpr
      have hsmall := hd.small r hr' hsym
      have hcovered := hend.counted.covered p hp r hcover
      rw [Bool.false_or, decide_eq_true_eq, gt_iff_lt, UInt8.lt_iff_toNat_lt, hcovered]
      omega

theorem Provided.covered (hprovided : Provided cnf t) (ht : TablesWf t) (hsum : reachedSum t ∅ t.nbrs < 65536)
    (hbounded : Bounded t) (st : MprState) : MprCovered cnf t (olsrCalculateMpr cnf t st) := by
  intro q hq hsym
  refine (hprovided q hq hsym).trans (List.countP_mono_left fun p hp hsure => ?_)
  have hp' := ht.listed q hq p hp
  rw [Bool.and_eq_true] at hsure
  exact isMpr_of_sure ht hsum hbounded st hp' (mem_toCover.2 ⟨(ht.mem_reachedBy hp' hq).1 hp, hsym⟩) hsure.1 hsure.2

/-- The two hop neighbours are covered if the neighbours that are chosen and spared for sure are enough for it, and only
then where it is decided which relays the optimization leaves. -/
theorem mprCovered_olsrCalculateMpr (cnf : MprCnf) (t : Tables) (st : MprState) (ht : TablesWf t)
    (hsum : reachedSum t ∅ t.nbrs < 65536) (hbounded : Bounded t) :
    (Provided cnf t → MprCovered cnf t (olsrCalculateMpr cnf t st)) ∧
      (Decided cnf t → (MprCovered cnf t (olsrCalculateMpr cnf t st) ↔ Provided cnf t)) := by
  have henough : Provided cnf t → MprCovered cnf t (olsrCalculateMpr cnf t st) :=
    fun hprovided => hprovided.covered ht hsum hbounded st
  refine ⟨henough, fun hd => ⟨fun hcovered q hq hsym => ?_, henough⟩⟩
  refine (hcovered q hq hsym).trans (List.countP_mono_left fun p hp hmpr => ?_)
  rw [Bool.and_eq_true]
  exact hd.sure_of_isMpr ht hsum hbounded st (ht.listed q hq p hp) hmpr

/-- Three willing neighbours of the two hop neighbour 11, the first of which has some more. -/
def threeNeighbors (more : List Ptr) : Tables where
  nbrs := [1, 2, 3]
  nbr p := ⟨true, 3, 11 :: if p = 1 then more else []⟩
  twoHops := 11 :: more
  twoHop q := if q = 11 then ⟨[10, 0, 0, 11], 3, [(1, 1024), (2, 1024), (3, 1024)]⟩ else
    ⟨[10, 0, 0, 12], 1, [(1, 1024)]⟩
  lookup _ := none
  bestLinkcost _ := none

/-- The neighbour 1 is alone at the two hop neighbour 12. All three are chosen, and the others are removed again. -/
theorem mprCovered_threeNeighbors :
    MprCovered ⟨1, 0⟩ (threeNeighbors [12]) (olsrCalculateMpr ⟨1, 0⟩ (threeNeighbors [12]) noMprs) ∧
      Decided ⟨1, 0⟩ (threeNeighbors [12]) := by
  have ht : TablesWf (threeNeighbors [12]) :=
    ⟨⟨by decide, by decide⟩, by decide, by decide, by decide, by decide, by decide⟩
  have hdecided : Decided ⟨1, 0⟩ (threeNeighbors [12]) := ⟨by decide, by decide, by decide⟩
  obtain ⟨-, hiff⟩ := mprCovered_olsrCalculateMpr ⟨1, 0⟩ (threeNeighbors [12]) noMprs ht (by decide) (by
    unfold Bounded
    decide)
  have hprovided : Provided ⟨1, 0⟩ (threeNeighbors [12]) := by
    unfold Provided
    decide
  exact ⟨(hiff hdecided).2 hprovided, hdecided⟩

/-- Three neighbours reach one two hop neighbour and nothing else: two of them are chosen, and both are removed. -/
theorem not_mprCovered : ¬∀ (cnf : MprCnf) (t : Tables) (st : MprState), TablesWf t → 1 ≤ cnf.mprCoverage →
    MprCovered cnf t (olsrCalculateMpr cnf t st) := by
  intro h
  have ht : TablesWf (threeNeighbors []) :=
    ⟨⟨by decide, by decide⟩, by decide, by decide, by decide, by decide, by decide⟩
  have hcovered := h ⟨1, 0⟩ (threeNeighbors []) noMprs ht (by decide) 11 (by decide) (by decide)
  exact absurd hcovered (by decide +kernel)

/-! ## The tables of a node -/

section
open Olsrd.Neighbor

variable {env : Env} {s : Nbh}

theorem mem_nbrs_tablesOf (hw : TableWf s) : p ∈ (tablesOf env s).nbrs ↔ ∃ a, keyOf s p = some a := by
  constructor
  · intro hp
    obtain ⟨bucket, -, hp⟩ := List.mem_flatMap.1 hp
    obtain ⟨a, ha, -⟩ := (hw.queued p bucket).1 hp
    exact ⟨a, ha⟩
  · rintro ⟨a, ha⟩
    exact List.mem_flatMap.2 ⟨_, List.mem_range.2 (Nat.lt_succ_of_le (olsrIpHashing_le a)),
      (hw.queued p _).2 ⟨a, ha, rfl⟩⟩

theorem mem_twoHops_tablesOf (ht : TwoHopWf s) : q ∈ (tablesOf env s).twoHops ↔ ∃ te, s.nbr2 q = some te := by
  constructor
  · intro hq
    obtain ⟨bucket, -, hq⟩ := List.mem_flatMap.1 hq
    obtain ⟨te, hte, -⟩ := (ht.queued q bucket).1 hq
    exact ⟨te, hte⟩
  · rintro ⟨te, hte⟩
    exact List.mem_flatMap.2 ⟨_, List.mem_range.2 (Nat.lt_succ_of_le (olsrIpHashing_le te.addr)),
      (ht.queued q _).2 ⟨te, hte, rfl⟩⟩

theorem nodup_nbrs_tablesOf (hw : TableWf s) : (tablesOf env s).nbrs.Nodup := by
  refine List.nodup_flatMap.2 ⟨fun bucket _ => hw.nodup bucket, ?_⟩
  refine List.nodup_range.imp fun {b c} hne p hb hc => ?_
  obtain ⟨a, ha, rfl⟩ := (hw.queued p b).1 hb
  obtain ⟨a', ha', rfl⟩ := (hw.queued p c).1 hc
  rw [ha] at ha'
  exact hne (congrArg olsrIpHashing (Option.some.inj ha'))

/-- In every run in which the lists of a node stay in agreement, its tables are as `mpr.c` needs them. -/
theorem reachable_tablesWf (h : Reachable env (CrossOk env) s) : TablesWf (tablesOf env s) := by
  have hw := reachable_tableWf h
  have ht := reachable_twoHopWf h
  refine ⟨crossLinked_tablesOf ht.toCrossLinked, nodup_nbrs_tablesOf hw, fun p _ => ht.hopsNodup p,
    fun p _ q hq => ?_, fun q _ p hp => ?_, fun q hq => ?_⟩
  · exact (mem_twoHops_tablesOf ht).2 (exists_nbr2_of_mem ((ht.mirror p q).1 hq))
  · rw [backs_tablesOf] at hp
    obtain ⟨x, hx, -⟩ := List.mem_map.1 ((ht.mirror p q).2 hp)
    obtain ⟨e, he⟩ := exists_nbr_of_mem hx
    exact (mem_nbrs_tablesOf hw).2 ⟨_, keyOf_eq he⟩
  · obtain ⟨te, hte⟩ := (mem_twoHops_tablesOf ht).1 hq
    have hpointer := ht.pointer q te hte
    simp only [tablesOf, hte, Option.map_some, Option.getD_some, nblistOf_eq hte, List.length_map]
    exact hpointer

/-- So a node covers its two hop neighbours in every such run, if what is chosen and spared for sure is enough. -/
theorem reachable_mprCovered (h : Reachable env (CrossOk env) s) (cnf : MprCnf) (st : MprState)
    (hsum : reachedSum (tablesOf env s) ∅ (tablesOf env s).nbrs < 65536) (hbounded : Bounded (tablesOf env s))
    (hprovided : Provided cnf (tablesOf env s)) :
    MprCovered cnf (tablesOf env s) (olsrCalculateMpr cnf (tablesOf env s) st) :=
  hprovided.covered (reachable_tablesWf h) hsum hbounded st

end

end Olsrd.Mpr
