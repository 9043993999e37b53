/-
Which neighbours become relays. The counter that a neighbour which is not symmetric gets in `mpr.c` decides whether it
can be chosen; with link quality, a symmetric neighbour that is never willing is chosen when it ranks high enough.
-/
import Olsrd.Lib.Tally
import Olsrd.Mpr.LqRelays

namespace Olsrd.Mpr

open Olsrd.Neighbor (Ptr willNever linkCostBroken)

variable {cnf : MprCnf} {t : Tables} {st : MprState} {p q : Ptr}

/-- A neighbour that may be a relay. -/
structure Eligible (t : Tables) (p : Ptr) : Prop where
  sym : (t.nbr p).sym = true
  willing : (t.nbr p).willingness ≠ willNever

/-! ## `mpr.c` -/

/-- The relays are eligible, and a neighbour that could be chosen although it is not symmetric has a counter of 0. -/
structure RelaysOk (t : Tables) (st : MprState) : Prop where
  relay : ∀ p ∈ t.nbrs, st.isMpr p = true → Eligible t p
  nocov : ∀ p ∈ t.nbrs, (t.nbr p).sym = false → 0 < (t.nbr p).willingness → (t.nbr p).willingness < willAlways →
    st.nocov p = 0

theorem decreaseNocov_isMpr (st : MprState) (n : Ptr × UInt32) : (decreaseNocov t st n).isMpr = st.isMpr := by
  unfold decreaseNocov
  split <;> rfl

theorem decreaseNocov_nocov (st : MprState) (n : Ptr × UInt32) (h : (t.nbr p).sym = false) :
    (decreaseNocov t st n).nocov p = st.nocov p := by
  unfold decreaseNocov
  split
  · rename_i hsym
    have hne : p ≠ n.1 := by
      rintro rfl
      rw [h] at hsym
      nomatch hsym
    exact Function.update_of_ne hne ..
  · rfl

theorem foldl_decreaseNocov : ∀ (l : List (Ptr × UInt32)) (st : MprState),
    (l.foldl (decreaseNocov t) st).isMpr = st.isMpr ∧
      ∀ p, (t.nbr p).sym = false → (l.foldl (decreaseNocov t) st).nocov p = st.nocov p
  | [], _ => ⟨rfl, fun _ _ => rfl⟩
  | n :: l, st => by
    obtain ⟨h1, h2⟩ := foldl_decreaseNocov l (decreaseNocov t st n)
    exact ⟨h1.trans (decreaseNocov_isMpr st n), fun p hp => (h2 p hp).trans (decreaseNocov_nocov st n hp)⟩

theorem coverTwoHop_frame (cnf : MprCnf) (x : MprState × UInt16) (q : Ptr) :
    (coverTwoHop cnf t x q).1.isMpr = x.1.isMpr ∧
      ∀ p, (t.nbr p).sym = false → (coverTwoHop cnf t x q).1.nocov p = x.1.nocov p := by
  unfold coverTwoHop
  split
  · exact ⟨rfl, fun _ _ => rfl⟩
  · dsimp only
    split
    · exact foldl_decreaseNocov _ _
    · exact ⟨rfl, fun _ _ => rfl⟩

theorem foldl_coverTwoHop : ∀ (l : List Ptr) (x : MprState × UInt16),
    (l.foldl (coverTwoHop cnf t) x).1.isMpr = x.1.isMpr ∧
      ∀ p, (t.nbr p).sym = false → (l.foldl (coverTwoHop cnf t) x).1.nocov p = x.1.nocov p
  | [], _ => ⟨rfl, fun _ _ => rfl⟩
  | q :: l, x => by
    obtain ⟨h1, h2⟩ := foldl_coverTwoHop l (coverTwoHop cnf t x q)
    obtain ⟨h3, h4⟩ := coverTwoHop_frame cnf x q
    exact ⟨h1.trans h3, fun p hp => (h2 p hp).trans (h4 p hp)⟩

/-- A chosen relay is one relay more, and the counters of neighbours that are not symmetric stay. -/
theorem olsrChosenMpr_frame (cnf : MprCnf) (x : MprState × UInt16) (p : Ptr) :
    (olsrChosenMpr cnf t x p).1.isMpr = Function.update x.1.isMpr p true ∧
      ∀ n, (t.nbr n).sym = false → (olsrChosenMpr cnf t x p).1.nocov n = x.1.nocov n :=
  foldl_coverTwoHop _ _

theorem RelaysOk.chosen {x : MprState × UInt16} (h : RelaysOk t x.1) (hp : Eligible t p) :
    RelaysOk t (olsrChosenMpr cnf t x p).1 := by
  obtain ⟨hmpr, hnocov⟩ := olsrChosenMpr_frame cnf x p
  refine ⟨fun n hn hn' => ?_, fun n hn hsym h1 h7 => (hnocov n hsym).trans (h.nocov n hn hsym h1 h7)⟩
  by_cases hnp : n = p
  · subst hnp
    exact hp
  · rw [hmpr, Function.update_of_ne hnp] at hn'
    exact h.relay n hn hn'

/-! ### Candidates -/

theorem foldl_moreCovered {Q : Ptr → Prop} {willingness : Nat} : ∀ (l : List Ptr) {best : UInt16 × Option Ptr},
    (∀ p, best.2 = some p → Q p) →
    (∀ p ∈ l, st.isMpr p = false → (t.nbr p).willingness = willingness → 0 < st.nocov p → Q p) →
    ∀ p, (l.foldl (moreCovered t st willingness) best).2 = some p → Q p
  | [], _, hbest, _, p, h => hbest p h
  | n :: l, best, hbest, hl, p, h => by
    refine foldl_moreCovered l ?_ (fun m hm => hl m (List.mem_cons_of_mem _ hm)) p h
    intro m hm
    unfold moreCovered at hm
    split at hm
    · rename_i hc
      obtain rfl := Option.some.inj hm
      obtain ⟨h1, h2, h3⟩ := hc
      exact hl n (List.mem_cons_self ..) (by simpa using h1) h2 (by omega)
    · exact hbest m hm

/-- A neighbour with the maximum coverage is none of the relays and has a counter above 0. -/
theorem olsrFindMaximumCovered_some {willingness : Nat} (h : olsrFindMaximumCovered t st willingness = some p) :
    p ∈ t.nbrs ∧ st.isMpr p = false ∧ (t.nbr p).willingness = willingness ∧ 0 < st.nocov p :=
  foldl_moreCovered (Q := fun p => p ∈ t.nbrs ∧ st.isMpr p = false ∧ (t.nbr p).willingness = willingness ∧
    0 < st.nocov p) t.nbrs (fun _ hn => absurd hn.symm (Option.some_ne_none _))
    (fun _ hp h1 h2 h3 => ⟨hp, h1, h2, h3⟩) p h

/-- The choice of neighbours that cover the most ends when enough is covered or no neighbour is left. -/
theorem chooseMaximum_stops (cnf : MprCnf) (total : UInt16) {i : Nat} : ∀ (rounds : Nat) (x : MprState × UInt16),
    t.nbrs.countP (fun p => !x.1.isMpr p) ≤ rounds → (chooseMaximum cnf t total i rounds x).2 = false →
    olsrFindMaximumCovered t (chooseMaximum cnf t total i rounds x).1.1 i = none
  | 0, x, hrounds, _ => by
    cases hfind : olsrFindMaximumCovered t x.1 i with
    | none => exact hfind
    | some p =>
      obtain ⟨hp, hmpr, -⟩ := olsrFindMaximumCovered_some hfind
      have hpos : 0 < t.nbrs.countP fun p => !x.1.isMpr p := List.countP_pos_iff.2 ⟨p, hp, by simp [hmpr]⟩
      omega
  | rounds + 1, x, hrounds, h => by
    unfold chooseMaximum at h ⊢
    split
    · assumption
    · rename_i p hfind
      obtain ⟨hp, hmpr, -⟩ := olsrFindMaximumCovered_some hfind
      rw [hfind] at h
      dsimp only at h ⊢
      split at h
      · nomatch h
      · rename_i hless
        rw [if_neg hless]
        refine chooseMaximum_stops cnf total rounds _ ?_ h
        rw [(olsrChosenMpr_frame cnf x p).1]
        have := Tally.countP_not_update_lt hp hmpr
        omega

/-- The two hop neighbour has one link, and this to the symmetric neighbour of the willingness. -/
def OneLink (t : Tables) (willingness : Nat) (q p : Ptr) : Prop :=
  isSymNeighbor t q = false ∧ (t.twoHop q).pointer = 1 ∧ (t.twoHop q).nblist.head?.map Prod.fst = some p ∧
    (t.nbr p).willingness = willingness ∧ (t.nbr p).sym = true

theorem mem_addOneLink {willingness : Nat} {list : List Ptr} {x : Ptr} :
    q ∈ addOneLink t willingness list x ↔ q ∈ list ∨ q = x ∧ ∃ p, OneLink t willingness q p := by
  unfold addOneLink
  split
  · rename_i hsym
    refine ⟨.inl, fun h => h.resolve_right ?_⟩
    rintro ⟨rfl, p, hq, -⟩
    rw [hsym] at hq
    nomatch hq
  · rename_i hsym
    split
    · rename_i n hn
      have hone : (∃ p, OneLink t willingness x p) ↔
          (t.twoHop x).pointer = 1 ∧ (t.nbr n.1).willingness = willingness ∧ (t.nbr n.1).sym = true := by
        unfold OneLink
        rw [hn, Option.map_some]
        constructor
        · rintro ⟨p, -, hpointer, hp, hwill, hs⟩
          obtain rfl := Option.some.inj hp
          exact ⟨hpointer, hwill, hs⟩
        · rintro ⟨hpointer, hwill, hs⟩
          exact ⟨n.1, by simpa using hsym, hpointer, rfl, hwill, hs⟩
      split
      · rename_i hc
        rw [List.mem_cons, or_comm]
        refine or_congr_right ⟨fun h => ⟨h, h ▸ hone.2 hc⟩, And.left⟩
      · rename_i hc
        refine ⟨.inl, fun h => h.resolve_right ?_⟩
        rintro ⟨rfl, hlink⟩
        exact hc (hone.1 hlink)
    · rename_i hnone
      refine ⟨.inl, fun h => h.resolve_right ?_⟩
      rintro ⟨rfl, p, -, -, hp, -⟩
      rw [hnone] at hp
      nomatch hp

theorem mem_foldl_addOneLink {willingness : Nat} : ∀ (l : List Ptr) {list : List Ptr},
    q ∈ l.foldl (addOneLink t willingness) list ↔ q ∈ list ∨ q ∈ l ∧ ∃ p, OneLink t willingness q p
  | [], _ => by simp
  | x :: l, list => by
    rw [List.foldl_cons, mem_foldl_addOneLink l, mem_addOneLink, List.mem_cons, or_and_right, or_assoc]

theorem mem_olsrFind2HopNeighborsWith1Link {willingness : Nat} :
    q ∈ olsrFind2HopNeighborsWith1Link t willingness ↔ q ∈ t.twoHops ∧ ∃ p, OneLink t willingness q p := by
  rw [olsrFind2HopNeighborsWith1Link, mem_foldl_addOneLink, or_iff_right List.not_mem_nil]

/-! ### What the choice keeps -/

/-- A neighbour that is next: the only one of a two hop neighbour, or one with a counter above 0. -/
structure Candidate (t : Tables) (st : MprState) (p : Ptr) : Prop where
  unchosen : st.isMpr p = false
  willing : 0 < (t.nbr p).willingness
  below : (t.nbr p).willingness < willAlways
  reason : (∃ q ∈ t.twoHops, OneLink t (t.nbr p).willingness q p) ∨ p ∈ t.nbrs ∧ 0 < st.nocov p

section

variable {P : MprState × UInt16 → Prop}

theorem chooseOneLink_keeps (hstep : ∀ x p, P x → Candidate t x.1 p → P (olsrChosenMpr cnf t x p)) {i : Nat}
    (hi : 0 < i) (h7 : i < willAlways) : ∀ (l : List Ptr) {x : MprState × UInt16},
    (∀ q ∈ l, q ∈ t.twoHops ∧ ∃ p, OneLink t i q p) → P x → P (l.foldl (chooseOneLink cnf t) x)
  | [], _, _, h => h
  | q :: l, x, hl, h => by
    refine chooseOneLink_keeps hstep hi h7 l (fun q' hq' => hl q' (List.mem_cons_of_mem _ hq')) ?_
    obtain ⟨hq, p, hone⟩ := hl q (List.mem_cons_self ..)
    obtain ⟨n, hn, rfl⟩ := Option.map_eq_some_iff.1 hone.2.2.1
    have hwill : (t.nbr n.1).willingness = i := hone.2.2.2.1
    rw [chooseOneLink, hn]
    dsimp only
    split
    · exact h
    · rename_i hmpr
      exact hstep x n.1 h ⟨by simpa using hmpr, hwill ▸ hi, hwill ▸ h7, .inl ⟨q, hq, hwill ▸ hone⟩⟩

theorem chooseMaximum_keeps (hstep : ∀ x p, P x → Candidate t x.1 p → P (olsrChosenMpr cnf t x p)) (total : UInt16)
    {i : Nat} (hi : 0 < i) (h7 : i < willAlways) : ∀ (rounds : Nat) {x : MprState × UInt16}, P x →
    P (chooseMaximum cnf t total i rounds x).1
  | 0, _, h => h
  | rounds + 1, x, h => by
    unfold chooseMaximum
    split
    · exact h
    · rename_i p hp
      obtain ⟨hmem, hmpr, hwill, hpos⟩ := olsrFindMaximumCovered_some hp
      have hx := hstep x p h ⟨hmpr, hwill ▸ hi, hwill ▸ h7, .inr ⟨hmem, hpos⟩⟩
      dsimp only
      split
      · exact hx
      · exact chooseMaximum_keeps hstep total hi h7 rounds hx

theorem chooseByWillingness_keeps (hstep : ∀ x p, P x → Candidate t x.1 p → P (olsrChosenMpr cnf t x p))
    {total : UInt16} : ∀ (levels : List Nat) {x : MprState × UInt16}, (∀ i ∈ levels, 0 < i ∧ i < willAlways) → P x →
    P (chooseByWillingness cnf t total levels x)
  | [], _, _, h => h
  | i :: levels, x, hl, h => by
    obtain ⟨hi, h7⟩ := hl i (List.mem_cons_self ..)
    have hone := chooseOneLink_keeps hstep hi h7 (olsrFind2HopNeighborsWith1Link t i)
      (fun q hq => mem_olsrFind2HopNeighborsWith1Link.1 hq) h
    unfold chooseByWillingness
    dsimp only
    split
    · exact hone
    · have hmax := chooseMaximum_keeps hstep total hi h7 t.nbrs.length hone
      split
      · rename_i heq
        rw [heq] at hmax
        exact hmax
      · rename_i heq
        rw [heq] at hmax
        exact chooseByWillingness_keeps hstep levels (fun j hj => hl j (List.mem_cons_of_mem _ hj)) hmax

end

theorem RelaysOk.eligible (h : RelaysOk t st) (hp : Candidate t st p) : Eligible t p := by
  refine ⟨?_, Nat.ne_of_gt hp.willing⟩
  rcases hp.reason with ⟨q, -, hone⟩ | ⟨hmem, hpos⟩
  · exact hone.2.2.2.2
  · by_contra hsym
    have := h.nocov p hmem (by simpa using hsym) hp.willing hp.below
    omega

/-! ### The counters -/

/-- A neighbour that could be chosen without being symmetric. -/
def Doubtful (t : Tables) (p : Ptr) : Prop :=
  (t.nbr p).sym = false ∧ 0 < (t.nbr p).willingness ∧ (t.nbr p).willingness < willAlways

/-- No symmetric neighbour reaches a two hop neighbour that is not a symmetric neighbour itself. -/
def NothingReached (t : Tables) (l : List Ptr) : Prop :=
  ∀ p ∈ l, (t.nbr p).sym = true → ∀ q ∈ (t.nbr p).twoHops, isSymNeighbor t q = true

/-- Before a neighbour that could be chosen without being symmetric, nothing is counted. -/
def CountersZero (t : Tables) : Prop :=
  ∀ l₁ p l₂, t.nbrs = l₁ ++ p :: l₂ → Doubtful t p → NothingReached t l₁

theorem foldl_countTwoHop {w : TwoHopCount} : ∀ (l : List Ptr), (∀ q ∈ l, isSymNeighbor t q = true) →
    l.foldl (countTwoHop t) w = w
  | [], _ => rfl
  | q :: l, h => by
    have hq : countTwoHop t w q = w := by
      rw [countTwoHop, if_pos (h q (List.mem_cons_self ..))]
    rw [List.foldl_cons, hq]
    exact foldl_countTwoHop l fun q' hq' => h q' (List.mem_cons_of_mem _ hq')

theorem foldl_countTwoHop_st (w : TwoHopCount) : ∀ (l : List Ptr),
    (l.foldl (countTwoHop t) w).st.nocov = w.st.nocov ∧ (l.foldl (countTwoHop t) w).st.isMpr = w.st.isMpr
  | [] => ⟨rfl, rfl⟩
  | q :: l => by
    have hq : (countTwoHop t w q).st.nocov = w.st.nocov ∧ (countTwoHop t w q).st.isMpr = w.st.isMpr := by
      unfold countTwoHop
      split
      · exact ⟨rfl, rfl⟩
      · dsimp only
        split <;> exact ⟨rfl, rfl⟩
    obtain ⟨h1, h2⟩ := foldl_countTwoHop_st (countTwoHop t w q) l
    exact ⟨h1.trans hq.1, h2.trans hq.2⟩

theorem countNeighbor_frame (w : TwoHopCount) (p : Ptr) :
    (countNeighbor t w p).st.isMpr = w.st.isMpr ∧ ∀ n, n ≠ p → (countNeighbor t w p).st.nocov n = w.st.nocov n := by
  unfold countNeighbor
  split
  · exact ⟨rfl, fun n hn => Function.update_of_ne hn ..⟩
  · obtain ⟨h1, h2⟩ := foldl_countTwoHop_st w (t.nbr p).twoHops
    exact ⟨h2, fun n hn => (Function.update_of_ne hn ..).trans (congrFun h1 n)⟩

theorem NothingReached.left {l₁ l₂ : List Ptr} (h : NothingReached t (l₁ ++ l₂)) : NothingReached t l₁ :=
  fun n hn => h n (List.mem_append_left _ hn)

/-- A neighbour before which nothing is counted gets 0. -/
theorem foldl_countNeighbor (hzero : CountersZero t) : ∀ (l l₁ : List Ptr) (w : TwoHopCount), t.nbrs = l₁ ++ l →
    (NothingReached t l₁ → w.count = 0) → (∀ n ∈ l₁, Doubtful t n → w.st.nocov n = 0) →
    ∀ n ∈ t.nbrs, Doubtful t n → (l.foldl (countNeighbor t) w).st.nocov n = 0
  | [], l₁, _, hl, _, hdone => by
    rw [List.append_nil] at hl
    exact hl ▸ hdone
  | p :: l, l₁, w, hl, hcount, hdone => by
    have hl' : t.nbrs = (l₁ ++ [p]) ++ l := by rw [hl, List.append_assoc]; rfl
    refine foldl_countNeighbor hzero l (l₁ ++ [p]) _ hl' ?_ ?_
    · intro hnone
      have hw := hcount hnone.left
      unfold countNeighbor
      split
      · exact hw
      · rename_i hsym
        rw [foldl_countTwoHop _ (hnone p (List.mem_append_right _ (List.mem_singleton_self p)) (by simpa using hsym))]
        exact hw
    · intro n hn hdoubt
      by_cases hnp : n = p
      · subst hnp
        have hw := hcount (hzero l₁ n l hl hdoubt)
        rw [countNeighbor, if_pos (by simp [hdoubt.1])]
        simp [setNocov, hw]
      · rw [(countNeighbor_frame w p).2 n hnp]
        refine hdone n ?_ hdoubt
        rcases List.mem_append.1 hn with hn | hn
        · exact hn
        · exact absurd (List.mem_singleton.1 hn) hnp

theorem foldl_countNeighbor_isMpr : ∀ (l : List Ptr) (w : TwoHopCount),
    (l.foldl (countNeighbor t) w).st.isMpr = w.st.isMpr
  | [], _ => rfl
  | p :: l, w => (foldl_countNeighbor_isMpr l _).trans (countNeighbor_frame w p).1

/-! ### The selection -/

theorem clearMpr_isMpr (st : MprState) (p : Ptr) :
    (clearMpr t st p).isMpr = Function.update st.isMpr p false := by
  unfold clearMpr
  split
  · rfl
  · rename_i h
    exact (Function.update_eq_self_iff.2 (by simpa using h)).symm

theorem foldl_clearMpr : ∀ (l : List Ptr) {st : MprState} {p : Ptr}, p ∈ l ∨ st.isMpr p = false →
    (l.foldl (clearMpr t) st).isMpr p = false
  | [], _, _, h => h.resolve_left (List.not_mem_nil)
  | n :: l, st, p, h => by
    refine foldl_clearMpr l ?_
    rw [clearMpr_isMpr]
    by_cases hpn : p = n
    · subst hpn
      exact .inr (Function.update_self ..)
    · rw [Function.update_of_ne hpn]
      exact h.imp_left fun h => (List.mem_cons.1 h).resolve_left hpn

/-- There is no relay when the selection starts. -/
theorem relaysOk_start (hzero : CountersZero t) (st : MprState) :
    RelaysOk t (olsrCalculateTwoHopNeighbors t (olsrClearMprs t st)).1 where
  relay p hp h := by
    have hclear : (olsrClearMprs t st).isMpr p = false := foldl_clearMpr t.nbrs (.inl hp)
    have hsame := congrFun (foldl_countNeighbor_isMpr (t := t) t.nbrs
      ⟨olsrClearTwoHopProcessed t (olsrClearMprs t st), 0, 0, 0⟩) p
    rw [show (olsrClearTwoHopProcessed t (olsrClearMprs t st)).isMpr p = false from hclear] at hsame
    exact absurd (hsame.symm.trans h) (by simp)
  nocov p hp hsym h1 h7 :=
    foldl_countNeighbor hzero t.nbrs [] _ rfl (fun _ => rfl) (fun _ hn => absurd hn List.not_mem_nil) p hp
      ⟨hsym, h1, h7⟩

theorem RelaysOk.foldl_addWillAlways (cnf : MprCnf) : ∀ (l : List Ptr) {x : MprState × UInt16}, RelaysOk t x.1 →
    RelaysOk t (l.foldl (addWillAlways cnf t) x).1
  | [], _, h => h
  | p :: l, x, h => by
    refine RelaysOk.foldl_addWillAlways cnf l ?_
    unfold addWillAlways
    split
    · exact h
    · rename_i hc
      obtain ⟨hsym, hwill⟩ := not_or.1 hc
      exact h.chosen ⟨by simpa using hsym, by rw [not_not.1 hwill]; decide⟩

/-- All two hop neighbours of the neighbour are symmetric neighbours or have more relays than they need. -/
def removable (cnf : MprCnf) (t : Tables) (covered : Ptr → UInt8) (p : Ptr) : Bool :=
  (t.nbr p).twoHops.all fun q => isSymNeighbor t q || decide (covered q > cnf.mprCoverage)

theorem optimizeMpr_covered (i : Nat) (st : MprState) (n : Ptr) : (optimizeMpr cnf t i st n).covered = st.covered := by
  unfold optimizeMpr
  split <;> rfl

/-- A relay stays, unless it has the willingness and is removable. -/
theorem optimizeMpr_isMpr_iff {i : Nat} {n : Ptr} : (optimizeMpr cnf t i st n).isMpr p = true ↔
    st.isMpr p = true ∧ ¬(p = n ∧ (t.nbr p).willingness = i ∧ removable cnf t st.covered p = true) := by
  unfold optimizeMpr
  split
  · rename_i hc
    by_cases hpn : p = n
    · subst hpn
      rw [setMpr_isMpr, Function.update_self]
      exact iff_of_false (by simp) fun h => h.2 ⟨rfl, hc.1, hc.2.2⟩
    · rw [setMpr_isMpr, Function.update_of_ne hpn]
      simp [hpn]
  · rename_i hc
    refine ⟨fun h => ⟨h, ?_⟩, And.left⟩
    rintro ⟨rfl, hwill, hremovable⟩
    exact hc ⟨hwill, h, hremovable⟩

theorem foldl_optimizeMpr {i : Nat} : ∀ (l : List Ptr) (st : MprState),
    (l.foldl (optimizeMpr cnf t i) st).covered = st.covered ∧
      ((l.foldl (optimizeMpr cnf t i) st).isMpr p = true ↔
        st.isMpr p = true ∧ ¬(p ∈ l ∧ (t.nbr p).willingness = i ∧ removable cnf t st.covered p = true))
  | [], _ => ⟨rfl, by simp⟩
  | n :: l, st => by
    obtain ⟨hcovered, hmpr⟩ := foldl_optimizeMpr l (optimizeMpr cnf t i st n)
    rw [optimizeMpr_covered] at hcovered hmpr
    refine ⟨hcovered, hmpr.trans ?_⟩
    rw [optimizeMpr_isMpr_iff, List.mem_cons]
    tauto

theorem foldl_optimizeLevels (cnf : MprCnf) (t : Tables) : ∀ (levels : List Nat) (st : MprState),
    (levels.foldl (fun st i => t.nbrs.foldl (optimizeMpr cnf t i) st) st).isMpr p = true ↔
      st.isMpr p = true ∧ ¬(p ∈ t.nbrs ∧ (t.nbr p).willingness ∈ levels ∧ removable cnf t st.covered p = true)
  | [], _ => by simp
  | i :: levels, st => by
    obtain ⟨hcovered, hmpr⟩ := @foldl_optimizeMpr cnf t p i t.nbrs st
    rw [List.foldl_cons, foldl_optimizeLevels cnf t levels, hcovered, hmpr, List.mem_cons]
    tauto

theorem foldl_checkMprChange : ∀ (l : List Ptr) (x : MprState × Bool), (l.foldl checkMprChange x).1.isMpr = x.1.isMpr
  | [], _ => rfl
  | p :: l, x => by
    refine (foldl_checkMprChange l _).trans ?_
    unfold checkMprChange
    split <;> rfl

/-- What `olsr_calculate_mpr` has chosen before it optimizes the choice. -/
def chosenMprs (cnf : MprCnf) (t : Tables) (st : MprState) : MprState × UInt16 :=
  chooseByWillingness cnf t (olsrCalculateTwoHopNeighbors t (olsrClearMprs t st)).2 [6, 5, 4, 3, 2, 1]
    (addWillAlwaysNodes cnf t (olsrCalculateTwoHopNeighbors t (olsrClearMprs t st)).1)

/-- The relays that `mpr.c` selects are the chosen ones that the optimization leaves. -/
theorem olsrCalculateMpr_isMpr : (olsrCalculateMpr cnf t st).isMpr p = true ↔
    (chosenMprs cnf t st).1.isMpr p = true ∧ ¬(p ∈ t.nbrs ∧ (t.nbr p).willingness ∈ [1, 2, 3, 4, 5, 6] ∧
      removable cnf t (chosenMprs cnf t st).1.covered p = true) := by
  have hcheck := congrFun (foldl_checkMprChange t.nbrs (olsrOptimizeMprSet cnf t (chosenMprs cnf t st).1, false)) p
  have hsame : (olsrCalculateMpr cnf t st).isMpr p =
      (olsrOptimizeMprSet cnf t (chosenMprs cnf t st).1).isMpr p := by
    refine Eq.trans ?_ hcheck
    unfold olsrCalculateMpr
    dsimp only
    split <;> rfl
  rw [hsame]
  exact foldl_optimizeLevels cnf t [1, 2, 3, 4, 5, 6] _

/-- If no counter is carried over to a neighbour that is not symmetric, the relays of `mpr.c` are eligible. -/
theorem olsrCalculateMpr_eligible (hzero : CountersZero t) (hp : p ∈ t.nbrs)
    (h : (olsrCalculateMpr cnf t st).isMpr p = true) : Eligible t p := by
  have hstart := (relaysOk_start hzero st).foldl_addWillAlways cnf t.nbrs
    (x := ((olsrCalculateTwoHopNeighbors t (olsrClearMprs t st)).1, 0))
  have hchosen := @chooseByWillingness_keeps cnf t (fun x => RelaysOk t x.1)
    (fun x p hx hc => hx.chosen (hx.eligible hc))
    (olsrCalculateTwoHopNeighbors t (olsrClearMprs t st)).2 [6, 5, 4, 3, 2, 1] _ (by decide) hstart
  exact hchosen.relay p hp (olsrCalculateMpr_isMpr.1 h).1

/-! ## Both selections -/

/-- The relays are eligible in `mpr.c` if no counter is carried over to a neighbour that is not symmetric, and in
`lq_mpr.c` just if no neighbour that is never willing is one of the best for a two hop neighbour. -/
theorem relays_eligible (cnf : MprCnf) (t : Tables) (st : MprState) :
    (CountersZero t → ∀ p ∈ t.nbrs, (olsrCalculateMpr cnf t st).isMpr p = true → Eligible t p) ∧
      ((∀ p ∈ t.nbrs, (olsrCalculateLqMpr cnf t st).isMpr p = true → Eligible t p) ↔
        ∀ p ∈ t.nbrs, (t.nbr p).willingness = willNever → ∀ q ∈ t.twoHops, ¬BestFor cnf t q p) := by
  refine ⟨fun hzero p hp h => olsrCalculateMpr_eligible hzero hp h, ?_, ?_⟩
  · intro h p hp hnever q hq hbest
    exact (h p hp ((olsrCalculateLqMpr_isMpr st hp).2 (.inr ⟨q, hq, hbest⟩))).willing hnever
  · intro h p hp hmpr
    rcases (olsrCalculateLqMpr_isMpr st hp).1 hmpr with ⟨hsym, halways⟩ | ⟨q, hq, hbest⟩
    · exact ⟨hsym, by rw [halways]; decide⟩
    · exact ⟨hbest.sym, fun hnever => h p hp hnever q hq hbest⟩

/-- A two hop neighbour 11 of the neighbours 1 and 2. -/
def twoNeighbors (nbr : Ptr → Neighbor) : Tables where
  nbrs := [1, 2]
  nbr := nbr
  twoHops := [11]
  twoHop _ := ⟨[10, 0, 0, 11], 2, [(1, 2048), (2, 4096)]⟩
  lookup _ := none
  bestLinkcost _ := none

/-- Both are symmetric and willing. -/
theorem willingNeighbors_eligible :
    ((olsrCalculateMpr ⟨1, 0⟩ (twoNeighbors fun _ => ⟨true, 3, [11]⟩) noMprs).isMpr 2 = true ∧
      Eligible (twoNeighbors fun _ => ⟨true, 3, [11]⟩) 2) ∧
    ∀ p ∈ [1, 2], (olsrCalculateLqMpr ⟨1, 0⟩ (twoNeighbors fun _ => ⟨true, 3, [11]⟩) noMprs).isMpr p = true →
      Eligible (twoNeighbors fun _ => ⟨true, 3, [11]⟩) p := by
  obtain ⟨h₁, h₂⟩ := relays_eligible ⟨1, 0⟩ (twoNeighbors fun _ => ⟨true, 3, [11]⟩) noMprs
  have hrelay : (olsrCalculateMpr ⟨1, 0⟩ (twoNeighbors fun _ => ⟨true, 3, [11]⟩) noMprs).isMpr 2 = true := by
    decide +kernel
  refine ⟨⟨hrelay, h₁ (fun _ _ _ _ hdoubt => ?_) 2 (by decide) hrelay⟩, h₂.2 fun _ _ hnever => ?_⟩
  · nomatch hdoubt.1
  · nomatch hnever

/-- Neighbour 1 is symmetric and never willing, neighbour 2 is not symmetric and willing. -/
theorem unfitNeighbors_relays :
    (2 ∈ [1, 2] ∧ (olsrCalculateMpr ⟨1, 0⟩ (twoNeighbors fun p => ⟨p == 1, if p = 1 then 0 else 6, [11]⟩)
        noMprs).isMpr 2 = true ∧
      ¬Eligible (twoNeighbors fun p => ⟨p == 1, if p = 1 then 0 else 6, [11]⟩) 2) ∧
    1 ∈ [1, 2] ∧ (olsrCalculateLqMpr ⟨1, 0⟩ (twoNeighbors fun p => ⟨p == 1, if p = 1 then 0 else 6, [11]⟩)
        noMprs).isMpr 1 = true ∧
      ¬Eligible (twoNeighbors fun p => ⟨p == 1, if p = 1 then 0 else 6, [11]⟩) 1 :=
  ⟨⟨by decide, by decide +kernel, fun h => nomatch h.sym⟩, by decide, by decide +kernel, fun h => h.willing rfl⟩

end Olsrd.Mpr
