/-
What the counters of `mpr.c` count while relays are chosen: `mpr_covered_count` the relays of a two hop neighbour,
`two_hop_covered_count` no more than the entries in the lists of the relays, and `neighbor_2_nocov` no less than what is
left when each two hop neighbour is taken off again with every relay that it gets beyond `mpr_coverage`.
-/
import Olsrd.Mpr.Eligible
import Olsrd.Mpr.LqChoice

namespace Olsrd.Mpr

open Olsrd.Neighbor (Ptr willNever)

variable {cnf : MprCnf} {t : Tables} {p q : Ptr}

/-! ## Tables whose lists agree -/

/-- Each table names an entry once, and the lists lead from one table to the other. -/
structure TablesWf (t : Tables) : Prop extends CrossLinked t where
  nbrsNodup : t.nbrs.Nodup
  hopsNodup : ∀ p ∈ t.nbrs, (t.nbr p).twoHops.Nodup
  queued : ∀ p ∈ t.nbrs, ∀ q ∈ (t.nbr p).twoHops, q ∈ t.twoHops
  listed : ∀ q ∈ t.twoHops, ∀ p ∈ (t.twoHop q).nblist.map Prod.fst, p ∈ t.nbrs
  pointer : ∀ q ∈ t.twoHops, (t.twoHop q).pointer = (t.twoHop q).nblist.length

/-- The neighbours that reach a two hop neighbour. -/
def reachedBy (t : Tables) (q : Ptr) : List Ptr := (t.twoHop q).nblist.map Prod.fst

/-- The two hop neighbours of a neighbour that are no symmetric neighbours. -/
def toCover (t : Tables) (p : Ptr) : List Ptr := (t.nbr p).twoHops.filter fun q => !isSymNeighbor t q

theorem mem_toCover : q ∈ toCover t p ↔ q ∈ (t.nbr p).twoHops ∧ isSymNeighbor t q = false := by
  simp [toCover]

theorem TablesWf.mem_reachedBy (ht : TablesWf t) (hp : p ∈ t.nbrs) (hq : q ∈ t.twoHops) :
    p ∈ reachedBy t q ↔ q ∈ (t.nbr p).twoHops :=
  (ht.mirror p hp q hq).symm

theorem TablesWf.nodup_reachedBy (ht : TablesWf t) (hq : q ∈ t.twoHops) : (reachedBy t q).Nodup :=
  ht.nodup q hq

theorem TablesWf.nodup_toCover (ht : TablesWf t) (hp : p ∈ t.nbrs) : (toCover t p).Nodup :=
  (ht.hopsNodup p hp).filter _

/-- How many relays a two hop neighbour has. -/
def relayCount (t : Tables) (st : MprState) (q : Ptr) : Nat := (reachedBy t q).countP st.isMpr

/-! ## The choice of a relay -/

/-- How often a two hop neighbour with `n` relays has been taken for covered. -/
def timesCovered (cnf : MprCnf) (n : Nat) : Nat := n + 1 - cnf.mprCoverage.toNat

/-- The counters when the two hop neighbours have got `m` relays and `neighbor_2_nocov` was `c` at first. -/
structure Counted (cnf : MprCnf) (t : Tables) (c m : Ptr → Nat) (st : MprState) : Prop where
  covered : ∀ p ∈ t.nbrs, ∀ q ∈ toCover t p, (st.covered q).toNat = m q % 256
  nocov : ∀ p ∈ t.nbrs, (t.nbr p).sym = true →
    (c p : Int) ≤ st.nocov p + (((toCover t p).map fun q => timesCovered cnf (m q)).sum : Nat)
  kept : ∀ p ∈ t.nbrs, (t.nbr p).sym = false → st.nocov p = c p

theorem Counted.congr {c m m' : Ptr → Nat} {st : MprState} (h : Counted cnf t c m st)
    (hm : ∀ p ∈ t.nbrs, ∀ q ∈ toCover t p, m' q = m q) : Counted cnf t c m' st where
  covered p hp q hq := by rw [hm p hp q hq]; exact h.covered p hp q hq
  nocov p hp hsym := by
    rw [List.map_congr_left fun q hq => by rw [hm p hp q hq]]
    exact h.nocov p hp hsym
  kept := h.kept

theorem foldl_decreaseNocov_covered : ∀ (l : List (Ptr × UInt32)) (st : MprState),
    (l.foldl (decreaseNocov t) st).covered = st.covered
  | [], _ => rfl
  | n :: l, st => by
    refine (foldl_decreaseNocov_covered l _).trans ?_
    unfold decreaseNocov
    split <;> rfl

/-- Each entry of the list takes 1 off the counter of its neighbour. -/
theorem foldl_decreaseNocov_sym (hsym : (t.nbr p).sym = true) : ∀ (l : List (Ptr × UInt32)) (st : MprState),
    (l.foldl (decreaseNocov t) st).nocov p = st.nocov p - ((l.map Prod.fst).count p : Nat)
  | [], _ => by simp
  | n :: l, st => by
    rw [List.foldl_cons, foldl_decreaseNocov_sym hsym l, List.map_cons, List.count_cons]
    unfold decreaseNocov
    by_cases hn : n.1 = p
    · subst hn
      rw [if_pos hsym, if_pos (by simp)]
      simp only [Function.update_self]
      omega
    · have hne : (n.1 == p) = false := by simpa using hn
      rw [hne, if_neg Bool.false_ne_true, Nat.add_zero]
      split
      · simp only [Function.update_of_ne (Ne.symm hn)]
      · rfl

theorem coverTwoHop_covered {x : MprState × UInt16} (hq : isSymNeighbor t q = false) :
    (coverTwoHop cnf t x q).1.covered = Function.update x.1.covered q (x.1.covered q + 1) := by
  unfold coverTwoHop
  rw [if_neg (by simp [hq])]
  dsimp only
  split
  · exact foldl_decreaseNocov_covered _ _
  · rfl

/-- What a two hop neighbour takes off the counter of a neighbour, when it gets a relay. -/
theorem coverTwoHop_nocov (ht : TablesWf t) (hq : q ∈ t.twoHops) {x : MprState × UInt16}
    (hsym : isSymNeighbor t q = false) (hp : (t.nbr p).sym = true) :
    (coverTwoHop cnf t x q).1.nocov p = x.1.nocov p ∨
      x.1.nocov p = (coverTwoHop cnf t x q).1.nocov p + 1 ∧ p ∈ reachedBy t q ∧
        cnf.mprCoverage.toNat ≤ (x.1.covered q + 1).toNat := by
  unfold coverTwoHop
  rw [if_neg (by simp [hsym])]
  dsimp only
  split
  · rename_i hcovered
    rw [Function.update_self] at hcovered
    rw [foldl_decreaseNocov_sym hp, (ht.nodup q hq).count]
    split
    · rename_i hmem
      exact .inr ⟨by dsimp only; omega, hmem, UInt8.le_iff_toNat_le.1 hcovered⟩
    · exact .inl (by simp)
  · exact .inl rfl

/-- A two hop neighbour gets a relay. -/
theorem Counted.coverTwoHop (ht : TablesWf t) (hq : q ∈ t.twoHops) {c m : Ptr → Nat} {x : MprState × UInt16}
    (h : Counted cnf t c m x.1) :
    Counted cnf t c (Function.update m q (m q + 1)) (Mpr.coverTwoHop cnf t x q).1 := by
  by_cases hsym : isSymNeighbor t q = true
  · have hsame : Mpr.coverTwoHop cnf t x q = x := if_pos hsym
    rw [hsame]
    refine h.congr fun p _ r hr => Function.update_of_ne ?_ ..
    rintro rfl
    rw [(mem_toCover.1 hr).2] at hsym
    nomatch hsym
  have hsym : isSymNeighbor t q = false := by simpa using hsym
  refine ⟨?_, ?_, fun p hp hps => ((coverTwoHop_frame cnf x q).2 p hps).trans (h.kept p hp hps)⟩
  · intro p hp r hr
    rw [coverTwoHop_covered hsym]
    by_cases hrq : r = q
    · subst hrq
      rw [Function.update_self, Function.update_self, UInt8.toNat_add, h.covered p hp r hr]
      simp
    · rw [Function.update_of_ne hrq, Function.update_of_ne hrq]
      exact h.covered p hp r hr
  · intro p hp hps
    have hle := h.nocov p hp hps
    by_cases hmem : q ∈ toCover t p
    · have hsum := Tally.sum_map_update m (timesCovered cnf) (m q + 1) (ht.nodup_toCover hp) hmem
      have hmono : timesCovered cnf (m q) ≤ timesCovered cnf (m q + 1) := by
        unfold timesCovered
        omega
      rcases @coverTwoHop_nocov cnf t p q ht hq x hsym hps with hsame | ⟨hless, -, hcovered⟩
      · rw [hsame]
        omega
      · have hstep : timesCovered cnf (m q + 1) = timesCovered cnf (m q) + 1 := by
          rw [UInt8.toNat_add, h.covered p hp q hmem] at hcovered
          have hmod : (m q % 256 + 1) % 256 ≤ m q + 1 := by omega
          have hle := le_trans hcovered hmod
          unfold timesCovered
          omega
        omega
    · rw [Tally.sum_map_update_of_notMem m (timesCovered cnf) (m q + 1) hmem]
      rcases @coverTwoHop_nocov cnf t p q ht hq x hsym hps with hsame | ⟨-, hreached, -⟩
      · rw [hsame]
        exact hle
      · exact absurd (mem_toCover.2 ⟨(ht.mem_reachedBy hp hq).1 hreached, hsym⟩) hmem

theorem Counted.foldl_coverTwoHop (ht : TablesWf t) {c : Ptr → Nat} : ∀ (l : List Ptr) {m : Ptr → Nat}
    {x : MprState × UInt16}, (∀ q ∈ l, q ∈ t.twoHops) → Counted cnf t c m x.1 →
    Counted cnf t c (fun q => m q + l.count q) (l.foldl (Mpr.coverTwoHop cnf t) x).1
  | [], _, _, _, h => h
  | q :: l, m, x, hl, h => by
    have hrest := (h.coverTwoHop ht (hl q (List.mem_cons_self ..))).foldl_coverTwoHop ht l
      fun r hr => hl r (List.mem_cons_of_mem _ hr)
    refine hrest.congr fun p _ r _ => ?_
    by_cases hrq : r = q
    · subst hrq
      rw [Function.update_self, List.count_cons_self]
      omega
    · rw [Function.update_of_ne hrq, List.count_cons_of_ne (Ne.symm hrq)]

/-- A neighbour that becomes a relay is one relay more for its two hop neighbours. -/
theorem Counted.chosen (ht : TablesWf t) {c : Ptr → Nat} {x : MprState × UInt16} (hp : p ∈ t.nbrs)
    (hnew : x.1.isMpr p = false) (h : Counted cnf t c (relayCount t x.1) x.1) :
    Counted cnf t c (relayCount t (olsrChosenMpr cnf t x p).1) (olsrChosenMpr cnf t x p).1 := by
  have hset : Counted cnf t c (relayCount t x.1) (setMpr x.1 p true) := ⟨h.covered, h.nocov, h.kept⟩
  have hfold := hset.foldl_coverTwoHop ht (t.nbr p).twoHops (x := (setMpr x.1 p true, x.2)) (ht.queued p hp)
  refine hfold.congr fun n hn q hq => ?_
  have hmem := ht.queued n hn q (mem_toCover.1 hq).1
  rw [relayCount, (olsrChosenMpr_frame cnf x p).1, Tally.countP_update (ht.nodup_reachedBy hmem) hnew,
    (ht.hopsNodup p hp).count]
  simp only [ht.mem_reachedBy hp hmem]
  rfl

/-- `two_hop_covered_count` grows with the entries in the list of the relay at most. -/
theorem foldl_coverTwoHop_count : ∀ (l : List Ptr) (x : MprState × UInt16),
    (l.foldl (coverTwoHop cnf t) x).2.toNat ≤ x.2.toNat + (l.filter fun q => !isSymNeighbor t q).length
  | [], _ => Nat.le_add_right _ _
  | q :: l, x => by
    have hrest := foldl_coverTwoHop_count l (coverTwoHop cnf t x q)
    rw [List.foldl_cons, List.filter_cons]
    by_cases hsym : isSymNeighbor t q = true
    · have hsame : coverTwoHop cnf t x q = x := if_pos hsym
      rw [hsame] at hrest ⊢
      simpa [hsym] using hrest
    · have hstep : (coverTwoHop cnf t x q).2.toNat ≤ x.2.toNat + 1 := by
        unfold coverTwoHop
        rw [if_neg hsym]
        dsimp only
        split
        · rw [UInt16.toNat_add]
          exact Nat.mod_le _ _
        · exact Nat.le_succ _
      rw [if_pos (by simpa using hsym), List.length_cons]
      omega

theorem olsrChosenMpr_count (cnf : MprCnf) (x : MprState × UInt16) (p : Ptr) :
    (olsrChosenMpr cnf t x p).2.toNat ≤ x.2.toNat + (toCover t p).length :=
  foldl_coverTwoHop_count _ _

/-! ## The start -/

/-- The entries to cover in the lists of the symmetric neighbours up to `p`. -/
def countedUpTo (t : Tables) (p : Ptr) : List Ptr → Nat
  | [] => 0
  | n :: l => (if (t.nbr n).sym then (toCover t n).length else 0) + if n = p then 0 else countedUpTo t p l

/-- How many two hop neighbours the symmetric neighbours before `p` have reached. -/
def reachedBefore (t : Tables) (p : Ptr) (seen : Finset Ptr) : List Ptr → Nat
  | [] => 0
  | n :: l =>
    if n = p then seen.card
    else reachedBefore t p (if (t.nbr n).sym then seen ∪ (toCover t n).toFinset else seen) l

/-- The counter of a neighbour at the start: one that is not symmetric gets the count of those before it. -/
def startCount (t : Tables) (p : Ptr) : Nat :=
  if (t.nbr p).sym then countedUpTo t p t.nbrs else reachedBefore t p ∅ t.nbrs

/-- The two hop neighbours that the symmetric neighbours have reached so far, summed up over these. -/
def reachedSum (t : Tables) (seen : Finset Ptr) : List Ptr → Nat
  | [] => 0
  | n :: l =>
    if (t.nbr n).sym then (seen ∪ (toCover t n).toFinset).card + reachedSum t (seen ∪ (toCover t n).toFinset) l
    else reachedSum t seen l

/-- The entries to cover in the lists of some neighbours. -/
def coverSum (t : Tables) (l : List Ptr) : Nat := (l.map fun p => (toCover t p).length).sum

theorem countedUpTo_le (t : Tables) (p : Ptr) : ∀ l : List Ptr,
    countedUpTo t p l ≤ coverSum t (l.filter (t.nbr · |>.sym))
  | [] => Nat.zero_le _
  | n :: l => by
    have hrest := countedUpTo_le t p l
    rw [countedUpTo, List.filter_cons]
    by_cases hsym : (t.nbr n).sym = true
    · rw [if_pos hsym, if_pos hsym, coverSum, List.map_cons, List.sum_cons]
      rw [coverSum] at hrest
      split <;> omega
    · rw [if_neg hsym, if_neg hsym]
      split <;> omega

/-- The total is not below what there is to cover. -/
theorem coverSum_le_reachedSum (ht : TablesWf t) : ∀ (l : List Ptr) (seen : Finset Ptr), (∀ n ∈ l, n ∈ t.nbrs) →
    coverSum t (l.filter (t.nbr · |>.sym)) ≤ reachedSum t seen l
  | [], _, _ => Nat.zero_le _
  | n :: l, seen, hl => by
    have hn := hl n (List.mem_cons_self ..)
    have hl' : ∀ m ∈ l, m ∈ t.nbrs := fun m hm => hl m (List.mem_cons_of_mem _ hm)
    rw [reachedSum, List.filter_cons]
    by_cases hsym : (t.nbr n).sym = true
    · have hcard : (toCover t n).length ≤ (seen ∪ (toCover t n).toFinset).card := by
        rw [← List.toFinset_card_of_nodup (ht.nodup_toCover hn)]
        exact Finset.card_le_card Finset.subset_union_right
      have hrest := coverSum_le_reachedSum ht l (seen ∪ (toCover t n).toFinset) hl'
      rw [if_pos hsym, if_pos hsym, coverSum, List.map_cons, List.sum_cons]
      rw [coverSum] at hrest
      omega
    · rw [if_neg hsym, if_neg hsym]
      exact coverSum_le_reachedSum ht l seen hl'

theorem reachedBefore_le (t : Tables) (p : Ptr) : ∀ (l : List Ptr) (seen : Finset Ptr),
    reachedBefore t p seen l ≤ max seen.card (reachedSum t seen l)
  | [], _ => Nat.zero_le _
  | n :: l, seen => by
    rw [reachedBefore, reachedSum]
    split
    · exact le_max_left _ _
    · by_cases hsym : (t.nbr n).sym = true
      · have hrest := reachedBefore_le t p l (seen ∪ (toCover t n).toFinset)
        rw [if_pos hsym, if_pos hsym]
        omega
      · rw [if_neg hsym, if_neg hsym]
        exact reachedBefore_le t p l seen

/-- The two hop neighbours that are processed, with their number. -/
structure Seen (t : Tables) (seen : Finset Ptr) (w : TwoHopCount) : Prop where
  processed : ∀ q ∈ t.twoHops, w.st.processed q = true ↔ q ∈ seen
  count : w.count.toNat = seen.card % 65536

theorem Seen.countTwoHop {seen : Finset Ptr} {w : TwoHopCount} (h : Seen t seen w) (hq : q ∈ t.twoHops)
    (hsym : isSymNeighbor t q = false) : Seen t (insert q seen) (Mpr.countTwoHop t w q) := by
  unfold Mpr.countTwoHop
  rw [if_neg (by simp [hsym])]
  dsimp only
  split
  · rename_i hprocessed
    rw [Finset.insert_eq_of_mem ((h.processed q hq).1 hprocessed)]
    exact ⟨h.processed, h.count⟩
  · rename_i hprocessed
    have hnew : q ∉ seen := fun hmem => hprocessed ((h.processed q hq).2 hmem)
    refine ⟨fun r hr => ?_, ?_⟩
    · dsimp only
      rw [Finset.mem_insert]
      by_cases hrq : r = q
      · simp [hrq]
      · rw [Function.update_of_ne hrq, h.processed r hr]
        simp [hrq]
    · dsimp only
      rw [UInt16.toNat_add, h.count, Finset.card_insert_of_notMem hnew]
      simp

theorem Seen.foldl_countTwoHop : ∀ (l : List Ptr) {seen : Finset Ptr} {w : TwoHopCount}, (∀ q ∈ l, q ∈ t.twoHops) →
    Seen t seen w →
    Seen t (seen ∪ (l.filter fun q => !isSymNeighbor t q).toFinset) (l.foldl (Mpr.countTwoHop t) w) ∧
      (l.foldl (Mpr.countTwoHop t) w).nCount.toNat =
        (w.nCount.toNat + (l.filter fun q => !isSymNeighbor t q).length) % 65536 ∧
      (l.foldl (Mpr.countTwoHop t) w).sum = w.sum
  | [], seen, w, _, h => by
    have hlt := w.nCount.toNat_lt
    refine ⟨by simpa using h, ?_, rfl⟩
    rw [List.foldl_nil, List.filter_nil, List.length_nil]
    omega
  | q :: l, seen, w, hl, h => by
    have hq := hl q (List.mem_cons_self ..)
    have hl' : ∀ r ∈ l, r ∈ t.twoHops := fun r hr => hl r (List.mem_cons_of_mem _ hr)
    rw [List.foldl_cons, List.filter_cons]
    by_cases hsym : isSymNeighbor t q = true
    · have hsame : Mpr.countTwoHop t w q = w := if_pos hsym
      rw [hsame, if_neg (by simp [hsym])]
      exact h.foldl_countTwoHop l hl'
    · have hsym' : isSymNeighbor t q = false := by simpa using hsym
      have hstep : (Mpr.countTwoHop t w q).nCount = w.nCount + 1 ∧ (Mpr.countTwoHop t w q).sum = w.sum := by
        unfold Mpr.countTwoHop
        rw [if_neg hsym]
        dsimp only
        split <;> exact ⟨rfl, rfl⟩
      obtain ⟨hseen, hcount, hsum⟩ := (h.countTwoHop hq hsym').foldl_countTwoHop l hl'
      rw [if_pos (by simp [hsym'])]
      refine ⟨?_, ?_, hsum.trans hstep.2⟩
      · rw [List.toFinset_cons, Finset.union_insert, ← Finset.insert_union]
        exact hseen
      · rw [hcount, hstep.1, UInt16.toNat_add, List.length_cons]
        simp only [UInt16.reduceToNat]
        omega

theorem foldl_countTwoHop_covered : ∀ (l : List Ptr) (w : TwoHopCount),
    (l.foldl (countTwoHop t) w).st.covered = w.st.covered
  | [], _ => rfl
  | q :: l, w => by
    refine (foldl_countTwoHop_covered l _).trans ?_
    unfold countTwoHop
    split
    · rfl
    · dsimp only
      split <;> rfl

theorem foldl_countNeighbor_covered : ∀ (l : List Ptr) (w : TwoHopCount),
    (l.foldl (countNeighbor t) w).st.covered = w.st.covered
  | [], _ => rfl
  | p :: l, w => by
    refine (foldl_countNeighbor_covered l _).trans ?_
    unfold countNeighbor
    split
    · rfl
    · exact foldl_countTwoHop_covered _ _

theorem foldl_countNeighbor_nocov : ∀ (l : List Ptr) (w : TwoHopCount), p ∉ l →
    (l.foldl (countNeighbor t) w).st.nocov p = w.st.nocov p
  | [], _, _ => rfl
  | n :: l, w, hp => by
    refine (foldl_countNeighbor_nocov l _ fun h => hp (List.mem_cons_of_mem _ h)).trans ?_
    exact (countNeighbor_frame w n).2 p fun h => hp (h ▸ List.mem_cons_self ..)

/-- A symmetric neighbour adds its own entries to the running count, and to the total what has been reached so far. -/
theorem Seen.countNeighbor_sym (ht : TablesWf t) {seen : Finset Ptr} {w : TwoHopCount} (h : Seen t seen w)
    (hp : p ∈ t.nbrs) (hsym : (t.nbr p).sym = true) :
    Seen t (seen ∪ (toCover t p).toFinset) (Mpr.countNeighbor t w p) ∧
      (Mpr.countNeighbor t w p).nCount.toNat = (w.nCount.toNat + (toCover t p).length) % 65536 ∧
      (Mpr.countNeighbor t w p).sum.toNat = (w.sum.toNat + (seen ∪ (toCover t p).toFinset).card) % 65536 ∧
      (Mpr.countNeighbor t w p).st.nocov p = (Mpr.countNeighbor t w p).nCount.toNat := by
  obtain ⟨hseen, hcount, hsum⟩ := h.foldl_countTwoHop (t.nbr p).twoHops (ht.queued p hp)
  unfold Mpr.countNeighbor
  rw [if_neg (by simp [hsym])]
  refine ⟨⟨hseen.processed, hseen.count⟩, hcount, ?_, Function.update_self ..⟩
  have hreached := hseen.count
  dsimp only
  rw [UInt16.toNat_add, hsum, hreached, Nat.add_mod_mod]
  rfl

/-- A neighbour that is not symmetric gets the count of those before it. -/
theorem Seen.countNeighbor_notSym {seen : Finset Ptr} {w : TwoHopCount} (h : Seen t seen w)
    (hsym : (t.nbr p).sym = false) :
    Seen t seen (Mpr.countNeighbor t w p) ∧ (Mpr.countNeighbor t w p).nCount = w.nCount ∧
      (Mpr.countNeighbor t w p).sum = w.sum ∧
      (Mpr.countNeighbor t w p).st.nocov p = (seen.card % 65536 : Nat) := by
  unfold Mpr.countNeighbor
  rw [if_pos (by simp [hsym])]
  refine ⟨⟨h.processed, h.count⟩, rfl, rfl, ?_⟩
  dsimp only [setNocov]
  rw [Function.update_self, h.count]

/-- The counters of the neighbours and the total, as long as nothing overflows. -/
theorem Seen.foldl_countNeighbor (ht : TablesWf t) : ∀ (l : List Ptr) {seen : Finset Ptr} {w : TwoHopCount},
    (∀ n ∈ l, n ∈ t.nbrs) → l.Nodup → Seen t seen w →
    (l.foldl (Mpr.countNeighbor t) w).sum.toNat = (w.sum.toNat + reachedSum t seen l) % 65536 ∧
      (∀ p ∈ l, (t.nbr p).sym = true → (l.foldl (Mpr.countNeighbor t) w).st.nocov p =
        ((w.nCount.toNat + countedUpTo t p l) % 65536 : Nat)) ∧
      ∀ p ∈ l, (t.nbr p).sym = false → (l.foldl (Mpr.countNeighbor t) w).st.nocov p =
        (reachedBefore t p seen l % 65536 : Nat)
  | [], _, w, _, _, _ => by
    have hlt := w.sum.toNat_lt
    refine ⟨?_, by simp, by simp⟩
    rw [List.foldl_nil, reachedSum]
    omega
  | n :: l, seen, w, hl, hnodup, h => by
    have hn := hl n (List.mem_cons_self ..)
    have hl' : ∀ m ∈ l, m ∈ t.nbrs := fun m hm => hl m (List.mem_cons_of_mem _ hm)
    obtain ⟨hnl, hnodup⟩ := List.nodup_cons.1 hnodup
    rw [List.foldl_cons, reachedSum]
    cases hsym : (t.nbr n).sym with
    | true =>
      obtain ⟨hseen, hcount, hsum, hself⟩ := h.countNeighbor_sym ht hn hsym
      obtain ⟨htotal, hnocov, hkept⟩ := hseen.foldl_countNeighbor ht l hl' hnodup
      refine ⟨?_, fun p hp hps => ?_, fun p hp hps => ?_⟩
      · rw [htotal, hsum, if_pos rfl, Nat.mod_add_mod, Nat.add_assoc]
      · rw [countedUpTo, if_pos hsym]
        by_cases hpn : n = p
        · subst hpn
          rw [foldl_countNeighbor_nocov l _ hnl, hself, hcount, if_pos rfl, Nat.add_zero]
        · rw [hnocov p ((List.mem_cons.1 hp).resolve_left (Ne.symm hpn)) hps, hcount, if_neg hpn, Nat.mod_add_mod,
            Nat.add_assoc]
      · have hpn : n ≠ p := by
          rintro rfl
          rw [hsym] at hps
          nomatch hps
        rw [reachedBefore, if_neg hpn, if_pos hsym]
        exact hkept p ((List.mem_cons.1 hp).resolve_left (Ne.symm hpn)) hps
    | false =>
      obtain ⟨hseen, hcount, hsum, hself⟩ := h.countNeighbor_notSym hsym
      obtain ⟨htotal, hnocov, hkept⟩ := hseen.foldl_countNeighbor ht l hl' hnodup
      have hnot : ¬(t.nbr n).sym = true := by simp [hsym]
      refine ⟨?_, fun p hp hps => ?_, fun p hp hps => ?_⟩
      · rw [htotal, hsum, if_neg Bool.false_ne_true]
      · have hpn : n ≠ p := by
          rintro rfl
          exact hnot hps
        rw [hnocov p ((List.mem_cons.1 hp).resolve_left (Ne.symm hpn)) hps, hcount, countedUpTo, if_neg hnot,
          if_neg hpn, Nat.zero_add]
      · rw [reachedBefore, if_neg hnot]
        by_cases hpn : n = p
        · subst hpn
          rw [foldl_countNeighbor_nocov l _ hnl, hself, if_pos rfl]
        · rw [if_neg hpn]
          exact hkept p ((List.mem_cons.1 hp).resolve_left (Ne.symm hpn)) hps

theorem foldl_clearMpr_covered : ∀ (l : List Ptr) {st : MprState},
    (∃ p ∈ l, q ∈ (t.nbr p).twoHops) ∨ st.covered q = 0 → (l.foldl (clearMpr t) st).covered q = 0
  | [], _, h => h.resolve_left (by simp)
  | n :: l, st, h => by
    refine foldl_clearMpr_covered l ?_
    have hstep : (clearMpr t st n).covered q = if q ∈ (t.nbr n).twoHops then 0 else st.covered q := by
      unfold clearMpr
      dsimp only
      split
      · rfl
      · split <;> rfl
    rw [hstep]
    rcases h with ⟨p, hp, hq⟩ | hzero
    · rcases List.mem_cons.1 hp with rfl | hp
      · exact .inr (if_pos hq)
      · exact .inl ⟨p, hp, hq⟩
    · exact .inr (by rw [hzero, ite_self])

/-- The counters at the start. -/
theorem counted_start (ht : TablesWf t) (hsum : reachedSum t ∅ t.nbrs < 65536) (st : MprState) :
    Counted cnf t (startCount t) (fun _ => 0)
        (olsrCalculateTwoHopNeighbors t (olsrClearMprs t st)).1 ∧
      (olsrCalculateTwoHopNeighbors t (olsrClearMprs t st)).2.toNat = reachedSum t ∅ t.nbrs := by
  have hseen : Seen t ∅ ⟨olsrClearTwoHopProcessed t (olsrClearMprs t st), 0, 0, 0⟩ := by
    refine ⟨fun q hq => ?_, rfl⟩
    simp [olsrClearTwoHopProcessed, hq]
  obtain ⟨htotal, hnocov, hkept⟩ := hseen.foldl_countNeighbor ht t.nbrs (fun _ h => h) ht.nbrsNodup
  refine ⟨⟨fun p hp q hq => ?_, fun p hp hsym => ?_, fun p hp hsym => ?_⟩, ?_⟩
  · have hcovered := congrFun (foldl_countNeighbor_covered (t := t) t.nbrs
      ⟨olsrClearTwoHopProcessed t (olsrClearMprs t st), 0, 0, 0⟩) q
    have hclear : (olsrClearMprs t st).covered q = 0 :=
      foldl_clearMpr_covered t.nbrs (.inl ⟨p, hp, (mem_toCover.1 hq).1⟩)
    show ((t.nbrs.foldl (countNeighbor t) _).st.covered q).toNat = _
    rw [hcovered, show (olsrClearTwoHopProcessed t (olsrClearMprs t st)).covered q = 0 from hclear]
    rfl
  · have hle := (countedUpTo_le t p t.nbrs).trans (coverSum_le_reachedSum ht t.nbrs ∅ fun _ h => h)
    have h := hnocov p hp hsym
    rw [UInt16.toNat_zero, Nat.zero_add, Nat.mod_eq_of_lt (by omega)] at h
    show (startCount t p : Int) ≤ (t.nbrs.foldl (countNeighbor t) _).st.nocov p + _
    rw [h, startCount, if_pos hsym]
    omega
  · have hle := reachedBefore_le t p t.nbrs ∅
    rw [Finset.card_empty, Nat.zero_max] at hle
    have h := hkept p hp hsym
    rw [Nat.mod_eq_of_lt (by omega)] at h
    show (t.nbrs.foldl (countNeighbor t) _).st.nocov p = (startCount t p : Int)
    rw [h, startCount, if_neg (by simp [hsym])]
  · refine htotal.trans ?_
    rw [UInt16.toNat_zero, Nat.zero_add, Nat.mod_eq_of_lt hsum]

end Olsrd.Mpr
