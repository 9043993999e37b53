/-
The selection of multipoint relays: `mpr.c`, and `lq_mpr.c` for link quality levels above 0. The tables do not change
in a selection, what does is the state of their entries.
-/
import Olsrd.Neighbor.LinkSet

namespace Olsrd.Mpr

open Olsrd.Neighbor (Ptr willNever linkCostBroken)

/-! ## Tables -/

/-- What the selection reads of `struct neighbor_entry`; `sym` is `status == SYM`. -/
structure Neighbor where
  sym : Bool
  willingness : Nat
  /-- the `neighbor_2` of the entries of `neighbor_2_list` -/
  twoHops : List Ptr

/-- What the selection reads of `struct neighbor_2_entry`. -/
structure TwoHop where
  addr : IpAddr
  /-- `neighbor_2_pointer` -/
  pointer : Int
  /-- `neighbor` and `path_linkcost` of the entries of `neighbor_2_nblist` -/
  nblist : List (Ptr × UInt32)

/-- Both tables in their order, and what the selection looks up. -/
structure Tables where
  nbrs : List Ptr
  nbr : Ptr → Neighbor
  twoHops : List Ptr
  twoHop : Ptr → TwoHop
  /-- `olsr_lookup_neighbor_table` -/
  lookup : IpAddr → Option Ptr
  /-- the cost of what `get_best_link_to_neighbor` returns for the main address of a neighbour -/
  bestLinkcost : Ptr → Option UInt32

structure MprCnf where
  mprCoverage : UInt8
  tcRedundancy : Nat

/-- The state of the entries; `linkChanges` is set by `signal_link_changes`. -/
structure MprState where
  isMpr : Ptr → Bool
  wasMpr : Ptr → Bool
  skip : Ptr → Bool
  /-- `neighbor_2_nocov` -/
  nocov : Ptr → Int
  /-- `mpr_covered_count` -/
  covered : Ptr → UInt8
  processed : Ptr → Bool
  linkChanges : Bool

/-- Nothing is computed yet. -/
def noMprs : MprState where
  isMpr _ := false
  wasMpr _ := false
  skip _ := false
  nocov _ := 0
  covered _ := 0
  processed _ := false
  linkChanges := false

def willAlways : Nat := 7

section

variable (cnf : MprCnf) (t : Tables)

/-- The two hop neighbour is a symmetric neighbour, too. -/
def isSymNeighbor (q : Ptr) : Bool := (t.lookup (t.twoHop q).addr).any fun n => (t.nbr n).sym

def setMpr (st : MprState) (p : Ptr) (value : Bool) : MprState := { st with isMpr := Function.update st.isMpr p value }

@[simp] theorem setMpr_isMpr (st : MprState) (p : Ptr) (value : Bool) :
    (setMpr st p value).isMpr = Function.update st.isMpr p value := rfl

/-! ## `mpr.c` -/

/-- One round of `olsr_find_2_hop_neighbors_with_1_link`. An entry that counts one neighbour has one in its list. -/
def addOneLink (willingness : Nat) (list : List Ptr) (q : Ptr) : List Ptr :=
  if isSymNeighbor t q then list
  else
    match (t.twoHop q).nblist.head? with
    | some n =>
      if (t.twoHop q).pointer = 1 ∧ (t.nbr n.1).willingness = willingness ∧ (t.nbr n.1).sym then q :: list else list
    | none => list

/-- `olsr_find_2_hop_neighbors_with_1_link` -/
def olsrFind2HopNeighborsWith1Link (willingness : Nat) : List Ptr := t.twoHops.foldl (addOneLink t willingness) []

/-- One round of the inner loop of `olsr_chosen_mpr`: the neighbour is no help for a covered two hop neighbour. -/
def decreaseNocov (st : MprState) (n : Ptr × UInt32) : MprState :=
  if (t.nbr n.1).sym then { st with nocov := Function.update st.nocov n.1 (st.nocov n.1 - 1) } else st

/-- One round of the outer loop, with the count of covered two hop neighbours. -/
def coverTwoHop (x : MprState × UInt16) (q : Ptr) : MprState × UInt16 :=
  if isSymNeighbor t q then x
  else
    let st := { x.1 with covered := Function.update x.1.covered q (x.1.covered q + 1) }
    if st.covered q ≥ cnf.mprCoverage then ((t.twoHop q).nblist.foldl (decreaseNocov t) st, x.2 + 1) else (st, x.2)

/-- `olsr_chosen_mpr` -/
def olsrChosenMpr (x : MprState × UInt16) (p : Ptr) : MprState × UInt16 :=
  (t.nbr p).twoHops.foldl (coverTwoHop cnf t) (setMpr x.1 p true, x.2)

/-- One round of `olsr_find_maximum_covered`. -/
def moreCovered (st : MprState) (willingness : Nat) (best : UInt16 × Option Ptr) (p : Ptr) : UInt16 × Option Ptr :=
  if !st.isMpr p ∧ (t.nbr p).willingness = willingness ∧ (best.1.toNat : Int) < st.nocov p then
    (UInt16.ofNat (st.nocov p).toNat, some p)
  else best

/-- `olsr_find_maximum_covered` -/
def olsrFindMaximumCovered (st : MprState) (willingness : Nat) : Option Ptr :=
  (t.nbrs.foldl (moreCovered t st willingness) (0, none)).2

/-- One round of `olsr_clear_mprs`. -/
def clearMpr (st : MprState) (p : Ptr) : MprState :=
  let st := if st.isMpr p then { setMpr st p false with wasMpr := Function.update st.wasMpr p true } else st
  { st with covered := fun q => if q ∈ (t.nbr p).twoHops then 0 else st.covered q }

/-- `olsr_clear_mprs` -/
def olsrClearMprs (st : MprState) : MprState := t.nbrs.foldl (clearMpr t) st

/-- One round of `olsr_check_mpr_changes`. -/
def checkMprChange (x : MprState × Bool) (p : Ptr) : MprState × Bool :=
  if x.1.wasMpr p then ({ x.1 with wasMpr := Function.update x.1.wasMpr p false }, x.2 || !x.1.isMpr p) else x

/-- `olsr_check_mpr_changes` -/
def olsrCheckMprChanges (st : MprState) : MprState × Bool := t.nbrs.foldl checkMprChange (st, false)

/-- `olsr_clear_two_hop_processed` -/
def olsrClearTwoHopProcessed (st : MprState) : MprState :=
  { st with processed := fun q => if q ∈ t.twoHops then false else st.processed q }

/-- The state of the loop of `olsr_calculate_two_hop_neighbors`. -/
structure TwoHopCount where
  st : MprState
  count : UInt16
  nCount : UInt16
  sum : UInt16

/-- One round of the inner loop of `olsr_calculate_two_hop_neighbors`. -/
def countTwoHop (w : TwoHopCount) (q : Ptr) : TwoHopCount :=
  if isSymNeighbor t q then w
  else
    let w := { w with nCount := w.nCount + 1 }
    if w.st.processed q then w
    else { w with count := w.count + 1, st := { w.st with processed := Function.update w.st.processed q true } }

def setNocov (st : MprState) (p : Ptr) (n : UInt16) : MprState :=
  { st with nocov := Function.update st.nocov p (n.toNat : Int) }

/-- One round of the outer loop. A neighbour that is not symmetric gets the count of those before it. -/
def countNeighbor (w : TwoHopCount) (p : Ptr) : TwoHopCount :=
  if !(t.nbr p).sym then { w with st := setNocov w.st p w.count }
  else
    let w := (t.nbr p).twoHops.foldl (countTwoHop t) w
    { w with st := setNocov w.st p w.nCount, sum := w.sum + w.count }

/-- `olsr_calculate_two_hop_neighbors` -/
def olsrCalculateTwoHopNeighbors (st : MprState) : MprState × UInt16 :=
  let w := t.nbrs.foldl (countNeighbor t) ⟨olsrClearTwoHopProcessed t st, 0, 0, 0⟩
  (w.st, w.sum)

/-- One round of `add_will_always_nodes`. -/
def addWillAlways (x : MprState × UInt16) (p : Ptr) : MprState × UInt16 :=
  if !(t.nbr p).sym ∨ (t.nbr p).willingness ≠ willAlways then x else olsrChosenMpr cnf t x p

/-- `add_will_always_nodes` -/
def addWillAlwaysNodes (st : MprState) : MprState × UInt16 := t.nbrs.foldl (addWillAlways cnf t) (st, 0)

/-- The choice of the neighbour of a two hop neighbour that has no other. -/
def chooseOneLink (x : MprState × UInt16) (q : Ptr) : MprState × UInt16 :=
  match (t.twoHop q).nblist.head? with
  | some n => if x.1.isMpr n.1 then x else olsrChosenMpr cnf t x n.1
  | none => x

/-- The choice of neighbours that cover the most, and whether enough is covered. Every round takes one neighbour more,
so that as many rounds as there are neighbours are enough. -/
def chooseMaximum (total : UInt16) (willingness : Nat) : Nat → MprState × UInt16 → (MprState × UInt16) × Bool
  | 0, x => (x, false)
  | rounds + 1, x =>
    match olsrFindMaximumCovered t x.1 willingness with
    | none => (x, false)
    | some p =>
      let x := olsrChosenMpr cnf t x p
      if x.2 ≥ total then (x, true) else chooseMaximum total willingness rounds x

/-- The loop of `olsr_calculate_mpr` over the willingness. -/
def chooseByWillingness (total : UInt16) : List Nat → MprState × UInt16 → MprState × UInt16
  | [], x => x
  | i :: levels, x =>
    let x := (olsrFind2HopNeighborsWith1Link t i).foldl (chooseOneLink cnf t) x
    if x.2 ≥ total then x
    else
      match chooseMaximum cnf t total i t.nbrs.length x with
      | (x, true) => x
      | (x, false) => chooseByWillingness total levels x

/-- One round of `olsr_optimize_mpr_set`. -/
def optimizeMpr (i : Nat) (st : MprState) (p : Ptr) : MprState :=
  if (t.nbr p).willingness = i ∧ st.isMpr p ∧
      (t.nbr p).twoHops.all (fun q => isSymNeighbor t q || decide (st.covered q > cnf.mprCoverage)) then
    setMpr st p false
  else st

/-- `olsr_optimize_mpr_set` -/
def olsrOptimizeMprSet (st : MprState) : MprState :=
  [1, 2, 3, 4, 5, 6].foldl (fun st i => t.nbrs.foldl (optimizeMpr cnf t i) st) st

/-- `olsr_calculate_mpr` -/
def olsrCalculateMpr (st : MprState) : MprState :=
  let (st, total) := olsrCalculateTwoHopNeighbors t (olsrClearMprs t st)
  let (st, _) := chooseByWillingness cnf t total [6, 5, 4, 3, 2, 1] (addWillAlwaysNodes cnf t st)
  let (st, changed) := olsrCheckMprChanges t (olsrOptimizeMprSet cnf t st)
  if changed ∧ cnf.tcRedundancy > 0 then { st with linkChanges := true } else st

/-! ## `lq_mpr.c` -/

/-- The first loop of `olsr_calculate_lq_mpr`, with `mpr_changes`. -/
def resetLqMpr (x : MprState × Bool) (p : Ptr) : MprState × Bool :=
  let st := setMpr { x.1 with wasMpr := Function.update x.1.wasMpr p (x.1.isMpr p) } p false
  if !(t.nbr p).sym ∨ (t.nbr p).willingness ≠ willAlways then (st, x.2)
  else (setMpr st p true, x.2 || !st.wasMpr p)

/-- `best_1hop`, or nothing if no relay is selected for the two hop neighbour: a symmetric neighbour without a link,
or with a link that no path beats. -/
def best1hop (q : Ptr) : Option UInt32 :=
  match t.lookup (t.twoHop q).addr with
  | none => some linkCostBroken
  | some n =>
    if (t.nbr n).sym then
      match t.bestLinkcost n with
      | none => none
      | some cost => if (t.twoHop q).nblist.any fun walker => decide (walker.2 < cost) then some cost else none
    else some linkCostBroken

/-- One round of the search for the best neighbour that is not yet selected. -/
def betterWalker (st : MprState) (best : Option Ptr × UInt32) (walker : Ptr × UInt32) : Option Ptr × UInt32 :=
  if (t.nbr walker.1).sym ∧ !st.skip walker.1 ∧ walker.2 < best.2 then (some walker.1, walker.2) else best

/-- The loop over `k`, with `mpr_changes`. -/
def selectRelays (q : Ptr) (limit : UInt32) : Nat → MprState × Bool → MprState × Bool
  | 0, x => x
  | k + 1, x =>
    match (t.twoHop q).nblist.foldl (betterWalker t x.1) (none, linkCostBroken) with
    | (some n, best) =>
      if best < limit then
        selectRelays q limit k
          ({ setMpr x.1 n true with skip := Function.update x.1.skip n true }, x.2 || !x.1.wasMpr n)
      else x
    | (none, _) => x

/-- The loop over the two hop neighbours. -/
def relayTwoHop (x : MprState × Bool) (q : Ptr) : MprState × Bool :=
  match best1hop t q with
  | none => x
  | some limit =>
    selectRelays t q limit cnf.mprCoverage.toNat
      ({ x.1 with skip := fun p => if p ∈ (t.twoHop q).nblist.map Prod.fst then false else x.1.skip p }, x.2)

/-- `olsr_calculate_lq_mpr` -/
def olsrCalculateLqMpr (st : MprState) : MprState :=
  let (st, changed) := t.twoHops.foldl (relayTwoHop cnf t) (t.nbrs.foldl (resetLqMpr t) (st, false))
  if changed ∧ cnf.tcRedundancy > 0 then { st with linkChanges := true } else st

end

end Olsrd.Mpr
