/-
The link cost of `lq_plugin_default_hybrid_plc.c`, its `float` computation in rational numbers, and the sums of such
costs that `olsr_spf_relax` forms along a path.
-/
import Mathlib.Algebra.Order.Floor.Semifield
import Mathlib.Data.Rat.Floor
import Olsrd.Spf.ShortestPaths

namespace Olsrd.LinkQuality

open Olsrd.Neighbor (linkCostBroken)

/-- `struct default_lq_hybrid_plc` -/
structure DefaultLqHybridPlc where
  valueLq : UInt8
  valueNlq : UInt8
  bandwidth : UInt8
  quality : UInt8
  deriving DecidableEq, Repr

/-- `(unsigned int)(255 * MINIMAL_USEFUL_LQ)` -/
def minimalUsefulLq : UInt8 := 25

/-- `LQ_PLUGIN_LC_MULTIPLIER` -/
def lqPluginLcMultiplier : Nat := 1024

/-- `lq_int` and `nlq_int` -/
def lqInt (value : UInt8) : Nat := if 0 < value ∧ value < 255 then value.toNat + 1 else value.toNat

def etxf (lq : DefaultLqHybridPlc) : ℚ := ((255 * 255 / (lqInt lq.valueLq * lqInt lq.valueNlq) : Nat) : ℚ)

def bwf (lq : DefaultLqHybridPlc) : ℚ :=
  let bwf : ℚ := ((lq.bandwidth.toNat * lq.quality.toNat / 255 : Nat) : ℚ)
  if bwf < 5 then 5 else bwf

def costf (lq : DefaultLqHybridPlc) : ℚ := etxf lq / bwf lq * 100 * lqPluginLcMultiplier

/-- The quality is too low in one direction. -/
def DefaultLqHybridPlc.Useless (lq : DefaultLqHybridPlc) : Prop :=
  lq.valueLq < minimalUsefulLq ∨ lq.valueNlq < minimalUsefulLq

instance instDecidableUseless (lq : DefaultLqHybridPlc) : Decidable lq.Useless :=
  inferInstanceAs (Decidable (_ ∨ _))

/-- `default_lq_calc_cost_hybrid_plc` -/
def defaultLqCalcCostHybridPlc (lq : DefaultLqHybridPlc) : UInt32 :=
  if lq.Useless then linkCostBroken
  else
    let cost := UInt32.ofNat ⌊costf lq⌋.toNat
    if cost > linkCostBroken then linkCostBroken
    else if cost = 0 then 1
    else cost

/-! ## The cost in natural numbers -/

variable {lq lq' : DefaultLqHybridPlc}

/-- `etxf` -/
def etx (lq : DefaultLqHybridPlc) : Nat := 255 * 255 / (lqInt lq.valueLq * lqInt lq.valueNlq)

/-- `bwf` -/
def bandwidthAtLeast5 (lq : DefaultLqHybridPlc) : Nat := max 5 (lq.bandwidth.toNat * lq.quality.toNat / 255)

theorem bwf_eq (lq : DefaultLqHybridPlc) : bwf lq = (bandwidthAtLeast5 lq : ℚ) := by
  unfold bwf bandwidthAtLeast5
  dsimp only
  generalize lq.bandwidth.toNat * lq.quality.toNat / 255 = b
  split
  · next hlt =>
    have hb : b ≤ 5 := by exact_mod_cast hlt.le
    rw [max_eq_left hb]
    norm_num
  · next hge =>
    have hb : 5 ≤ b := by exact_mod_cast not_lt.1 hge
    rw [max_eq_right hb]

theorem floor_costf (lq : DefaultLqHybridPlc) : ⌊costf lq⌋.toNat = etx lq * 102400 / bandwidthAtLeast5 lq := by
  have hcostf : costf lq = ((etx lq * 102400 : Nat) : ℚ) / (bandwidthAtLeast5 lq : ℚ) := by
    rw [costf, bwf_eq, etxf, lqPluginLcMultiplier, etx]
    push_cast
    ring
  rw [hcostf, Int.floor_toNat, Nat.floor_div_eq_div]

theorem lqInt_le_255 (value : UInt8) : lqInt value ≤ 255 := by
  have := UInt8.toNat_lt value
  unfold lqInt
  split
  · next h =>
    have : value.toNat < 255 := UInt8.lt_iff_toNat_lt.1 h.2
    omega
  · omega

theorem lqInt_mono {v v' : UInt8} (h : v ≤ v') : lqInt v ≤ lqInt v' := by
  have hle : v.toNat ≤ v'.toNat := UInt8.le_iff_toNat_le.1 h
  have := UInt8.toNat_lt v'
  simp only [lqInt, UInt8.lt_iff_toNat_lt]
  norm_num only [UInt8.toNat_ofNat]
  split_ifs <;> omega

theorem lqInt_ge_of_useful {v : UInt8} (h : ¬v < minimalUsefulLq) : 26 ≤ lqInt v := by
  have hge : 25 ≤ v.toNat := UInt8.le_iff_toNat_le.1 (UInt8.not_lt.1 h)
  have := UInt8.toNat_lt v
  simp only [lqInt, UInt8.lt_iff_toNat_lt]
  norm_num only [UInt8.toNat_ofNat]
  split_ifs <;> omega

theorem etx_bounds (h : ¬lq.Useless) : 1 ≤ etx lq ∧ etx lq ≤ 96 := by
  rw [DefaultLqHybridPlc.Useless, not_or] at h
  have hlow : 26 * 26 ≤ lqInt lq.valueLq * lqInt lq.valueNlq :=
    Nat.mul_le_mul (lqInt_ge_of_useful h.1) (lqInt_ge_of_useful h.2)
  have hhigh : lqInt lq.valueLq * lqInt lq.valueNlq ≤ 255 * 255 := Nat.mul_le_mul (lqInt_le_255 _) (lqInt_le_255 _)
  constructor
  · exact Nat.div_pos hhigh (by omega)
  · exact Nat.div_le_div_left hlow (by norm_num)

theorem bandwidthAtLeast5_le (lq : DefaultLqHybridPlc) : bandwidthAtLeast5 lq ≤ 255 := by
  have hb := UInt8.toNat_lt lq.bandwidth
  have hq := UInt8.toNat_lt lq.quality
  have hprod : lq.bandwidth.toNat * lq.quality.toNat ≤ 255 * 255 := Nat.mul_le_mul (by omega) (by omega)
  exact max_le (by norm_num) (Nat.div_le_of_le_mul hprod)

/-- The checks of the cost come to nothing: it is between 401 and 1966080. -/
theorem cost_bounds (h : ¬lq.Useless) :
    401 ≤ etx lq * 102400 / bandwidthAtLeast5 lq ∧ etx lq * 102400 / bandwidthAtLeast5 lq ≤ 1966080 := by
  obtain ⟨hpos, hle⟩ := etx_bounds h
  have hb : 5 ≤ bandwidthAtLeast5 lq := le_max_left _ _
  have hb' := bandwidthAtLeast5_le lq
  constructor
  · rw [Nat.le_div_iff_mul_le (by omega)]
    calc 401 * bandwidthAtLeast5 lq ≤ 401 * 255 := Nat.mul_le_mul_left _ hb'
      _ ≤ 1 * 102400 := by norm_num
      _ ≤ etx lq * 102400 := Nat.mul_le_mul_right _ hpos
  · calc etx lq * 102400 / bandwidthAtLeast5 lq ≤ etx lq * 102400 / 5 := Nat.div_le_div_left hb (by norm_num)
      _ ≤ 96 * 102400 / 5 := Nat.div_le_div_right (Nat.mul_le_mul_right _ hle)
      _ = 1966080 := by norm_num

theorem cost_of_useful (h : ¬lq.Useless) :
    (defaultLqCalcCostHybridPlc lq).toNat = etx lq * 102400 / bandwidthAtLeast5 lq := by
  obtain ⟨hlow, hhigh⟩ := cost_bounds h
  have hfit : (UInt32.ofNat (etx lq * 102400 / bandwidthAtLeast5 lq)).toNat = etx lq * 102400 / bandwidthAtLeast5 lq :=
    UInt32.toNat_ofNat_of_lt' (lt_of_le_of_lt hhigh (by norm_num [UInt32.size]))
  rw [defaultLqCalcCostHybridPlc, if_neg h, floor_costf]
  dsimp only
  rw [if_neg, if_neg, hfit]
  · intro hzero
    rw [hzero] at hfit
    rw [← hfit] at hlow
    exact absurd hlow (by decide)
  · rw [gt_iff_lt, UInt32.lt_iff_toNat_lt, hfit]
    exact not_lt.2 (hhigh.trans (by decide))

theorem cost_of_useless (h : lq.Useless) : defaultLqCalcCostHybridPlc lq = linkCostBroken := if_pos h

theorem cost_le (lq : DefaultLqHybridPlc) : (defaultLqCalcCostHybridPlc lq).toNat ≤ 2 ^ 22 := by
  by_cases h : lq.Useless
  · rw [cost_of_useless h]
    rfl
  · rw [cost_of_useful h]
    exact (cost_bounds h).2.trans (by norm_num)

/-- Better in no respect worse. -/
structure AtLeast (lq lq' : DefaultLqHybridPlc) : Prop where
  valueLq : lq.valueLq ≤ lq'.valueLq
  valueNlq : lq.valueNlq ≤ lq'.valueNlq
  bandwidth : lq.bandwidth ≤ lq'.bandwidth
  quality : lq.quality ≤ lq'.quality

theorem AtLeast.useful (hle : AtLeast lq lq') (h : ¬lq.Useless) : ¬lq'.Useless := by
  rw [DefaultLqHybridPlc.Useless, not_or, UInt8.not_lt, UInt8.not_lt] at h ⊢
  exact ⟨UInt8.le_trans h.1 hle.valueLq, UInt8.le_trans h.2 hle.valueNlq⟩

theorem AtLeast.cost_le (hle : AtLeast lq lq') (h : ¬lq.Useless) :
    defaultLqCalcCostHybridPlc lq' ≤ defaultLqCalcCostHybridPlc lq := by
  have hpos : 0 < lqInt lq.valueLq * lqInt lq.valueNlq := by
    rw [DefaultLqHybridPlc.Useless, not_or] at h
    exact Nat.mul_pos (lt_of_lt_of_le (by norm_num) (lqInt_ge_of_useful h.1))
      (lt_of_lt_of_le (by norm_num) (lqInt_ge_of_useful h.2))
  have hetx : etx lq' ≤ etx lq :=
    Nat.div_le_div_left (Nat.mul_le_mul (lqInt_mono hle.valueLq) (lqInt_mono hle.valueNlq)) hpos
  have hbw : bandwidthAtLeast5 lq ≤ bandwidthAtLeast5 lq' :=
    max_le_max_left 5 (Nat.div_le_div_right (Nat.mul_le_mul (UInt8.le_iff_toNat_le.1 hle.bandwidth)
      (UInt8.le_iff_toNat_le.1 hle.quality)))
  have hbpos : bandwidthAtLeast5 lq ≠ 0 := (lt_of_lt_of_le (by norm_num) (le_max_left _ _)).ne'
  rw [UInt32.le_iff_toNat_le, cost_of_useful h, cost_of_useful (hle.useful h)]
  exact Nat.div_le_div (Nat.mul_le_mul_right _ hetx) hbw hbpos

/-! ## Sums along a path -/

open Olsrd.Topology (Lsdb TcEdgeEntry)
open Olsrd.Spf (SpfRun Linked CostPath)

variable {Lq L : Type} {s : Lsdb Lq} {root u v : Topology.Ptr} {c k : Nat}

/-- A path of `k` edges with costs of this plugin that are not broken, and the path cost that `olsr_spf_relax` forms for
its end, in `uint32_t`. -/
inductive PricedPath (s : Lsdb Lq) (root : Topology.Ptr) : Topology.Ptr → Nat → Nat → Prop
  | nil : PricedPath s root root 0 0
  | snoc {u v : Topology.Ptr} {c k : Nat} (lq : DefaultLqHybridPlc) : PricedPath s root u c k →
      Linked s u v (defaultLqCalcCostHybridPlc lq).toNat → defaultLqCalcCostHybridPlc lq ≠ linkCostBroken →
      PricedPath s root v ((c + (defaultLqCalcCostHybridPlc lq).toNat) % 4294967296) (k + 1)

/-- The costs of an edge are at most `2 ^ 22`, which goes `1024` times into a `uint32_t`. -/
theorem add_cost_lt {edges : Nat} (hc : c ≤ edges * (2 ^ 22 - 1)) (hedges : edges < 1024) (lq : DefaultLqHybridPlc) :
    c + (defaultLqCalcCostHybridPlc lq).toNat < 4294967296 := by
  have := cost_le lq
  omega

theorem cost_lt_of_ne_broken (h : defaultLqCalcCostHybridPlc lq ≠ linkCostBroken) :
    (defaultLqCalcCostHybridPlc lq).toNat ≤ 2 ^ 22 - 1 := by
  refine Nat.le_sub_one_of_lt (lt_of_le_of_ne (cost_le lq) fun heq => h ?_)
  exact UInt32.toNat_inj.1 heq

/-- Up to `1024` edges, nothing has been cut from the sum. -/
theorem PricedPath.exact (h : PricedPath s root v c k) (hk : k ≤ 1024) :
    CostPath s root v c ∧ c ≤ k * (2 ^ 22 - 1) := by
  induction h with
  | nil => exact ⟨.nil, Nat.zero_le _⟩
  | @snoc u v c k lq _ hlink hcost ih =>
    obtain ⟨hpath, hle⟩ := ih (Nat.le_of_succ_le hk)
    have hedge := cost_lt_of_ne_broken hcost
    rw [Nat.mod_eq_of_lt (add_cost_lt hle hk lq)]
    refine ⟨hpath.snoc hlink fun hbroken => hcost (UInt32.toNat_inj.1 hbroken), ?_⟩
    rw [Nat.succ_mul]
    exact Nat.add_le_add hle hedge

/-- What `olsr_spf_relax` does with an edge from the end of such a path. -/
theorem PricedPath.relaxEdge {w : SpfRun L} {e f : Topology.Ptr} {d i : TcEdgeEntry Lq}
    (h : PricedPath s root u (w.pathCost u) k) (hk : k < 1024) (hd : s.edge e = some d) (hinv : d.edgeInv = some f)
    (hi : s.edge f = some i) (hcost : d.cost = (defaultLqCalcCostHybridPlc lq).toNat) :
    w.relaxEdge s u e = some (if d.cost = Spf.linkCostBroken then w
      else if w.pathCost u + d.cost < w.pathCost i.tc then w.betterPath u i.tc (w.pathCost u + d.cost) else w) := by
  have hfit := add_cost_lt (h.exact hk.le).2 hk lq
  rw [← hcost] at hfit
  unfold SpfRun.relaxEdge
  rw [hd]
  simp only [Option.bind_eq_bind, Option.bind_some, hinv, hi, Nat.mod_eq_of_lt hfit]
  split <;> rfl

/-- The cost of a usable record is below that of a broken link, and not higher for a record that is better; the sums of
such costs along a path are exact. -/
theorem cost_range :
    (∀ lq : DefaultLqHybridPlc, lq.valueLq < minimalUsefulLq ∨ lq.valueNlq < minimalUsefulLq →
      defaultLqCalcCostHybridPlc lq = linkCostBroken) ∧
    (∀ lq : DefaultLqHybridPlc, ¬(lq.valueLq < minimalUsefulLq ∨ lq.valueNlq < minimalUsefulLq) →
      1 ≤ defaultLqCalcCostHybridPlc lq ∧ defaultLqCalcCostHybridPlc lq < linkCostBroken) ∧
    (∀ lq lq' : DefaultLqHybridPlc, ¬(lq.valueLq < minimalUsefulLq ∨ lq.valueNlq < minimalUsefulLq) →
      AtLeast lq lq' → defaultLqCalcCostHybridPlc lq' ≤ defaultLqCalcCostHybridPlc lq) ∧
    ∀ (Lq L : Type) (s : Lsdb Lq) (root u e f : Topology.Ptr) (w : SpfRun L) (k : Nat) (d i : TcEdgeEntry Lq)
      (lq : DefaultLqHybridPlc), PricedPath s root u (w.pathCost u) k → k < 1024 → s.edge e = some d →
      d.edgeInv = some f → s.edge f = some i → d.cost = (defaultLqCalcCostHybridPlc lq).toNat →
      CostPath s root u (w.pathCost u) ∧ w.pathCost u + d.cost < 2 ^ 32 ∧
      w.relaxEdge s u e = some (if d.cost = Spf.linkCostBroken then w
        else if w.pathCost u + d.cost < w.pathCost i.tc then w.betterPath u i.tc (w.pathCost u + d.cost) else w) := by
  refine ⟨fun lq => cost_of_useless, fun lq h => ?_, fun lq lq' h hle => hle.cost_le h, ?_⟩
  · obtain ⟨hlow, hhigh⟩ := cost_bounds h
    rw [← cost_of_useful h] at hlow hhigh
    constructor
    · exact UInt32.le_iff_toNat_le.2 (le_trans (by decide) hlow)
    · exact UInt32.lt_iff_toNat_lt.2 (lt_of_le_of_lt hhigh (by decide))
  · intro Lq L s root u e f w k d i lq h hk hd hinv hi hcost
    refine ⟨(h.exact hk.le).1, ?_, h.relaxEdge hk hd hinv hi hcost⟩
    rw [hcost]
    exact add_cost_lt (h.exact hk.le).2 hk lq

/-- Nothing is lost on a link of 100 units of bandwidth. -/
def perfectLink : DefaultLqHybridPlc := ⟨255, 255, 100, 255⟩

theorem cost_perfectLink : defaultLqCalcCostHybridPlc perfectLink = 1024 := by
  refine UInt32.toNat_inj.1 ?_
  rw [cost_of_useful (by decide)]
  decide

/-- Three nodes in a row, over such links. -/
def pricedRow : Lsdb Unit :=
  { Topology.emptyLsdb Unit with
    edge := fun e => [⟨[10, 0, 0, 2], some 1, 0, 1024, 0, ()⟩, ⟨[10, 0, 0, 1], some 0, 1, 1024, 0, ()⟩,
      ⟨[10, 0, 0, 3], some 3, 1, 1024, 0, ()⟩, ⟨[10, 0, 0, 2], some 2, 2, 1024, 0, ()⟩][e]? }

/-- A run that has come to the second of them. -/
def pricedRun : SpfRun Unit :=
  ⟨fun u => if u = 0 then 0 else if u = 1 then 1024 else Spf.routeCostBroken, fun _ => 0, fun _ => none, [], []⟩

theorem cost_range_pricedRow : CostPath pricedRow 0 1 1024 ∧
    pricedRun.relaxEdge pricedRow 1 2 = some (pricedRun.betterPath 1 2 2048) := by
  have hlink : Linked pricedRow 0 1 (defaultLqCalcCostHybridPlc perfectLink).toNat := by
    rw [cost_perfectLink]
    exact ⟨0, _, 1, _, rfl, rfl, rfl, rfl, rfl, rfl⟩
  have hpath := PricedPath.nil.snoc perfectLink hlink (by rw [cost_perfectLink]; decide)
  rw [cost_perfectLink] at hpath
  obtain ⟨hcost, -, hrelax⟩ :=
    cost_range.2.2.2 Unit Unit pricedRow 0 1 2 3 pricedRun 1 _ _ perfectLink hpath (by decide)
    rfl rfl rfl (by rw [cost_perfectLink]; rfl)
  rw [if_neg (by decide), if_pos (by decide)] at hrelax
  exact ⟨hcost, hrelax⟩

end Olsrd.LinkQuality
