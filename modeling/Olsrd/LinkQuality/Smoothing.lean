/-
`default_lq_hybrid_plc_handle_lqchange`: the qualities that a node tells its neighbours, and the link costs, follow the
raw qualities of the links where these have changed enough.
-/
import Olsrd.LinkQuality.HybridPlc

namespace Olsrd.LinkQuality

open Olsrd.Neighbor (linkCostBroken)

/-- What the handler uses of a link. -/
structure LqLink where
  smoothedLq : DefaultLqHybridPlc
  lq : DefaultLqHybridPlc
  linkcost : UInt32
  deriving DecidableEq, Repr

/-- The check of `valueLq`, and of `valueNlq` -/
def relevantValue (smoothed raw : UInt8) : Bool :=
  if smoothed < raw then raw ≥ 254 || raw.toNat - smoothed.toNat > smoothed.toNat / 10
  else if smoothed > raw then smoothed.toNat - raw.toNat > smoothed.toNat / 10
  else false

/-- The check of `quality`: one that is lower is not looked at. -/
def relevantQuality (smoothed raw : UInt8) : Bool :=
  if smoothed < raw then raw.toNat - smoothed.toNat > smoothed.toNat / 10 else false

namespace LqLink

/-- `relevant` -/
def relevant (l : LqLink) : Bool :=
  relevantValue l.smoothedLq.valueLq l.lq.valueLq || relevantValue l.smoothedLq.valueNlq l.lq.valueNlq ||
    relevantQuality l.smoothedLq.quality l.lq.quality

/-- Copy the raw quality, and calculate the link cost. -/
def follow (l : LqLink) : LqLink := { l with smoothedLq := l.lq, linkcost := defaultLqCalcCostHybridPlc l.lq }

/-- The checks of the second loop -/
def skipped (l : LqLink) : Bool :=
  l.smoothedLq.valueLq ≥ 254 && l.smoothedLq.valueNlq ≥ 254 ||
    l.smoothedLq.valueLq == l.lq.valueLq && l.smoothedLq.valueNlq == l.lq.valueNlq

end LqLink

/-- `default_lq_hybrid_plc_handle_lqchange`, and whether it calls `olsr_relevant_linkcost_change` -/
def defaultLqHybridPlcHandleLqchange (links : List LqLink) : List LqLink × Bool :=
  let triggered := links.any LqLink.relevant
  let links := links.map fun l => if l.relevant then l.follow else l
  if !triggered then (links, false)
  else (links.map fun l => if l.skipped then l else l.follow, true)

/-! ## What happens to a link -/

variable {links : List LqLink} {l : LqLink} {v w : UInt8}

/-- What a call makes of a link, `triggered` by one of the links. -/
def LqLink.after (l : LqLink) (triggered : Bool) : LqLink :=
  if l.relevant || triggered && !l.skipped then l.follow else l

theorem skipped_follow (l : LqLink) : l.follow.skipped = true := by
  simp [LqLink.skipped, LqLink.follow]

theorem handleLqchange_eq (links : List LqLink) :
    (defaultLqHybridPlcHandleLqchange links).1 = links.map fun l => l.after (links.any LqLink.relevant) := by
  unfold defaultLqHybridPlcHandleLqchange
  cases links.any LqLink.relevant with
  | false => simp [LqLink.after]
  | true =>
    simp only [Bool.not_true, Bool.false_eq_true, if_false, List.map_map]
    refine List.map_congr_left fun l _ => ?_
    cases hrel : l.relevant <;> cases hskip : l.skipped <;> simp [LqLink.after, hrel, hskip, skipped_follow]

/-- The two bytes differ by at most a tenth of the smoothed one. -/
def Close (smoothed raw : UInt8) : Prop :=
  smoothed.toNat ≤ raw.toNat + smoothed.toNat / 10 ∧ raw.toNat ≤ smoothed.toNat + smoothed.toNat / 10

namespace LqLink

/-- The link cost is that of the smoothed quality. -/
def Synced (l : LqLink) : Prop := l.linkcost = defaultLqCalcCostHybridPlc l.smoothedLq

/-- The smoothed quality is close to the raw one, and the link cost is its cost. -/
structure Smoothed (l : LqLink) : Prop where
  valueLq : Close l.smoothedLq.valueLq l.lq.valueLq
  valueNlq : Close l.smoothedLq.valueNlq l.lq.valueNlq
  quality : Close l.smoothedLq.quality l.lq.quality
  linkcost : l.Synced

/-- The raw PLC quality is not below the smoothed one by more than a tenth of it. -/
def QualityKept (l : LqLink) : Prop :=
  l.smoothedLq.quality.toNat ≤ l.lq.quality.toNat + l.smoothedLq.quality.toNat / 10

end LqLink

theorem close_refl (v : UInt8) : Close v v := ⟨Nat.le_add_right _ _, Nat.le_add_right _ _⟩

theorem smoothed_follow (l : LqLink) : l.follow.Smoothed := ⟨close_refl _, close_refl _, close_refl _, rfl⟩

/-- The raw value is not close to the smoothed one, or has risen to at least 254. -/
def ValueChanged (smoothed raw : UInt8) : Prop := ¬Close smoothed raw ∨ smoothed < raw ∧ 254 ≤ raw

/-- What a link is copied for: a change of a value, or a PLC quality that is higher by more than a tenth. -/
def LqLink.Changed (l : LqLink) : Prop :=
  ValueChanged l.smoothedLq.valueLq l.lq.valueLq ∨ ValueChanged l.smoothedLq.valueNlq l.lq.valueNlq ∨
    l.smoothedLq.quality.toNat + l.smoothedLq.quality.toNat / 10 < l.lq.quality.toNat

/-- What a link is left for when another has changed: two perfect values, or two values that are as they were. -/
def LqLink.Left (l : LqLink) : Prop :=
  254 ≤ l.smoothedLq.valueLq ∧ 254 ≤ l.smoothedLq.valueNlq ∨
    l.smoothedLq.valueLq = l.lq.valueLq ∧ l.smoothedLq.valueNlq = l.lq.valueNlq

theorem relevantValue_iff : relevantValue v w = true ↔ ValueChanged v w := by
  unfold relevantValue ValueChanged Close
  simp only [UInt8.lt_iff_toNat_lt, gt_iff_lt, ge_iff_le, UInt8.le_iff_toNat_le]
  split_ifs with hlt hgt
  · simp only [Bool.or_eq_true, decide_eq_true_eq]
    omega
  · simp only [decide_eq_true_eq]
    omega
  · simp only [false_iff]
    omega

theorem relevantQuality_iff : relevantQuality v w = true ↔ v.toNat + v.toNat / 10 < w.toNat := by
  unfold relevantQuality
  simp only [UInt8.lt_iff_toNat_lt, gt_iff_lt]
  split_ifs with hlt
  · simp only [decide_eq_true_eq]
    omega
  · simp only [false_iff]
    omega

theorem relevant_iff : l.relevant = true ↔ l.Changed := by
  simp only [LqLink.relevant, Bool.or_eq_true, relevantValue_iff, relevantQuality_iff, LqLink.Changed, or_assoc]

theorem skipped_iff : l.skipped = true ↔ l.Left := by
  simp only [LqLink.skipped, LqLink.Left, Bool.or_eq_true, Bool.and_eq_true, decide_eq_true_eq, beq_iff_eq, ge_iff_le]

theorem any_relevant_iff : links.any LqLink.relevant = true ↔ ∃ m ∈ links, m.Changed := by
  simp only [List.any_eq_true, relevant_iff]

/-- A link that has not changed is smoothed but for its PLC quality and its cost. -/
theorem smoothed_iff_of_not_changed (h : ¬l.Changed) : l.Smoothed ↔ l.QualityKept ∧ l.Synced := by
  simp only [LqLink.Changed, ValueChanged, not_or, not_not] at h
  obtain ⟨⟨hlq, -⟩, ⟨hnlq, -⟩, hquality⟩ := h
  constructor
  · exact fun hs => ⟨hs.quality.1, hs.linkcost⟩
  · rintro ⟨hkept, hsync⟩
    exact ⟨hlq, hnlq, ⟨hkept, not_lt.1 hquality⟩, hsync⟩

theorem smoothed_after (l : LqLink) (triggered : Bool) : (l.after triggered).Smoothed ↔
    l.Changed ∨ triggered = true ∧ ¬l.Left ∨ l.QualityKept ∧ l.Synced := by
  have hfollow : (l.relevant || triggered && !l.skipped) = true ↔ l.Changed ∨ triggered = true ∧ ¬l.Left := by
    rw [Bool.or_eq_true, Bool.and_eq_true, Bool.not_eq_true', relevant_iff, ← skipped_iff, Bool.not_eq_true]
  rw [← or_assoc]
  unfold LqLink.after
  split
  · next h => exact iff_of_true (smoothed_follow l) (.inl (hfollow.1 h))
  · next h =>
    rw [hfollow] at h
    rw [smoothed_iff_of_not_changed fun hchanged => h (.inl hchanged), or_iff_right h]

/-- The link costs stay in step with the smoothed qualities. -/
theorem handleLqchange_synced (h : ∀ l ∈ links, l.Synced) : ∀ l ∈ (defaultLqHybridPlcHandleLqchange links).1,
    l.Synced := by
  rw [handleLqchange_eq]
  intro l' hl'
  obtain ⟨l, hl, rfl⟩ := List.mem_map.1 hl'
  unfold LqLink.after
  split
  · rfl
  · exact h l hl

/-- After a call every link is smoothed if and only if every link has changed, or follows another that has, or has kept
its PLC quality and a link cost in step. -/
theorem handleLqchange_smoothed_iff (links : List LqLink) :
    (∀ l ∈ (defaultLqHybridPlcHandleLqchange links).1, l.Smoothed) ↔
      ∀ l ∈ links, l.Changed ∨ (∃ m ∈ links, m.Changed) ∧ ¬l.Left ∨ l.QualityKept ∧ l.Synced := by
  rw [handleLqchange_eq, List.forall_mem_map]
  refine forall_congr' fun l => forall_congr' fun _ => ?_
  rw [smoothed_after, any_relevant_iff]

/-- A PLC link of which only the rate changes, from 100 to 10 -/
def slowedLink : LqLink where
  smoothedLq := ⟨200, 200, 151, 100⟩
  lq := ⟨200, 200, 151, 10⟩
  linkcost := defaultLqCalcCostHybridPlc ⟨200, 200, 151, 100⟩

theorem not_handleLqchange_smoothed : ¬∀ links : List LqLink, (∀ l ∈ links, l.Synced) →
    ∀ l ∈ (defaultLqHybridPlcHandleLqchange links).1, l.Smoothed := by
  intro h
  have hsync : ∀ l ∈ [slowedLink], l.Synced := by
    intro l hl
    obtain rfl := List.mem_singleton.1 hl
    rfl
  have hkept := (h [slowedLink] hsync slowedLink (by decide +kernel)).quality.1
  revert hkept
  decide

end Olsrd.LinkQuality
