/-
The 32 bit clock of the scheduler against the time that has really passed: a clock value means the instant that
shows it and is less than half a turn away, and `olsr_isTimedOut` tells whether that instant has come.
-/
import Olsrd.Timers.Wf

namespace Olsrd.Timers

/-! ## Instants -/

/-- At `time`, clock value `clock` means the instant `due`. -/
structure Expires (time : Nat) (clock : BitVec 32) (due : Nat) : Prop where
  shows : clock = BitVec.ofNat 32 due
  ahead : due < time + 2147483648
  behind : time < due + 2147483648

theorem Expires.unique {time : Nat} {clock : BitVec 32} {due due' : Nat} (h : Expires time clock due)
    (h' : Expires time clock due') : due = due' := by
  have heq : due % 4294967296 = due' % 4294967296 := by
    simpa using congrArg BitVec.toNat (h.shows.symm.trans h'.shows)
  have := h.ahead
  have := h.behind
  have := h'.ahead
  have := h'.behind
  omega

theorem olsrIsTimedOut_iff {time : Nat} {clock : BitVec 32} {due : Nat} (h : Expires time clock due) :
    olsrIsTimedOut (BitVec.ofNat 32 time) clock = true ↔ due ≤ time := by
  have := h.ahead
  have := h.behind
  rw [h.shows]
  unfold olsrIsTimedOut
  split
  · next hlt =>
    simp only [gt_iff_lt, BitVec.lt_def, BitVec.toNat_ofNat] at hlt
    simp only [gt_iff_lt, decide_eq_true_eq, BitVec.lt_def, BitVec.toNat_sub, BitVec.toNat_ofNat]
    omega
  · next hlt =>
    simp only [gt_iff_lt, BitVec.lt_def, BitVec.toNat_ofNat, not_lt] at hlt
    simp only [decide_eq_true_eq, BitVec.le_def, BitVec.toNat_sub, BitVec.toNat_ofNat]
    omega

theorem wheelSlot_ofNat (n : Nat) : wheelSlot (BitVec.ofNat 32 n) = n % 1024 := by
  have h1023 : 1023 = 2 ^ 10 - 1 := rfl
  rw [wheelSlot, BitVec.toNat_and, BitVec.toNat_ofNat, BitVec.toNat_ofNat]
  rw [Nat.mod_eq_of_lt (show 1023 < 2 ^ 32 by decide), h1023, Nat.and_two_pow_sub_one_eq_mod]
  omega

/-! ## Arming -/

/-- The jitter takes less than the whole time away. -/
theorem jitterTime_lt {relTime pct randomVal : Nat} (hrel : 0 < relTime) (hpct : pct ≤ 99)
    (hrandom : randomVal < 2147483648) :
    randomVal / (1 + 2147483647 / (pct * relTime / 100 + 1)) < relTime := by
  have hjitter : pct * relTime / 100 < relTime := by
    have := Nat.mul_le_mul_right relTime hpct
    omega
  refine lt_of_le_of_lt ?_ hjitter
  have hmax := Nat.lt_mul_div_succ 2147483647 (Nat.succ_pos (pct * relTime / 100))
  refine Nat.lt_succ_iff.1 ((Nat.div_lt_iff_lt_mul (by positivity)).2 ?_)
  rw [Nat.add_comm 1]
  exact lt_of_le_of_lt (Nat.le_of_lt_succ hrandom) hmax

/-- What `calc_jitter` takes away of a time that gets jitter. -/
def jitterTime (relTime pct randomVal : Nat) : Nat := randomVal / (1 + 2147483647 / (pct * relTime / 100 + 1))

theorem calcJitter_of_pct {relTime : BitVec 32} (hrel : 0 < relTime.toNat) (hmax : relTime.toNat ≤ 16777216)
    {jitterPct : BitVec 8} (hpos : jitterPct ≠ 0#8) (hpct : jitterPct.toNat ≤ 99) {randomVal : BitVec 32}
    (hrandom : randomVal.toNat < 2147483648) (nowTimes : BitVec 32) : calcJitter nowTimes relTime jitterPct randomVal =
      nowTimes + BitVec.ofNat 32 (relTime.toNat - jitterTime relTime.toNat jitterPct.toNat randomVal.toNat) := by
  have hplain : ¬(jitterPct = 0#8 ∨ jitterPct > 99#8 ∨ relTime > 16777216#32) := by
    simp only [not_or, gt_iff_lt, BitVec.lt_def, BitVec.toNat_ofNat, not_lt]
    exact ⟨hpos, hpct, hmax⟩
  unfold calcJitter olsrGetTimestamp jitterTime
  rw [if_neg hplain]
  have hprod : jitterPct.toNat * relTime.toNat ≤ 99 * 16777216 := Nat.mul_le_mul hpct hmax
  have hjitter : (jitterPct.setWidth 32 * relTime / 100#32).toNat = jitterPct.toNat * relTime.toNat / 100 := by
    rw [BitVec.toNat_udiv, BitVec.toNat_mul, BitVec.toNat_setWidth]
    have := jitterPct.isLt
    rw [Nat.mod_eq_of_lt (show jitterPct.toNat < 2 ^ 32 by omega), Nat.mod_eq_of_lt (by omega)]
    rfl
  have hlt := jitterTime_lt hrel hpct hrandom
  have htime : (randomVal / (1#32 + randMax / (jitterPct.setWidth 32 * relTime / 100#32 + 1#32))).toNat =
      randomVal.toNat / (1 + 2147483647 / (jitterPct.toNat * relTime.toNat / 100 + 1)) := by
    have hquot := Nat.div_le_self 2147483647 (jitterPct.toNat * relTime.toNat / 100 + 1)
    rw [BitVec.toNat_udiv, BitVec.toNat_add, BitVec.toNat_udiv, BitVec.toNat_add, hjitter]
    simp only [randMax, BitVec.toNat_ofNat]
    rw [Nat.mod_eq_of_lt (show jitterPct.toNat * relTime.toNat / 100 + 1 % 2 ^ 32 < 2 ^ 32 by omega)]
    rw [Nat.mod_eq_of_lt (show 2147483647 < 2 ^ 32 by decide), Nat.mod_eq_of_lt (show 1 < 2 ^ 32 by decide)]
    rw [Nat.mod_eq_of_lt (by omega)]
  rw [← htime] at hlt ⊢
  rw [← BitVec.toNat_sub_of_le (BitVec.le_def.2 hlt.le), BitVec.ofNat_toNat, BitVec.setWidth_eq]

theorem calcJitter_eq {relTime : BitVec 32} (hrel : 0 < relTime.toNat) {randomVal : BitVec 32}
    (hrandom : randomVal.toNat < 2147483648) (nowTimes : BitVec 32) (jitterPct : BitVec 8) :
    ∃ delay, 0 < delay ∧ delay ≤ relTime.toNat ∧
      calcJitter nowTimes relTime jitterPct randomVal = nowTimes + BitVec.ofNat 32 delay := by
  by_cases hplain : jitterPct = 0#8 ∨ jitterPct > 99#8 ∨ relTime > 16777216#32
  · unfold calcJitter olsrGetTimestamp
    rw [if_pos hplain]
    exact ⟨relTime.toNat, hrel, le_refl _, by rw [BitVec.ofNat_toNat, BitVec.setWidth_eq]⟩
  · simp only [not_or, gt_iff_lt, BitVec.lt_def, BitVec.toNat_ofNat, not_lt] at hplain
    obtain ⟨hpos, hpct, hmax⟩ := hplain
    have hlt : jitterTime relTime.toNat jitterPct.toNat randomVal.toNat < relTime.toNat :=
      jitterTime_lt hrel hpct hrandom
    exact ⟨_, Nat.sub_pos_of_lt hlt, Nat.sub_le _ _, calcJitter_of_pct hrel hmax hpos hpct hrandom nowTimes⟩

end Olsrd.Timers
