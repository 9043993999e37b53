/-
`olsr_getTimeDue` and `olsr_isTimedOut` on the 32 bit clock of the scheduler, against the signed difference modulo the
turn of the clock.
-/
import Olsrd.Timers.Scheduler

namespace Olsrd.Timers

/-- `olsr_getTimeDue`, the bits of its `int32_t` -/
def olsrGetTimeDue (nowTimes s : BitVec 32) : BitVec 32 :=
  if s > nowTimes then
    let diff := s - nowTimes
    if diff > 2147483648#32 then -(0xffffffff#32 - diff) else diff
  else
    let diff := nowTimes - s
    if diff > 2147483648#32 then 0xffffffff#32 - diff else -diff

variable {nowTimes s r : BitVec 32}

theorem sub_gt_half_iff : nowTimes < s ∧ s - nowTimes > 2147483648#32 ↔ nowTimes.toNat + 2147483648 < s.toNat := by
  have hs := s.isLt
  have hnow := nowTimes.isLt
  simp only [gt_iff_lt, BitVec.lt_def, BitVec.toNat_sub, BitVec.toNat_ofNat]
  omega

/-- More than half a turn apart, the result is off by one. -/
theorem olsrGetTimeDue_eq : olsrGetTimeDue nowTimes s =
    if nowTimes.toNat + 2147483648 < s.toNat then s - nowTimes + 1#32
    else if s.toNat + 2147483648 < nowTimes.toNat then s - nowTimes - 1#32
    else s - nowTimes := by
  have hneg : ∀ d : BitVec 32, -(0xffffffff#32 - d) = d + 1#32 := fun d => by
    rw [show 0xffffffff#32 = -1#32 from rfl]
    ring
  have hsub : 0xffffffff#32 - (nowTimes - s) = s - nowTimes - 1#32 := by
    rw [show 0xffffffff#32 = -1#32 from rfl]
    ring
  unfold olsrGetTimeDue
  simp only [hneg, hsub, neg_sub, ← sub_gt_half_iff]
  by_cases hlt : nowTimes < s
  · have hgt : ¬s < nowTimes := (BitVec.not_lt.2 (BitVec.le_of_lt hlt))
    simp only [gt_iff_lt, hlt, hgt, if_true, true_and, false_and, if_false]
  · by_cases hgt : s < nowTimes
    · simp only [gt_iff_lt, hlt, hgt, true_and, false_and, if_false]
    · obtain rfl : s = nowTimes := BitVec.le_antisymm (BitVec.not_lt.1 hlt) (BitVec.not_lt.1 hgt)
      simp

theorem olsrIsTimedOut_toNat : olsrIsTimedOut nowTimes s = true ↔
    nowTimes.toNat + 2147483648 < s.toNat ∨ s.toNat ≤ nowTimes.toNat ∧ nowTimes.toNat ≤ s.toNat + 2147483648 := by
  have hs := s.isLt
  have hnow := nowTimes.isLt
  unfold olsrIsTimedOut
  simp only [gt_iff_lt, BitVec.lt_def, BitVec.le_def, BitVec.toNat_sub, BitVec.toNat_ofNat]
  generalize s.toNat = a at *
  generalize nowTimes.toNat = b at *
  norm_num only at *
  split_ifs <;> simp only [decide_eq_true_eq] <;> omega

theorem toInt_sub_nonpos : (s - nowTimes).toInt ≤ 0 ↔
    nowTimes.toNat + 2147483648 ≤ s.toNat ∨ s.toNat ≤ nowTimes.toNat ∧ nowTimes.toNat ≤ s.toNat + 2147483648 := by
  have hs := s.isLt
  have hnow := nowTimes.isLt
  simp only [BitVec.toInt_eq_toNat_cond, BitVec.toNat_sub]
  generalize s.toNat = a at *
  generalize nowTimes.toNat = b at *
  norm_num only at *
  split_ifs <;> omega

/-! ## Where both functions are right -/

/-- The two functions give the signed difference to the clock and whether it is over, a timestamp is due after the time
it was made for, and the functions do not contradict each other. -/
structure WrapSafe (nowTimes s r : BitVec 32) : Prop where
  timeDue : (olsrGetTimeDue nowTimes s).toInt = (s - nowTimes).toInt
  timedOut : olsrIsTimedOut nowTimes s = true ↔ (s - nowTimes).toInt ≤ 0
  timestamp : olsrGetTimeDue nowTimes (olsrGetTimestamp nowTimes r) = r
  agree : olsrIsTimedOut nowTimes s = true ↔ (olsrGetTimeDue nowTimes s).toInt ≤ 0

theorem timeDue_iff : (olsrGetTimeDue nowTimes s).toInt = (s - nowTimes).toInt ↔
    s.toNat ≤ nowTimes.toNat + 2147483648 ∧ nowTimes.toNat ≤ s.toNat + 2147483648 := by
  rw [BitVec.toInt_inj, olsrGetTimeDue_eq, ← Nat.not_lt, ← Nat.not_lt]
  split_ifs with hahead hbehind
  · simp [hahead]
  · simp [hbehind, sub_eq_add_neg]
  · exact iff_of_true rfl ⟨hahead, hbehind⟩

theorem timedOut_iff : (olsrIsTimedOut nowTimes s = true ↔ (s - nowTimes).toInt ≤ 0) ↔
    s.toNat ≠ nowTimes.toNat + 2147483648 := by
  rw [olsrIsTimedOut_toNat, toInt_sub_nonpos]
  omega

theorem timestamp_iff (hr : r.toNat < 2147483648) : olsrGetTimeDue nowTimes (olsrGetTimestamp nowTimes r) = r ↔
    nowTimes.toNat + r.toNat < 4294967296 := by
  have hsub : olsrGetTimestamp nowTimes r - nowTimes = r := add_sub_cancel_left ..
  have hdue := @timeDue_iff nowTimes (olsrGetTimestamp nowTimes r)
  rw [hsub, BitVec.toInt_inj] at hdue
  rw [hdue, olsrGetTimestamp, BitVec.toNat_add]
  have := nowTimes.isLt
  omega

/-- This holds exactly when the timestamp is less than half a turn after the clock or at most half a turn before
it, both as unsigned numbers, and the time does not take the clock over the wrap. -/
theorem wrapSafe_iff (nowTimes s r : BitVec 32) (hr : r.toNat < 2147483648) : WrapSafe nowTimes s r ↔
    s.toNat < nowTimes.toNat + 2147483648 ∧ nowTimes.toNat ≤ s.toNat + 2147483648 ∧
      nowTimes.toNat + r.toNat < 4294967296 := by
  constructor
  · intro h
    have hdue := timeDue_iff.1 h.timeDue
    have hout := timedOut_iff.1 h.timedOut
    have hstamp := (timestamp_iff hr).1 h.timestamp
    omega
  · rintro ⟨hahead, hbehind, hstamp⟩
    have hdue : (olsrGetTimeDue nowTimes s).toInt = (s - nowTimes).toInt := timeDue_iff.2 ⟨by omega, hbehind⟩
    have hout : olsrIsTimedOut nowTimes s = true ↔ (s - nowTimes).toInt ≤ 0 := timedOut_iff.2 (by omega)
    exact ⟨hdue, hout, (timestamp_iff hr).2 hstamp, by rw [hout, hdue]⟩

/-- A second after the start, a time of 20 seconds. -/
theorem wrapSafe_startup : WrapSafe 1000#32 21000#32 20000#32 :=
  (wrapSafe_iff 1000#32 21000#32 20000#32 (by decide)).2 (by decide)

/-- One second before the wrap, what is due in 20 s is due in 19.999 s. -/
theorem not_wrapSafe : ¬∀ nowTimes s r : BitVec 32, r.toNat < 2147483648 → WrapSafe nowTimes s r := by
  intro h
  have hstamp := (h 4294966296#32 0#32 20000#32 (by decide)).timestamp
  revert hstamp
  decide

end Olsrd.Timers
