/-
Sequence numbers on the wire and the bitmap of a sliding window over them. An unbounded number is
sent modulo `2 * M`; two numbers less than `M` apart can still be compared from their wire values.
A bitmap of `w` bits under a newest number says which of the `w` newest numbers are in a set.
-/
import Mathlib.Data.BitVec
import Mathlib.Tactic

namespace Window

/-! ## Differences of wire values -/

/-- The difference of two wire values, moved once around the circle when it exceeds half of it. -/
def serialDiff (M a b : Int) : Int :=
  if a - b > M then a - b - 2 * M else if a - b < -M then a - b + 2 * M else a - b

theorem serialDiff_emod {M n m : Int} (hM : 0 < M) (h1 : n - m < M) (h2 : m - n < M) :
    serialDiff M (n % (2 * M)) (m % (2 * M)) = n - m := by
  have hn := Int.emod_nonneg n (by omega : 2 * M ≠ 0)
  have hm := Int.emod_nonneg m (by omega : 2 * M ≠ 0)
  have hn' := Int.emod_lt_of_pos n (by omega : 0 < 2 * M)
  have hm' := Int.emod_lt_of_pos m (by omega : 0 < 2 * M)
  obtain ⟨k, hk⟩ : ∃ k, n % (2 * M) - m % (2 * M) = n - m - 2 * M * k := by
    refine ⟨n / (2 * M) - m / (2 * M), ?_⟩
    rw [Int.emod_def, Int.emod_def]; ring
  -- both wire values lie in one period, so they are off by at most one period
  have hk1 : k < 2 := by nlinarith
  have hk2 : -2 < k := by nlinarith
  unfold serialDiff
  rw [hk]
  obtain rfl | rfl | rfl : k = -1 ∨ k = 0 ∨ k = 1 := by omega
  · rw [if_pos (by omega)]; ring
  · rw [if_neg (by omega), if_neg (by omega)]; ring
  · rw [if_neg (by omega), if_pos (by omega)]; ring

/-! ## The bitmap -/

variable {w : Nat} {a : BitVec w} {top : Int} {S : Int → Prop}

/-- Bit `k` of `a` tells whether `top - k` is in `S`. -/
def Holds (a : BitVec w) (top : Int) (S : Int → Prop) : Prop :=
  ∀ k < w, a.getLsbD k = true ↔ S (top - k)

theorem holds_zero (h : ∀ n, ¬ S n) : Holds (0 : BitVec w) top S := by
  intro k _
  simp [h]

theorem getLsbD_one_shiftLeft {i k : Nat} (hi : i < w) : ((1 : BitVec w) <<< k).getLsbD i = decide (i = k) := by
  rw [BitVec.getLsbD_shiftLeft, Bool.eq_iff_iff]
  simp [hi]
  omega

theorem and_one_shiftLeft_ne_zero (a : BitVec w) {k : Nat} (hk : k < w) :
    a &&& (1 : BitVec w) <<< k ≠ 0 ↔ a.getLsbD k = true := by
  constructor
  · intro h
    by_contra hb
    apply h
    apply BitVec.eq_of_getLsbD_eq
    intro i hi
    rw [BitVec.getLsbD_and, getLsbD_one_shiftLeft hi]
    by_cases hik : i = k
    · subst hik; simp [hb]
    · simp [hik]
  · intro hb h
    have := congrArg (fun x => BitVec.getLsbD x k) h
    simp only [BitVec.getLsbD_and, getLsbD_one_shiftLeft hk, hb] at this
    simp at this

/-- Setting bit `k` adds `top - k`. -/
theorem holds_mark (h : Holds a top S) {n : Int} {k : Nat} (hn : n = top - k) :
    Holds (a ||| (1 : BitVec w) <<< k) top fun i => S i ∨ i = n := by
  subst hn
  intro i hi
  rw [BitVec.getLsbD_or, getLsbD_one_shiftLeft hi, Bool.or_eq_true, h i hi, decide_eq_true_eq]
  refine or_congr Iff.rfl ?_
  omega

/-- Shifting by `d` and setting bit 0 moves the window up to `top + d`. -/
theorem holds_advance (h : Holds a top S) (hS : ∀ n, S n → n ≤ top) {n : Int} {d : Nat}
    (hn : n = top + d) (hd : 0 < d) : Holds (a <<< d ||| 1) n fun i => S i ∨ i = n := by
  subst hn
  intro i hi
  rw [BitVec.getLsbD_or, BitVec.getLsbD_shiftLeft, Bool.or_eq_true]
  refine or_congr ?_ ?_
  · by_cases hid : i < d
    · simp only [hi, hid, decide_true, Bool.not_true, Bool.and_false, Bool.false_and, Bool.false_eq_true,
        false_iff]
      intro hs; have := hS _ hs; omega
    · rw [show top + (d : Int) - i = top - ((i - d : Nat) : Int) by omega, ← h (i - d) (by omega)]
      simp [hi, hid]
  · simp [BitVec.getLsbD_one]
    omega

/-- A jump of at least the whole window forgets everything but the new number. -/
theorem holds_restart (hS : ∀ n, S n → n ≤ top) {n : Int} (hn : top + w ≤ n) :
    Holds (1 : BitVec w) n fun i => S i ∨ i = n := by
  intro i hi
  simp only [BitVec.ofNat_eq_ofNat, BitVec.getLsbD_one, Bool.and_eq_true, decide_eq_true_eq]
  constructor
  · rintro ⟨-, rfl⟩; right; omega
  · rintro (hs | hs)
    · have := hS _ hs; omega
    · exact ⟨by omega, by omega⟩

end Window
