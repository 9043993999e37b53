/-
Rounding down to a set of codes: of the values that the codes stand for, the largest that is not above a number.
-/
import Mathlib.Order.Lattice

namespace RoundDown

variable {C α : Type} [LinearOrder α] {value : C → α} {x y : α} {c d : C}

/-- `c` stands for the largest value that is not above `x`. -/
structure RoundsTo (value : C → α) (x : α) (c : C) : Prop where
  le : value c ≤ x
  greatest : ∀ d, value d ≤ x → value d ≤ value c

theorem RoundsTo.lt (h : RoundsTo value x c) (hd : value c < value d) : x < value d :=
  lt_of_not_ge fun hle => absurd (h.greatest d hle) (not_le_of_gt hd)

/-- What lies between the value of a code and the next larger value, is rounded to that code. -/
theorem roundsTo_iff : RoundsTo value x c ↔ value c ≤ x ∧ ∀ d, value c < value d → x < value d := by
  constructor
  · exact fun h => ⟨h.le, fun d hd => h.lt hd⟩
  · rintro ⟨hle, hnext⟩
    refine ⟨hle, fun d hd => le_of_not_gt fun hlt => ?_⟩
    exact absurd hd (not_le_of_gt (hnext d hlt))

theorem RoundsTo.mono (h : RoundsTo value x c) (h' : RoundsTo value y d) (hxy : x ≤ y) : value c ≤ value d :=
  h'.greatest c (le_trans h.le hxy)

theorem RoundsTo.value_eq (h : RoundsTo value x c) (h' : RoundsTo value x d) : value c = value d :=
  le_antisymm (h.mono h' (le_refl x)) (h'.mono h (le_refl x))

theorem roundsTo_value (c : C) : RoundsTo value (value c) c := ⟨le_refl _, fun _ h => h⟩

/-- A number that is read back from a code too low is rounded to the same value only if nothing was lost. -/
theorem RoundsTo.value_eq_iff (h : RoundsTo value y d) (hy : y ≤ value c) : value d = value c ↔ y = value c := by
  constructor
  · exact fun heq => le_antisymm hy (heq ▸ h.le)
  · rintro rfl
    exact h.value_eq (roundsTo_value c)

end RoundDown
