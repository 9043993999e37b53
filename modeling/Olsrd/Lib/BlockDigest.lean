/-
Digests that go through their input block by block. The input may come in pieces: the full blocks of what has come are
taken in, and the rest waits for the next piece.
-/
import Mathlib.Data.List.Basic
import Mathlib.Tactic

namespace BlockDigest

variable {σ α : Type} (B : Nat) (f : σ → List α → σ)

/-- The state after the full blocks, and what is behind them. -/
def absorb (s : σ) (xs : List α) : σ × List α :=
  if 0 < B ∧ B ≤ xs.length then absorb (f s (xs.take B)) (xs.drop B) else (s, xs)
termination_by xs.length
decreasing_by
  rw [List.length_drop]
  omega

variable {B f} {s : σ} {xs ys : List α}

theorem absorb_short (h : xs.length < B) : absorb B f s xs = (s, xs) := by
  rw [absorb, if_neg (by omega)]

theorem absorb_block (hB : 0 < B) (h : xs.length = B) : absorb B f s (xs ++ ys) = absorb B f (f s xs) ys := by
  rw [absorb, if_pos ⟨hB, by simp [h]⟩, List.take_left' h, List.drop_left' h]

/-- An input with a full block is one with a first block. -/
theorem exists_block (h : B ≤ xs.length) : ∃ b rest, xs = b ++ rest ∧ b.length = B :=
  ⟨xs.take B, xs.drop B, (List.take_append_drop B xs).symm, List.length_take_of_le h⟩

/-- What is absorbed, block for block. -/
theorem absorb_induction {P : σ → List α → Prop} (hB : 0 < B) (hshort : ∀ s xs, xs.length < B → P s xs)
    (hblock : ∀ s b rest, b.length = B → P (f s b) rest → P s (b ++ rest)) (s : σ) (xs : List α) : P s xs := by
  induction hn : xs.length using Nat.strong_induction_on generalizing s xs with
  | _ n ih =>
    by_cases hlen : xs.length < B
    · exact hshort s xs hlen
    · obtain ⟨b, rest, rfl, hb⟩ := exists_block (not_lt.1 hlen)
      rw [List.length_append] at hn
      exact hblock s b rest hb (ih rest.length (by omega) (f s b) rest rfl)

theorem length_absorb (hB : 0 < B) : (absorb B f s xs).2.length = xs.length % B := by
  refine absorb_induction (f := f) (P := fun s xs => (absorb B f s xs).2.length = xs.length % B) hB ?_ ?_ s xs
  · intro s xs hlen
    rw [absorb_short hlen, Nat.mod_eq_of_lt hlen]
  · intro s b rest hb ih
    rw [absorb_block hB hb, ih, List.length_append, hb, Nat.add_mod_left]

/-- An input may be absorbed in two pieces. -/
theorem absorb_append (hB : 0 < B) :
    absorb B f s (xs ++ ys) = absorb B f (absorb B f s xs).1 ((absorb B f s xs).2 ++ ys) := by
  refine absorb_induction (f := f) (P := fun s xs =>
    absorb B f s (xs ++ ys) = absorb B f (absorb B f s xs).1 ((absorb B f s xs).2 ++ ys)) hB ?_ ?_ s xs
  · intro s xs hlen
    rw [absorb_short hlen]
  · intro s b rest hb ih
    rw [List.append_assoc, absorb_block hB hb, absorb_block hB hb, ih]

end BlockDigest
