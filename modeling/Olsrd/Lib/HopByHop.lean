/-
Forwarding hop by hop over links with costs. If every vertex hands on to the first vertex of some cheapest way, what is
handed on takes a cheapest way as a whole, and never comes back.
-/
import Mathlib.Tactic

namespace HopByHop

variable {V : Type}

/-! ## Ways -/

/-- A way over links to `d`, with its cost. -/
inductive Way (G : V → V → Nat → Prop) (d : V) : V → Nat → Prop
  | here : Way G d d 0
  | cons {a x : V} {c k : Nat} : G a x c → Way G d x k → Way G d a (c + k)

/-- The least cost of a way to `d`. -/
def Dist (G : V → V → Nat → Prop) (d a : V) (k : Nat) : Prop := Way G d a k ∧ ∀ j, Way G d a j → k ≤ j

/-- Whoever hands on hands on to the first vertex of a cheapest way. -/
def Greedy (G : V → V → Nat → Prop) (next : V → V → Prop) (d : V) : Prop :=
  ∀ a x, next a x → ∃ c k, G a x c ∧ Way G d x k ∧ Dist G d a (c + k)

/-- What is handed on from `a`, with the cost and the number of its hops. -/
inductive Trail (G : V → V → Nat → Prop) (next : V → V → Prop) (a : V) : V → Nat → Nat → Prop
  | nil : Trail G next a a 0 0
  | snoc {x y : V} {k m c : Nat} : Trail G next a x k m → next x y → G x y c → Trail G next a y (k + c) (m + 1)

section

variable {G : V → V → Nat → Prop} {next : V → V → Prop} {d a x y : V} {k m n c : Nat}

theorem Dist.unique (h : Dist G d a k) (h' : Dist G d a n) : k = n := le_antisymm (h.2 n h'.1) (h'.2 k h.1)

theorem Dist.self (h : Dist G d d k) : k = 0 := Nat.le_zero.1 (h.2 0 .here)

/-- The rest of a cheapest way is a cheapest way. -/
theorem Dist.rest (h : Dist G d a (c + k)) (hlink : G a x c) (hway : Way G d x k) : Dist G d x k := by
  refine ⟨hway, fun j hj => ?_⟩
  have hle := h.2 (c + j) (.cons hlink hj)
  omega

/-- A hop. -/
theorem Greedy.step (hgreedy : Greedy G next d) (hone : ∀ a x c c', G a x c → G a x c' → c = c') (hnext : next a x)
    (hlink : G a x c) (hdist : Dist G d a n) : ∃ j, Dist G d x j ∧ c + j = n := by
  obtain ⟨c', k, hlink', hway, hleast⟩ := hgreedy a x hnext
  obtain rfl := hone a x c c' hlink hlink'
  exact ⟨k, hleast.rest hlink hway, hleast.unique hdist⟩

/-- On the way, what has been spent and what is left to spend are together the least cost. -/
theorem Trail.rest (hgreedy : Greedy G next d) (hone : ∀ a x c c', G a x c → G a x c' → c = c')
    (hpos : ∀ a x c, G a x c → 0 < c) (h : Trail G next a x k m) (hdist : Dist G d a n) :
    m ≤ k ∧ ∃ j, Dist G d x j ∧ k + j = n := by
  induction h with
  | nil => exact ⟨le_rfl, n, hdist, Nat.zero_add n⟩
  | snoc _ hnext hlink ih =>
    obtain ⟨hle, j, hj, rfl⟩ := ih
    obtain ⟨i, hi, rfl⟩ := hgreedy.step hone hnext hlink hj
    have hc := hpos _ _ _ hlink
    refine ⟨by omega, i, hi, by omega⟩

/-- Nothing comes back to where it was. -/
theorem Trail.no_loop (hgreedy : Greedy G next d) (hone : ∀ a x c c', G a x c → G a x c' → c = c')
    (hpos : ∀ a x c, G a x c → 0 < c) (h : Trail G next a a k m) (hdist : Dist G d a n) : m = 0 := by
  obtain ⟨hle, j, hj, hsum⟩ := h.rest hgreedy hone hpos hdist
  obtain rfl := hj.unique hdist
  omega

end

end HopByHop
