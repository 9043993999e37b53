/-
Flooding over a graph. A set of vertices that takes in the relays of its members, where the relays of every vertex cover
what is two links away from it, reaches all that links lead to.
-/
import Mathlib.Logic.Relation
import Mathlib.Data.Set.Basic

namespace Flooding

variable {V : Type} {link relay : V → V → Prop} {s : Set V} {r u v w : V}

/-- What is two links away from a vertex, and not nearer, has a link from one of its relays. -/
def Covers (link relay : V → V → Prop) : Prop :=
  ∀ u v w, link u v → link v w → w ≠ u → ¬link u w → ∃ x, link u x ∧ relay u x ∧ link x w

/-- The relays of members are members. -/
def Closed (link relay : V → V → Prop) (s : Set V) : Prop := ∀ u ∈ s, ∀ x, link u x → relay u x → x ∈ s

/-- A member, or a vertex with a link from one. -/
def Reached (link : V → V → Prop) (s : Set V) (w : V) : Prop := w ∈ s ∨ ∃ u ∈ s, link u w

/-- Over a link from a reached vertex nothing is lost: if only a neighbour of it transmits, one of the relays of that
neighbour does its work. -/
theorem Reached.next (hcovers : Covers link relay) (hclosed : Closed link relay s) (h : Reached link s v)
    (hlink : link v w) : Reached link s w := by
  rcases h with hv | ⟨u, hu, huv⟩
  · exact .inr ⟨v, hv, hlink⟩
  by_cases hself : w = u
  · exact .inl (hself ▸ hu)
  by_cases hdirect : link u w
  · exact .inr ⟨u, hu, hdirect⟩
  obtain ⟨x, hux, hrelay, hxw⟩ := hcovers u v w huv hlink hself hdirect
  exact .inr ⟨x, hclosed u hu x hux hrelay, hxw⟩

end Flooding
