/-
Sums and counts over a list when what is summed up changes at one place, or when the selection of what is summed up
gets one member more. In a list without repetitions, one term changes.
-/
import Mathlib.Algebra.BigOperators.Group.List.Basic
import Mathlib.Tactic

namespace Tally

variable {α β M : Type} [DecidableEq α] [AddCommMonoid M] {a : α} {l : List α}

theorem sum_map_update_of_notMem (m : α → β) (f : β → M) (v : β) (ha : a ∉ l) :
    (l.map fun x => f (Function.update m a v x)).sum = (l.map fun x => f (m x)).sum := by
  refine congrArg List.sum (List.map_congr_left fun x hx => ?_)
  rw [Function.update_of_ne (by rintro rfl; exact ha hx)]

/-- One term changes. -/
theorem sum_map_update (m : α → β) (f : β → M) (v : β) : ∀ {l : List α}, l.Nodup → a ∈ l →
    (l.map fun x => f (Function.update m a v x)).sum + f (m a) = (l.map fun x => f (m x)).sum + f v
  | x :: l, hnodup, ha => by
    obtain ⟨hx, hnodup⟩ := List.nodup_cons.1 hnodup
    rw [List.map_cons, List.map_cons, List.sum_cons, List.sum_cons]
    by_cases hxa : x = a
    · subst hxa
      rw [sum_map_update_of_notMem m f v hx, Function.update_self, add_right_comm, add_comm (f v), add_right_comm]
    · have hrest := sum_map_update m f v hnodup ((List.mem_cons.1 ha).resolve_left (Ne.symm hxa))
      rw [Function.update_of_ne hxa, add_assoc, hrest, add_assoc]

theorem filter_update_of_notMem {f : α → Bool} {b : Bool} (ha : a ∉ l) :
    l.filter (Function.update f a b) = l.filter f :=
  List.filter_congr fun x hx => by rw [Function.update_of_ne (by rintro rfl; exact ha hx)]

/-- One member more is one term more. -/
theorem sum_filter_update {f : α → Bool} (g : α → M) : ∀ {l : List α}, l.Nodup → a ∈ l → f a = false →
    ((l.filter (Function.update f a true)).map g).sum = ((l.filter f).map g).sum + g a
  | x :: l, hnodup, ha, hf => by
    obtain ⟨hx, hnodup⟩ := List.nodup_cons.1 hnodup
    by_cases hxa : x = a
    · subst hxa
      rw [List.filter_cons_of_pos (Function.update_self ..), List.filter_cons_of_neg (by simp [hf]),
        filter_update_of_notMem hx, List.map_cons, List.sum_cons, add_comm]
    · have hrest := sum_filter_update g hnodup ((List.mem_cons.1 ha).resolve_left (Ne.symm hxa)) hf
      rw [List.filter_cons, List.filter_cons, Function.update_of_ne hxa]
      split
      · rw [List.map_cons, List.map_cons, List.sum_cons, List.sum_cons, hrest, add_assoc]
      · exact hrest

theorem countP_update {f : α → Bool} (hnodup : l.Nodup) (hf : f a = false) :
    l.countP (Function.update f a true) = l.countP f + if a ∈ l then 1 else 0 := by
  split
  · rename_i ha
    have h := sum_filter_update (fun _ => 1) hnodup ha hf
    simpa [List.countP_eq_length_filter] using h
  · rename_i ha
    rw [List.countP_eq_length_filter, filter_update_of_notMem ha, List.countP_eq_length_filter, Nat.add_zero]

/-- Fewer are left out, even if the list repeats members. -/
theorem countP_not_update_lt {f : α → Bool} : ∀ {l : List α}, a ∈ l → f a = false →
    l.countP (fun x => !Function.update f a true x) < l.countP fun x => !f x
  | x :: l, ha, hf => by
    have hle : l.countP (fun x => !Function.update f a true x) ≤ l.countP fun x => !f x := by
      refine List.countP_mono_left fun y _ hy => ?_
      by_cases hya : y = a
      · simp [hya, hf]
      · rwa [Function.update_of_ne hya] at hy
    rw [List.countP_cons, List.countP_cons]
    by_cases hxa : x = a
    · subst hxa
      simp [hf]
      omega
    · have hlt := countP_not_update_lt ((List.mem_cons.1 ha).resolve_left (Ne.symm hxa)) hf
      rw [Function.update_of_ne hxa]
      omega

end Tally
