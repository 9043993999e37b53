/-
Doubly linked chains in memory: every node points to the one behind it and to the one before it.
-/
import Mathlib.Data.List.Nodup
import Mathlib.Logic.Function.Basic
import Mathlib.Tactic

namespace DoubleChain

variable {ι : Type} [DecidableEq ι] {next prev next' prev' : ι → Option ι} {b e : Option ι} {i : ι} {l l₁ l₂ : List ι}

/-- The nodes between `b` and `e`, each linked with the ones at its sides. -/
def Linked (next prev : ι → Option ι) : Option ι → List ι → Option ι → Prop
  | _, [], _ => True
  | b, i :: l, e => prev i = b ∧ next i = l.head?.or e ∧ Linked next prev (some i) l e

omit [DecidableEq ι] in
theorem linked_cons : Linked next prev b (i :: l) e ↔
    prev i = b ∧ next i = l.head?.or e ∧ Linked next prev (some i) l e := Iff.rfl

omit [DecidableEq ι] in
theorem linked_append : Linked next prev b (l₁ ++ l₂) e ↔
    Linked next prev b l₁ (l₂.head?.or e) ∧ Linked next prev (l₁.getLast?.or b) l₂ e := by
  induction l₁ generalizing b with
  | nil => simp [Linked]
  | cons i l₁ ih =>
    rw [List.cons_append, linked_cons, linked_cons, ih, List.head?_append, Option.or_assoc, List.getLast?_cons,
      and_assoc, and_assoc]
    cases l₁.getLast? <;> rfl

omit [DecidableEq ι] in
theorem Linked.congr (h : Linked next prev b l e) (hl : ∀ i ∈ l, next' i = next i ∧ prev' i = prev i) :
    Linked next' prev' b l e := by
  induction l generalizing b with
  | nil => trivial
  | cons i l ih =>
    obtain ⟨hprev, hnext, h⟩ := h
    obtain ⟨hnext', hprev'⟩ := hl i (List.mem_cons_self ..)
    exact ⟨hprev'.trans hprev, hnext'.trans hnext, ih h fun j hj => hl j (List.mem_cons_of_mem _ hj)⟩

/-- Set a link, unless there is no node to set it in. -/
def setLink (link : ι → Option ι) (i v : Option ι) : ι → Option ι :=
  match i with
  | some i => Function.update link i v
  | none => link

theorem setLink_of_ne {link : ι → Option ι} {o v : Option ι} (h : o ≠ some i) : setLink link o v i = link i := by
  cases o with
  | none => rfl
  | some j =>
    refine Function.update_of_ne ?_ ..
    rintro rfl
    exact h rfl

/-- The chain gets another end. -/
theorem Linked.set_end (h : Linked next prev b l e) (hnodup : l.Nodup) (e' : Option ι) :
    Linked (setLink next l.getLast? e') prev b l e' := by
  rcases List.eq_nil_or_concat l with rfl | ⟨l, i, rfl⟩
  · trivial
  rw [List.concat_eq_append] at h hnodup ⊢
  rw [List.getLast?_concat, linked_append] at *
  obtain ⟨hl, hprev, -⟩ := h
  rw [List.nodup_append] at hnodup
  refine ⟨hl.congr fun j hj => ⟨Function.update_of_ne ?_ .., rfl⟩, hprev, Function.update_self .., trivial⟩
  exact hnodup.2.2 j hj i (List.mem_cons_self ..)

/-- The chain gets another start. -/
theorem Linked.set_start (h : Linked next prev b l e) (hnodup : l.Nodup) (b' : Option ι) :
    Linked next (setLink prev l.head? b') b' l e := by
  cases l with
  | nil => trivial
  | cons i l =>
    obtain ⟨-, hnext, h⟩ := h
    refine ⟨Function.update_self .., hnext, h.congr fun j hj => ⟨rfl, Function.update_of_ne ?_ ..⟩⟩
    rintro rfl
    exact (List.nodup_cons.1 hnodup).1 hj

omit [DecidableEq ι] in
/-- The links of a node in the middle. -/
theorem Linked.links (h : Linked next prev b (l₁ ++ i :: l₂) e) : prev i = l₁.getLast?.or b ∧ next i =
    l₂.head?.or e := by
  obtain ⟨-, hprev, hnext, -⟩ := linked_append.1 h
  exact ⟨hprev, hnext⟩

omit [DecidableEq ι] in
theorem getLast?_ne (h : i ∉ l) : l.getLast? ≠ some i := fun hi => h (List.mem_of_getLast? hi)

omit [DecidableEq ι] in
theorem head?_ne (h : i ∉ l) : l.head? ≠ some i := fun hi => h (List.mem_of_head? hi)

/-- A node is linked in between two others. -/
theorem Linked.insert (h : Linked next prev none (l₁ ++ l₂) none) (hnodup : (l₁ ++ i :: l₂).Nodup) :
    Linked (Function.update (setLink next l₁.getLast? (some i)) i l₂.head?)
      (Function.update (setLink prev l₂.head? (some i)) i l₁.getLast?) none (l₁ ++ i :: l₂) none := by
  rw [List.nodup_append, List.nodup_cons] at hnodup
  obtain ⟨hnd₁, ⟨hi₂, hnd₂⟩, hdisjoint⟩ := hnodup
  obtain ⟨h₁, h₂⟩ := linked_append.1 h
  rw [linked_append]
  refine ⟨(h₁.set_end hnd₁ (some i)).congr fun j hj => ?_, by simp, by simp,
    (h₂.set_start hnd₂ (some i)).congr fun j hj => ?_⟩
  · have hji : j ≠ i := hdisjoint j hj i (List.mem_cons_self ..)
    rw [Function.update_of_ne hji, Function.update_of_ne hji]
    exact ⟨rfl, setLink_of_ne (head?_ne fun h => hdisjoint j hj j (List.mem_cons_of_mem _ h) rfl)⟩
  · have hji : j ≠ i := fun h => hi₂ (h ▸ hj)
    rw [Function.update_of_ne hji, Function.update_of_ne hji]
    exact ⟨setLink_of_ne (getLast?_ne fun h => hdisjoint j h j (List.mem_cons_of_mem _ hj) rfl), rfl⟩

/-- A node is linked out. -/
theorem Linked.remove (h : Linked next prev none (l₁ ++ i :: l₂) none) (hnodup : (l₁ ++ i :: l₂).Nodup) :
    Linked (setLink next l₁.getLast? l₂.head?) (setLink prev l₂.head? l₁.getLast?) none (l₁ ++ l₂) none := by
  rw [List.nodup_append, List.nodup_cons] at hnodup
  obtain ⟨hnd₁, ⟨-, hnd₂⟩, hdisjoint⟩ := hnodup
  obtain ⟨h₁, -, -, h₂⟩ := linked_append.1 h
  rw [linked_append, Option.or_none, Option.or_none]
  refine ⟨(h₁.set_end hnd₁ l₂.head?).congr fun j hj => ?_, (h₂.set_start hnd₂ l₁.getLast?).congr fun j hj => ?_⟩
  · exact ⟨rfl, setLink_of_ne (head?_ne fun h => hdisjoint j hj j (List.mem_cons_of_mem _ h) rfl)⟩
  · exact ⟨setLink_of_ne (getLast?_ne fun h => hdisjoint j h j (List.mem_cons_of_mem _ hj) rfl), rfl⟩

end DoubleChain
