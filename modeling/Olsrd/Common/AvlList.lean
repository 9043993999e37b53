/-
The list through the nodes of an AVL tree, and the operations that link a node in and out.
-/
import Olsrd.Common.AvlRep
import Olsrd.Lib.DoubleChain

namespace Olsrd.Common

open DoubleChain

variable {K : Type} {t t' t'' : AvlTree K} {pos node : Ptr} {l l₁ l₂ : List Ptr}

/-- The members in the order of the list. -/
structure IsList (t : AvlTree K) (l : List Ptr) : Prop where
  first : t.first = l.head?
  last : t.last = l.getLast?
  linked : Linked t.next t.prev none l none
  nodup : l.Nodup
  count : t.count = l.length

/-- The fields of the tree are not touched. -/
structure SameTree (t t' : AvlTree K) : Prop where
  root : t'.root = t.root
  parent : t'.parent = t.parent
  child : t'.child = t.child
  balance : t'.balance = t.balance
  key : t'.key = t.key
  leader : t'.leader = t.leader

theorem IsList.same (h : IsList t l) (hsame : SameList t t') : IsList t' l where
  first := hsame.first.trans h.first
  last := hsame.last.trans h.last
  linked := by
    rw [hsame.next, hsame.prev]
    exact h.linked
  nodup := h.nodup
  count := hsame.count.trans h.count

theorem IsTree.same {T : BalancedTree.BalTree Ptr} (h : IsTree t T) (hsame : SameTree t t') : IsTree t' T := by
  unfold IsTree at h ⊢
  rw [hsame.root]
  exact h.congr fun p _ => ⟨by rw [hsame.parent], by rw [hsame.child], by rw [hsame.balance]⟩

theorem IsList.prev (h : IsList t (l₁ ++ pos :: l₂)) : t.prev pos = l₁.getLast? := by
  rw [h.linked.links.1, Option.or_none]

theorem IsList.next (h : IsList t (l₁ ++ pos :: l₂)) : t.next pos = l₂.head? := by
  rw [h.linked.links.2, Option.or_none]

theorem sameTree_insertBefore (t : AvlTree K) (pos node : Ptr) : SameTree t (avlInsertBefore t pos node) := by
  unfold avlInsertBefore
  cases t.prev pos <;> exact ⟨rfl, rfl, rfl, rfl, rfl, rfl⟩

theorem sameTree_insertAfter (t : AvlTree K) (pos node : Ptr) : SameTree t (avlInsertAfter t pos node) := by
  unfold avlInsertAfter
  cases t.next pos <;> exact ⟨rfl, rfl, rfl, rfl, rfl, rfl⟩

theorem sameTree_remove (t : AvlTree K) (node : Ptr) : SameTree t (avlRemove t node) := by
  unfold avlRemove
  cases t.prev node <;> dsimp only <;> split <;> exact ⟨rfl, rfl, rfl, rfl, rfl, rfl⟩

/-- A node that is in no list is linked in between. -/
theorem isList_insert (h : IsList t (l₁ ++ l₂)) (hnode : node ∉ l₁ ++ l₂)
    (hfirst : t'.first = if l₁ = [] then some node else t.first)
    (hlast : t'.last = if l₂ = [] then some node else t.last)
    (hnext : t'.next = Function.update (setLink t.next l₁.getLast? (some node)) node l₂.head?)
    (hprev : t'.prev = Function.update (setLink t.prev l₂.head? (some node)) node l₁.getLast?)
    (hcount : t'.count = t.count + 1) : IsList t' (l₁ ++ node :: l₂) := by
  have hnodup : (l₁ ++ node :: l₂).Nodup := by
    rw [List.nodup_middle, List.nodup_cons]
    exact ⟨hnode, h.nodup⟩
  constructor
  · rw [hfirst, h.first]
    cases l₁ <;> simp
  · rw [hlast, h.last]
    rcases List.eq_nil_or_concat l₂ with rfl | ⟨l, i, rfl⟩
    · simp
    · rw [List.concat_eq_append, ← List.append_assoc, List.getLast?_concat, ← List.cons_append, ← List.append_assoc,
        List.getLast?_concat]
      simp
  · rw [hnext, hprev]
    exact h.linked.insert hnodup
  · exact hnodup
  · rw [hcount, h.count]
    simp only [List.length_append, List.length_cons]
    omega

/-- `avl_insert_before` -/
theorem isList_insertBefore (h : IsList t (l₁ ++ pos :: l₂)) (hnode : node ∉ l₁ ++ pos :: l₂) :
    IsList (avlInsertBefore t pos node) (l₁ ++ node :: pos :: l₂) := by
  have hne : pos ≠ node := by
    rintro rfl
    exact hnode (by simp)
  have hprev := h.prev
  have hcomm : Function.update (Function.update t.prev node (t.prev pos)) pos (some node) =
      Function.update (setLink t.prev (pos :: l₂).head? (some node)) node l₁.getLast? := by
    rw [hprev]
    exact Function.update_comm (Ne.symm hne) ..
  unfold avlInsertBefore
  rcases List.eq_nil_or_concat l₁ with rfl | ⟨l, i, rfl⟩
  · have hnone : t.prev pos = none := hprev
    rw [hnone] at hcomm ⊢
    exact isList_insert h hnode rfl rfl rfl (by simpa [hnone] using hcomm) rfl
  · rw [List.concat_eq_append] at *
    have hsome : t.prev pos = some i := by rw [hprev, List.getLast?_concat]
    rw [hsome] at hcomm ⊢
    exact isList_insert h hnode (by simp) rfl (by simp [setLink]) (by simpa [hsome] using hcomm) rfl

/-- `avl_insert_after` -/
theorem isList_insertAfter (h : IsList t (l₁ ++ pos :: l₂)) (hnode : node ∉ l₁ ++ pos :: l₂) :
    IsList (avlInsertAfter t pos node) (l₁ ++ pos :: node :: l₂) := by
  have hne : pos ≠ node := by
    rintro rfl
    exact hnode (by simp)
  have hnext := h.next
  have hcomm : Function.update (Function.update t.next node (t.next pos)) pos (some node) =
      Function.update (setLink t.next (l₁ ++ [pos]).getLast? (some node)) node l₂.head? := by
    rw [hnext, List.getLast?_concat]
    exact Function.update_comm (Ne.symm hne) ..
  rw [List.append_cons] at h hnode ⊢
  unfold avlInsertAfter
  cases l₂ with
  | nil =>
    have hnone : t.next pos = none := hnext
    rw [hnone] at hcomm ⊢
    exact isList_insert h hnode (by simp) rfl (by simpa [hnone] using hcomm) (by simp [setLink]) rfl
  | cons i l₂ =>
    have hsome : t.next pos = some i := hnext
    rw [hsome] at hcomm ⊢
    exact isList_insert h hnode (by simp) rfl (by simpa [hsome] using hcomm) (by simp [setLink]) rfl

/-- The fields that `avl_remove` leaves when a node is not linked to itself -/
theorem avlRemove_fields (h : t.prev node ≠ some node) :
    (avlRemove t node).next = setLink t.next (t.prev node) (t.next node) ∧
    (avlRemove t node).prev = setLink t.prev (t.next node) (t.prev node) ∧
    (avlRemove t node).first = (if t.prev node = none then t.next node else t.first) ∧
    (avlRemove t node).last = (if t.next node = none then t.prev node else t.last) ∧
    (avlRemove t node).count = t.count - 1 := by
  unfold avlRemove
  cases hprev : t.prev node with
  | none => cases hnext : t.next node <;> simp [setLink, hprev, hnext]
  | some i =>
    have hi : node ≠ i := by
      rintro rfl
      exact h hprev
    cases hnext : t.next node <;> simp [setLink, hprev, hnext, Function.update_of_ne hi]

/-- `avl_remove` -/
theorem isList_remove (h : IsList t (l₁ ++ node :: l₂)) : IsList (avlRemove t node) (l₁ ++ l₂) := by
  have hlinked := h.linked.remove h.nodup
  have hnodup := h.nodup
  rw [List.nodup_middle, List.nodup_cons, List.mem_append, not_or] at hnodup
  have hself : t.prev node ≠ some node := by
    rw [h.prev]
    exact getLast?_ne hnodup.1.1
  obtain ⟨hnext, hprev, hfirst, hlast, hcount⟩ := avlRemove_fields hself
  rw [h.prev, h.next] at hnext hprev
  rw [h.prev, h.next, h.first] at hfirst
  rw [h.prev, h.next, h.last] at hlast
  constructor
  · rw [hfirst]
    cases l₁ <;> simp
  · rw [hlast]
    rcases List.eq_nil_or_concat l₂ with rfl | ⟨l, i, rfl⟩
    · simp
    · rw [List.concat_eq_append, ← List.append_assoc, List.getLast?_concat, ← List.cons_append, ← List.append_assoc,
        List.getLast?_concat]
      simp
  · rw [hnext, hprev]
    exact hlinked
  · exact hnodup.2
  · rw [hcount, h.count]
    simp

end Olsrd.Common
