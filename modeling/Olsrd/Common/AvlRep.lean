/-
The trees that AVL nodes in memory are, and the rotations as functions on these trees. A place in a tree is a pointer of
memory that may be set, and the rest of the tree is around it.
-/
import Olsrd.Common.Avl

namespace Olsrd.Common

open BalancedTree

variable {K : Type} {t t' t'' : AvlTree K}

/-! ## Fields -/

section

variable (t : AvlTree K) (p : Ptr) (o o' : Option Ptr) (s : Side) (b : Int)

@[simp] theorem setParent_parent : (t.setParent p o).parent = Function.update t.parent p o := rfl
@[simp] theorem setParent_child : (t.setParent p o).child = t.child := rfl
@[simp] theorem setParent_balance : (t.setParent p o).balance = t.balance := rfl
@[simp] theorem setParent_root : (t.setParent p o).root = t.root := rfl
@[simp] theorem setChild_parent : (t.setChild p s o).parent = t.parent := rfl
@[simp] theorem setChild_child :
    (t.setChild p s o).child = Function.update t.child p (Function.update (t.child p) s o) := rfl
@[simp] theorem setChild_balance : (t.setChild p s o).balance = t.balance := rfl
@[simp] theorem setChild_root : (t.setChild p s o).root = t.root := rfl
@[simp] theorem setBalance_parent : (t.setBalance p b).parent = t.parent := rfl
@[simp] theorem setBalance_child : (t.setBalance p b).child = t.child := rfl
@[simp] theorem setBalance_balance : (t.setBalance p b).balance = Function.update t.balance p b := rfl
@[simp] theorem setBalance_root : (t.setBalance p b).root = t.root := rfl
@[simp] theorem adopt_child : (t.adopt o o').child = t.child := by cases o <;> rfl
@[simp] theorem adopt_balance : (t.adopt o o').balance = t.balance := by cases o <;> rfl
@[simp] theorem adopt_root : (t.adopt o o').root = t.root := by cases o <;> rfl
@[simp] theorem replaceChild_parent : (t.replaceChild o p o').parent = t.parent := by cases o <;> rfl
@[simp] theorem replaceChild_balance : (t.replaceChild o p o').balance = t.balance := by cases o <;> rfl

end

/-- The fields of the list are not touched. -/
structure SameList (t t' : AvlTree K) : Prop where
  first : t'.first = t.first
  last : t'.last = t.last
  count : t'.count = t.count
  next : t'.next = t.next
  prev : t'.prev = t.prev
  key : t'.key = t.key
  leader : t'.leader = t.leader

theorem SameList.refl (t : AvlTree K) : SameList t t := ⟨rfl, rfl, rfl, rfl, rfl, rfl, rfl⟩

theorem SameList.trans (h : SameList t t') (h' : SameList t' t'') : SameList t t'' where
  first := h'.first.trans h.first
  last := h'.last.trans h.last
  count := h'.count.trans h.count
  next := h'.next.trans h.next
  prev := h'.prev.trans h.prev
  key := h'.key.trans h.key
  leader := h'.leader.trans h.leader

theorem sameList_setParent (t : AvlTree K) (p : Ptr) (o : Option Ptr) : SameList t (t.setParent p o) :=
  ⟨rfl, rfl, rfl, rfl, rfl, rfl, rfl⟩

theorem sameList_setChild (t : AvlTree K) (p : Ptr) (s : Side) (o : Option Ptr) : SameList t (t.setChild p s o) :=
  ⟨rfl, rfl, rfl, rfl, rfl, rfl, rfl⟩

theorem sameList_setBalance (t : AvlTree K) (p : Ptr) (b : Int) : SameList t (t.setBalance p b) :=
  ⟨rfl, rfl, rfl, rfl, rfl, rfl, rfl⟩

theorem sameList_adopt (t : AvlTree K) (o o' : Option Ptr) : SameList t (t.adopt o o') := by
  cases o
  · exact .refl t
  · exact sameList_setParent ..

/-! ## Trees in memory -/

/-- The tree that a pointer leads to, with the parent of its root. -/
def Rep (t : AvlTree K) : Option Ptr → Option Ptr → BalTree Ptr → Prop
  | _, r, .nil => r = none
  | parent, r, .node b p child =>
    r = some p ∧ t.parent p = parent ∧ t.balance p = b ∧ ∀ s, Rep t (some p) (t.child p s) (child s)

/-- The node above a place. -/
def above : List (Frame Ptr) → Option Ptr
  | [] => none
  | f :: _ => some f.node

/-- What is around the place that a pointer is in. -/
def RepAround (t : AvlTree K) : List (Frame Ptr) → Option Ptr → Prop
  | [], r => t.root = r
  | f :: c, r => t.child f.node f.side = r ∧ t.parent f.node = above c ∧ t.balance f.node = f.bal ∧
      Rep t (some f.node) (t.child f.node f.side.flip) f.other ∧ RepAround t c (some f.node)

variable {s : Side} {b bp bq : Int} {p q : Ptr} {r r' parent parent' : Option Ptr} {A B C T : BalTree Ptr}
  {f : Frame Ptr} {c : List (Frame Ptr)}

theorem rep_onSide : Rep t parent r (BalTree.onSide s b p A B) ↔ r = some p ∧ t.parent p = parent ∧ t.balance p = b ∧
    Rep t (some p) (t.child p s) A ∧ Rep t (some p) (t.child p s.flip) B := by
  rw [BalTree.onSide, Rep, Side.forall_side s]
  simp

theorem rep_plug (c : List (Frame Ptr)) (T : BalTree Ptr) :
    Rep t none t.root (plug c T) ↔ ∃ r, RepAround t c r ∧ Rep t (above c) r T := by
  induction c generalizing T with
  | nil => simp [plug, RepAround, above]
  | cons f c ih =>
    rw [plug, ih]
    simp only [rep_onSide, RepAround, above]
    constructor
    · rintro ⟨r, hc, rfl, hparent, hbal, hT, hother⟩
      exact ⟨_, ⟨rfl, hparent, hbal, hother, hc⟩, hT⟩
    · rintro ⟨r, ⟨rfl, hparent, hbal, hother, hc⟩, hT⟩
      exact ⟨_, hc, rfl, hparent, hbal, hT, hother⟩

theorem Rep.root_mem (h : Rep t parent (some p) T) : p ∈ T.toList := by
  cases T with
  | nil => cases h
  | node b q child =>
    obtain ⟨hr, -⟩ := h
    cases hr
    simp [BalTree.toList]

/-- The fields that a tree is made of. -/
def SameNode (t t' : AvlTree K) (p : Ptr) : Prop :=
  t'.parent p = t.parent p ∧ t'.child p = t.child p ∧ t'.balance p = t.balance p

theorem Rep.congr (h : Rep t parent r T) (hsame : ∀ p ∈ T.toList, SameNode t t' p) : Rep t' parent r T := by
  induction T generalizing parent r with
  | nil => exact h
  | node b p child ih =>
    obtain ⟨hr, hparent, hbal, hchild⟩ := h
    obtain ⟨hp, hc, hb⟩ := hsame p (by simp [BalTree.toList])
    refine ⟨hr, hp.trans hparent, hb.trans hbal, fun s => ?_⟩
    rw [hc]
    refine ih s (hchild s) fun q hq => hsame q ?_
    cases s <;> simp [BalTree.toList, hq]

theorem RepAround.congr (h : RepAround t c r) (hroot : t'.root = t.root) (hsame : ∀ p ∈ around c, SameNode t t' p) :
    RepAround t' c r := by
  induction c generalizing r with
  | nil => exact hroot.trans h
  | cons f c ih =>
    obtain ⟨hr, hparent, hbal, hother, hc⟩ := h
    obtain ⟨hp, hchild, hb⟩ := hsame f.node (List.mem_cons_self ..)
    refine ⟨by rw [hchild, hr], hp.trans hparent, hb.trans hbal, ?_, ?_⟩
    · rw [hchild]
      exact hother.congr fun q hq => hsame q (List.mem_cons_of_mem _ (List.mem_append_left _ hq))
    · exact ih hc fun q hq => hsame q (List.mem_cons_of_mem _ (List.mem_append_right _ hq))

/-- The root of a tree gets another parent. -/
theorem Rep.adopt (h : Rep t parent r T) (hnodup : T.toList.Nodup) (parent' : Option Ptr) :
    Rep (t.adopt r parent') parent' r T := by
  cases T with
  | nil =>
    obtain rfl : r = none := h
    exact rfl
  | node b p child =>
    obtain ⟨rfl, hparent, hbal, hchild⟩ := h
    refine ⟨rfl, Function.update_self .., hbal, fun s => ?_⟩
    refine (hchild s).congr fun q hq => ⟨Function.update_of_ne ?_ .., rfl, rfl⟩
    rintro rfl
    rw [BalTree.toList, List.nodup_middle, List.nodup_cons, List.mem_append, not_or] at hnodup
    cases s
    · exact hnodup.1.1 hq
    · exact hnodup.1.2 hq

theorem adopt_parent_of_ne (h : r ≠ some p) : (t.adopt r parent').parent p = t.parent p := by
  cases r with
  | none => rfl
  | some q =>
    refine Function.update_of_ne ?_ ..
    rintro rfl
    exact h rfl

/-- Only what is in a tree is its root. -/
theorem Rep.root_ne (h : Rep t parent r T) (hp : p ∉ T.toList) : r ≠ some p := by
  rintro rfl
  exact hp h.root_mem

/-! ## The pointer of a place -/

/-- Set the pointer of a place. -/
def setPlace (t : AvlTree K) (c : List (Frame Ptr)) (r : Option Ptr) : AvlTree K :=
  match c with
  | [] => { t with root := r }
  | f :: _ => t.setChild f.node f.side r

theorem setPlace_parent (t : AvlTree K) (c : List (Frame Ptr)) (r : Option Ptr) : (setPlace t c r).parent =
    t.parent := by
  cases c <;> rfl

theorem setPlace_balance (t : AvlTree K) (c : List (Frame Ptr)) (r : Option Ptr) :
    (setPlace t c r).balance = t.balance := by
  cases c <;> rfl

theorem sameList_setPlace (t : AvlTree K) (c : List (Frame Ptr)) (r : Option Ptr) : SameList t (setPlace t c r) := by
  cases c
  · exact ⟨rfl, rfl, rfl, rfl, rfl, rfl, rfl⟩
  · exact sameList_setChild ..

theorem setPlace_child_of_not_mem (t : AvlTree K) (r : Option Ptr) (hp : p ∉ around c) :
    (setPlace t c r).child p = t.child p := by
  cases c with
  | nil => rfl
  | cons f c =>
    refine Function.update_of_ne ?_ ..
    rintro rfl
    exact hp (List.mem_cons_self ..)

theorem RepAround.setPlace (h : RepAround t c r) (hnodup : (around c).Nodup) (r' : Option Ptr) :
    RepAround (setPlace t c r') c r' := by
  cases c with
  | nil => exact rfl
  | cons f c =>
    obtain ⟨hr, hparent, hbal, hother, hc⟩ := h
    rw [around, List.nodup_cons, List.mem_append, not_or] at hnodup
    have hsame : ∀ p, p ≠ f.node → SameNode t (t.setChild f.node f.side r') p :=
      fun p hp => ⟨rfl, Function.update_of_ne hp .., rfl⟩
    refine ⟨by simp [Common.setPlace], hparent, hbal, ?_, ?_⟩
    · have hflip : (Common.setPlace t (f :: c) r').child f.node f.side.flip = t.child f.node f.side.flip := by
        simp [Common.setPlace]
      rw [hflip]
      refine hother.congr fun q hq => hsame q ?_
      rintro rfl
      exact hnodup.1.1 hq
    · refine hc.congr rfl fun q hq => hsame q ?_
      rintro rfl
      exact hnodup.1.2 hq

theorem RepAround.sideOf (h : RepAround t (f :: c) (some p)) (hp : p ∉ f.other.toList) : t.sideOf f.node p =
    f.side := by
  obtain ⟨hr, -, -, hother, -⟩ := h
  unfold AvlTree.sideOf
  cases hs : f.side with
  | left => rw [hs] at hr; rw [if_pos hr]
  | right =>
    rw [hs] at hother
    have hne : t.child f.node .left ≠ some p := hother.root_ne hp
    rw [if_neg hne]

theorem RepAround.replaceChild (h : RepAround t c (some p)) (hp : p ∉ around c) (r' : Option Ptr) :
    t.replaceChild (above c) p r' = Common.setPlace t c r' := by
  cases c with
  | nil => rfl
  | cons f c =>
    rw [around, List.mem_cons, List.mem_append, not_or, not_or] at hp
    change t.setChild f.node (t.sideOf f.node p) r' = t.setChild f.node f.side r'
    rw [h.sideOf hp.2.1]

theorem sameNode_setPlace (t : AvlTree K) (r : Option Ptr) (hp : p ∉ around c) : SameNode t (setPlace t c r) p :=
  ⟨by rw [setPlace_parent], setPlace_child_of_not_mem t r hp, by rw [setPlace_balance]⟩

theorem sameNode_adopt (h : r ≠ some p) : SameNode t (t.adopt r parent) p := ⟨adopt_parent_of_ne h, by simp, by simp⟩

theorem SameNode.trans (h : SameNode t t' p) (h' : SameNode t' t'' p) : SameNode t t'' p :=
  ⟨h'.1.trans h.1, h'.2.1.trans h.2.1, h'.2.2.trans h.2.2⟩

/-- The whole tree. -/
def IsTree (t : AvlTree K) (T : BalTree Ptr) : Prop := Rep t none t.root T

theorem isTree_plug {T : BalTree Ptr} : IsTree t (plug c T) ↔ ∃ r, RepAround t c r ∧ Rep t (above c) r T := rep_plug c T

theorem isTree_node (ht : IsTree t (plug c (.onSide s b p A B))) : t.parent p = above c ∧ t.balance p = b := by
  obtain ⟨r, -, hT⟩ := isTree_plug.1 ht
  obtain ⟨-, hp, hb, -⟩ := rep_onSide.1 hT
  exact ⟨hp, hb⟩

/-- A tree that is not in the rest of the whole gets the place. -/
theorem isTree_setPlace (hc : RepAround t c r) (hT : Rep t (above c) r' T) (hnodup : (plug c T).toList.Nodup) :
    IsTree (setPlace t c r') (plug c T) := by
  have hnodup := (perm_plug c T).nodup hnodup
  rw [List.nodup_append] at hnodup
  refine isTree_plug.2 ⟨r', hc.setPlace hnodup.2.1 r', hT.congr fun x hx => sameNode_setPlace t r' fun h => ?_⟩
  exact hnodup.2.2 x hx x h rfl

/-- The balance of a node is set. -/
theorem isTree_setBalance (ht : IsTree t (plug c (.onSide s b p A B)))
    (hnodup : (plug c (.onSide s b p A B)).toList.Nodup) (b' : Int) :
    IsTree (t.setBalance p b') (plug c (.onSide s b' p A B)) := by
  obtain ⟨r, hc, hT⟩ := isTree_plug.1 ht
  obtain ⟨rfl, hp, -, hA, hB⟩ := rep_onSide.1 hT
  have hnodup := (perm_plug_onSide c s b p A B).nodup hnodup
  rw [List.nodup_cons, List.mem_append, List.mem_append, not_or, not_or] at hnodup
  have hsame : ∀ {l : List Ptr}, p ∉ l → ∀ x ∈ l, SameNode t (t.setBalance p b') x := by
    intro l hpl x hx
    refine ⟨rfl, rfl, Function.update_of_ne ?_ ..⟩
    rintro rfl
    exact hpl hx
  refine isTree_plug.2 ⟨some p, hc.congr rfl (hsame hnodup.1.2.2),
    rep_onSide.2 ⟨rfl, hp, Function.update_self .., ?_, ?_⟩⟩
  · exact hA.congr (hsame hnodup.1.1)
  · exact hB.congr (hsame hnodup.1.2.1)

/-! ## Rotations -/

/-- A rotation of the tree in a place, the child `q` comes up. -/
theorem avlRotate_spec (ht : IsTree t (plug c (.onSide s bp p (.onSide s bq q A B) C)))
    (hnodup : (plug c (.onSide s bp p (.onSide s bq q A B) C)).toList.Nodup) : ∃ t',
    avlRotate s t p = some t' ∧ IsTree t' (plug c (.onSide s (raisedBalance s bq (loweredBalance s bp bq)) q A
        (.onSide s (loweredBalance s bp bq) p B C))) ∧ SameList t t' := by
  obtain ⟨_, hc, hT⟩ := isTree_plug.1 ht
  obtain ⟨rfl, hp, hbp, hq, hC⟩ := rep_onSide.1 hT
  obtain ⟨hup, hqp, hbq, hA, hB⟩ := rep_onSide.1 hq
  have hnodup : (p :: q :: (A.toList ++ (B.toList ++ (C.toList ++ around c)))).Nodup := by
    have hmid := @List.perm_middle _ p (q :: (A.toList ++ B.toList)) (C.toList ++ around c)
    have hperm := perm_plug_onSide (⟨s, bp, p, C⟩ :: c) s bq q A B
    rw [around, ← List.append_assoc] at hperm
    simpa using (hperm.trans hmid).nodup hnodup
  simp only [List.nodup_cons, List.mem_cons, List.mem_append, not_or, List.nodup_append] at hnodup
  obtain ⟨⟨hpq, hpA, hpB, hpC, hpc⟩, ⟨hqA, hqB, hqC, hqc⟩, hndA, ⟨hndB, ⟨hndC, hndc, hCc⟩, hBCc⟩, hABCc⟩ := hnodup
  -- the parents of the two nodes and the pointer of the place
  obtain ⟨t₁, ht₁⟩ : ∃ t₁, t₁ = (t.setParent q (above c)).setParent p (some q) := ⟨_, rfl⟩
  have hsame₁ : ∀ x, x ≠ p → x ≠ q → SameNode t t₁ x := by
    intro x hxp hxq
    rw [ht₁]
    exact ⟨by simp [hxp, hxq], rfl, rfl⟩
  have hne : ∀ {l : List Ptr}, p ∉ l → q ∉ l → ∀ x ∈ l, x ≠ p ∧ x ≠ q := by
    rintro l hpl hql x hx
    exact ⟨fun h => hpl (h ▸ hx), fun h => hql (h ▸ hx)⟩
  have hc₁ : RepAround t₁ c (some p) :=
    hc.congr (by rw [ht₁]; rfl) fun x hx => hsame₁ x (hne hpc hqc x hx).1 (hne hpc hqc x hx).2
  have hc₂ := hc₁.setPlace hndc (some q)
  obtain ⟨t₂, ht₂⟩ : ∃ t₂, t₂ = setPlace t₁ c (some q) := ⟨_, rfl⟩
  rw [← ht₂] at hc₂
  have hparent₂ : t₂.parent = Function.update (Function.update t.parent q (above c)) p (some q) := by
    rw [ht₂, setPlace_parent, ht₁]
    rfl
  have hbalance₂ : t₂.balance = t.balance := by
    rw [ht₂, setPlace_balance, ht₁]
    rfl
  have hchild₂ : ∀ x ∉ around c, t₂.child x = t.child x := by
    intro x hx
    rw [ht₂, setPlace_child_of_not_mem _ _ hx, ht₁]
    rfl
  -- the children of the two nodes
  obtain ⟨r, hr⟩ : ∃ r, r = t.child q s.flip := ⟨_, rfl⟩
  obtain ⟨t₄, ht₄⟩ : ∃ t₄, t₄ = (t₂.setChild p s r).setChild q s.flip (some p) := ⟨_, rfl⟩
  rw [← hr] at hB
  have hsame₄ : ∀ x, x ≠ p → x ≠ q → SameNode t₂ t₄ x := by
    intro x hxp hxq
    rw [ht₄]
    exact ⟨rfl, by simp [hxp, hxq], rfl⟩
  obtain ⟨t', ht'⟩ : ∃ t', t' = ((t₄.adopt r (some p)).setBalance p (loweredBalance s bp bq)).setBalance
      q (raisedBalance s bq (loweredBalance s bp bq)) := ⟨_, rfl⟩
  have hrun : avlRotate s t p = some t' := by
    have hplace : t₁.replaceChild (above c) p (some q) = t₂ := by
      rw [hc₁.replaceChild hpc, ht₂]
    have hmid : t₄.child p s = r := by
      rw [ht₄]
      simp [hpq]
    unfold avlRotate
    rw [hup, Option.bind_eq_bind, Option.bind_some, hp]
    dsimp only
    rw [← ht₁, hplace, hchild₂ q hqc, ← hr, ← ht₄, hmid]
    simp [ht', ht₄, hbalance₂, hbp, hbq, Ne.symm hpq]
  have hsame : ∀ x, x ≠ p → x ≠ q → SameNode t₄ (t₄.adopt r (some p)) x → SameNode t₂ t' x := by
    intro x hxp hxq hx
    refine (hsame₄ x hxp hxq).trans (hx.trans ?_)
    rw [ht']
    exact ⟨rfl, rfl, by simp [hxp, hxq]⟩
  have hadopt : ∀ x ∉ B.toList, SameNode t₄ (t₄.adopt r (some p)) x :=
    fun x hx => ⟨adopt_parent_of_ne (hB.root_ne hx), by simp, by simp⟩
  have hsame₂ : ∀ x ∉ around c, x ≠ p → x ≠ q → SameNode t t₂ x := by
    intro x hx hxp hxq
    exact ⟨by simp [hparent₂, hxp, hxq], hchild₂ x hx, by rw [hbalance₂]⟩
  refine ⟨t', hrun, isTree_plug.2 ⟨some q, ?_, ?_⟩, ?_⟩
  · refine hc₂.congr (by simp [ht', ht₄]) fun x hx => ?_
    obtain ⟨hxp, hxq⟩ := hne hpc hqc x hx
    exact hsame x hxp hxq (hadopt x fun hxB => hBCc x hxB x (Or.inr hx) rfl)
  · have hpside : t₄.child p s = r := by
      rw [ht₄]
      simp [hpq]
    refine rep_onSide.2 ⟨rfl, ?_, by simp [ht'], ?_, rep_onSide.2 ⟨?_, ?_, by simp [ht', hpq], ?_, ?_⟩⟩
    · simp [ht', ht₄, adopt_parent_of_ne (hB.root_ne hqB), hparent₂, Ne.symm hpq]
    · have hchild : t'.child q s = t.child q s := by simp [ht', ht₄, Ne.symm hpq, hchild₂ q hqc]
      rw [hchild]
      refine hA.congr fun x hx => ?_
      obtain ⟨hxp, hxq⟩ := hne hpA hqA x hx
      have hxc : x ∉ around c := fun h => hABCc x hx x (Or.inr (Or.inr h)) rfl
      have hxB : x ∉ B.toList := fun h => hABCc x hx x (Or.inl h) rfl
      exact (hsame₂ x hxc hxp hxq).trans (hsame x hxp hxq (hadopt x hxB))
    · simp [ht', ht₄]
    · simp [ht', ht₄, adopt_parent_of_ne (hB.root_ne hpB), hparent₂]
    · have hchild : t'.child p s = r := by simp [ht', hpside]
      have hB₄ : Rep t₄ (some q) r B := by
        refine hB.congr fun x hx => ?_
        obtain ⟨hxp, hxq⟩ := hne hpB hqB x hx
        exact (hsame₂ x (fun h => hBCc x hx x (Or.inr h) rfl) hxp hxq).trans (hsame₄ x hxp hxq)
      rw [hchild]
      refine (hB₄.adopt hndB (some p)).congr fun x hx => ?_
      obtain ⟨hxp, hxq⟩ := hne hpB hqB x hx
      rw [ht']
      exact ⟨rfl, rfl, by simp [hxp, hxq]⟩
    · have hchild : t'.child p s.flip = t.child p s.flip := by simp [ht', ht₄, hpq, hchild₂ p hpc]
      rw [hchild]
      refine hC.congr fun x hx => ?_
      obtain ⟨hxp, hxq⟩ := hne hpC hqC x hx
      have hxc : x ∉ around c := fun h => hCc x hx x h rfl
      have hxB : x ∉ B.toList := fun h => hBCc x h x (Or.inl hx) rfl
      exact (hsame₂ x hxc hxp hxq).trans (hsame x hxp hxq (hadopt x hxB))
  · have h₂ : SameList t t₂ := by
      rw [ht₂, ht₁]
      exact ((sameList_setParent ..).trans (sameList_setParent ..)).trans (sameList_setPlace ..)
    rw [ht', ht₄]
    exact h₂.trans ((sameList_setChild ..).trans ((sameList_setChild ..).trans ((sameList_adopt ..).trans
      ((sameList_setBalance ..).trans (sameList_setBalance ..)))))

end Olsrd.Common
