/-
The groups of an AVL tree: members with one key, the first of which is the leader and in the tree, and the others behind
it in the list. What an insertion does to the groups.
-/
import Olsrd.Common.AvlSearch

namespace Olsrd.Common

open BalancedTree DoubleChain

variable {K : Type} {comp : K → K → Int} {t t' t'' : AvlTree K} {T : BalTree Ptr} {new node p q : Ptr} {k : K}

/-- A leader and its duplicates -/
abbrev Group := Ptr × List Ptr

def members (groups : List Group) : List Ptr := groups.flatMap fun g => g.1 :: g.2

variable {groups G₁ G₂ : List Group}

/-- The tree holds these groups. -/
structure Holds (comp : K → K → Int) (t : AvlTree K) (T : BalTree Ptr) (groups : List Group) : Prop where
  tree : IsTree t T
  balanced : T.Balanced
  leaders : T.toList = groups.map Prod.fst
  list : IsList t (members groups)
  ordered : groups.Pairwise fun g h => comp (t.key g.1) (t.key h.1) < 0
  same : ∀ g ∈ groups, ∀ d ∈ g.2, comp (t.key d) (t.key g.1) = 0
  leader : ∀ g ∈ groups, t.leader g.1 = true
  dups : ∀ g ∈ groups, ∀ d ∈ g.2, t.leader d = false

/-- All fields of a node -/
structure SameMember (t t' : AvlTree K) (p : Ptr) : Prop where
  node : SameNode t t' p
  next : t'.next p = t.next p
  prev : t'.prev p = t.prev p
  key : t'.key p = t.key p
  leader : t'.leader p = t.leader p

/-- The tree and these nodes are as they were. -/
structure Unchanged (t t' : AvlTree K) (l : List Ptr) : Prop where
  root : t'.root = t.root
  first : t'.first = t.first
  last : t'.last = t.last
  count : t'.count = t.count
  member : ∀ p ∈ l, SameMember t t' p

instance [DecidableEq K] (t t' : AvlTree K) (p : Ptr) : Decidable (SameMember t t' p) :=
  decidable_of_iff ((t'.parent p = t.parent p ∧
    (t'.child p .left = t.child p .left ∧ t'.child p .right = t.child p .right) ∧
      t'.balance p = t.balance p) ∧ t'.next p = t.next p ∧ t'.prev p = t.prev p ∧ t'.key p = t.key p ∧
        t'.leader p = t.leader p)
    ⟨fun ⟨⟨h₁, h₂, h₃⟩, h₄, h₅, h₆, h₇⟩ => ⟨⟨h₁, funext ((Side.forall_side .left).2 h₂), h₃⟩, h₄, h₅, h₆, h₇⟩,
      fun ⟨⟨h₁, h₂, h₃⟩, h₄, h₅, h₆, h₇⟩ => ⟨⟨h₁, ⟨congrFun h₂ _, congrFun h₂ _⟩, h₃⟩, h₄, h₅, h₆, h₇⟩⟩

instance [DecidableEq K] (t t' : AvlTree K) (l : List Ptr) : Decidable (Unchanged t t' l) :=
  decidable_of_iff (t'.root = t.root ∧ t'.first = t.first ∧ t'.last = t.last ∧ t'.count = t.count ∧
      ∀ p ∈ l, SameMember t t' p)
    ⟨fun ⟨h₁, h₂, h₃, h₄, h₅⟩ => ⟨h₁, h₂, h₃, h₄, h₅⟩, fun h => ⟨h.root, h.first, h.last, h.count, h.member⟩⟩

theorem members_append (G₁ G₂ : List Group) : members (G₁ ++ G₂) = members G₁ ++ members G₂ := List.flatMap_append

theorem members_cons (g : Group) (G : List Group) : members (g :: G) = g.1 :: (g.2 ++ members G) := rfl

theorem leaders_sublist (groups : List Group) : (groups.map Prod.fst).Sublist (members groups) := by
  induction groups with
  | nil => exact .slnil
  | cons g groups ih =>
    rw [List.map_cons, members_cons]
    exact (ih.trans (List.sublist_append_right ..)).cons_cons _

theorem mem_members : p ∈ members groups ↔ ∃ g ∈ groups, p = g.1 ∨ p ∈ g.2 := by
  simp only [members, List.mem_flatMap, List.mem_cons]

theorem leader_mem_members {g : Group} (hg : g ∈ groups) : g.1 ∈ members groups := mem_members.2 ⟨g, hg, .inl rfl⟩

theorem dup_mem_members {g : Group} (hg : g ∈ groups) (hp : p ∈ g.2) : p ∈ members groups :=
  mem_members.2 ⟨g, hg, .inr hp⟩

/-- A leader is a duplicate of no group. -/
theorem leader_not_dup {ds : List Ptr} (hnodup : (members (G₁ ++ (q, ds) :: G₂)).Nodup) {g : Group}
    (hg : g ∈ G₁ ++ (q, ds) :: G₂) : q ∉ g.2 := by
  intro hq
  rw [members_append, members_cons, List.nodup_middle, List.nodup_cons] at hnodup
  refine hnodup.1 ?_
  rw [List.mem_append, List.mem_append]
  rcases List.mem_append.1 hg with hg | hg
  · exact .inl (dup_mem_members hg hq)
  rcases List.mem_cons.1 hg with rfl | hg
  · exact .inr (.inl hq)
  · exact .inr (.inr (dup_mem_members hg hq))

theorem Holds.nodup (h : Holds comp t T groups) : T.toList.Nodup := by
  rw [h.leaders]
  exact (leaders_sublist groups).nodup h.list.nodup

theorem Holds.mem_tree (h : Holds comp t T groups) (hp : p ∈ T.toList) : p ∈ members groups :=
  (leaders_sublist groups).subset (h.leaders ▸ hp)

theorem Holds.unchanged (h : Holds comp t T groups) (hsame : Unchanged t t' (members groups)) :
    Holds comp t' T groups where
  tree := by
    have htree := h.tree
    unfold IsTree at htree ⊢
    rw [hsame.root]
    exact htree.congr fun p hp => (hsame.member p (h.mem_tree hp)).node
  balanced := h.balanced
  leaders := h.leaders
  list :=
    { first := hsame.first.trans h.list.first
      last := hsame.last.trans h.list.last
      linked := h.list.linked.congr fun p hp => ⟨(hsame.member p hp).next, (hsame.member p hp).prev⟩
      nodup := h.list.nodup
      count := hsame.count.trans h.list.count }
  ordered := by
    refine h.ordered.imp_of_mem fun hg hg' hlt => ?_
    rw [(hsame.member _ (leader_mem_members hg)).key, (hsame.member _ (leader_mem_members hg')).key]
    exact hlt
  same g hg d hd := by
    rw [(hsame.member _ (dup_mem_members hg hd)).key, (hsame.member _ (leader_mem_members hg)).key]
    exact h.same g hg d hd
  leader g hg := (hsame.member _ (leader_mem_members hg)).leader.trans (h.leader g hg)
  dups g hg d hd := (hsame.member _ (dup_mem_members hg hd)).leader.trans (h.dups g hg d hd)

/-- The fields of another node do not matter. -/
theorem unchanged_newNode {l : List Ptr} (hnew : new ∉ l) : Unchanged t (newNode t new) l where
  root := rfl
  first := rfl
  last := rfl
  count := rfl
  member p hp := by
    have hne : p ≠ new := fun h => hnew (h ▸ hp)
    exact ⟨⟨Function.update_of_ne hne .., Function.update_of_ne hne .., Function.update_of_ne hne ..⟩,
      Function.update_of_ne hne .., Function.update_of_ne hne .., rfl, Function.update_of_ne hne ..⟩

/-- The flags of leaders are no part of the tree and of the list. -/
theorem isTree_setLeader (h : IsTree t T) (leader : Ptr → Bool) : IsTree { t with leader := leader } T :=
  Rep.congr h fun _ _ => ⟨rfl, rfl, rfl⟩

theorem isList_setLeader {l : List Ptr} (h : IsList t l) (leader : Ptr → Bool) : IsList { t with leader := leader } l :=
  ⟨h.first, h.last, h.linked, h.nodup, h.count⟩

/-- A group is between those before and those behind it, and so is its leader in the tree. -/
theorem Holds.split (h : Holds comp t T groups) {l₁ l₂ : List Ptr} (hT : T.toList = l₁ ++ q :: l₂) : ∃ G₁ ds G₂,
    groups = G₁ ++ (q, ds) :: G₂ ∧ l₁ = G₁.map Prod.fst ∧ l₂ = G₂.map Prod.fst := by
  rw [h.leaders] at hT
  obtain ⟨G₁, G, rfl, rfl, hG⟩ := List.map_eq_append_iff.1 hT
  obtain ⟨⟨q', ds⟩, G₂, rfl, rfl, rfl⟩ := List.map_eq_cons_iff.1 hG
  exact ⟨G₁, ds, G₂, rfl, rfl, rfl⟩

/-- A tree without a root holds nothing. -/
theorem Holds.eq_nil (h : Holds comp t T groups) (hroot : t.root = none) : T = .nil ∧ groups = [] := by
  have hnil : T = .nil := by
    have htree := h.tree
    rw [IsTree, hroot] at htree
    cases T with
    | nil => rfl
    | node b p child => cases htree.1
  have hleaders := h.leaders
  rw [hnil] at hleaders
  exact ⟨hnil, List.map_eq_nil_iff.1 hleaders.symm⟩

theorem Holds.height_le (h : Holds comp t T groups) : T.height ≤ t.count + 1 := by
  have hlength := (leaders_sublist groups).length_le
  rw [← h.leaders, ← h.list.count] at hlength
  have hheight := height_le_length T
  omega

/-- The loop for the last node of a group. -/
theorem Holds.lastOfKey {ds : List Ptr} (h : Holds comp t T (G₁ ++ (q, ds) :: G₂)) :
    ∃ l x, q :: ds = l ++ [x] ∧ lastOfKey t t.count q = some x := by
  have hlinked := h.list.linked
  rw [members_append, members_cons, linked_append, ← List.cons_append, linked_append] at hlinked
  refine lastOfKey_spec hlinked.2.1 (h.dups (q, ds) (by simp)) (fun x hx => ?_) ?_
  · cases G₂ with
    | nil => cases hx
    | cons g G₂ =>
      obtain rfl := Option.some.inj hx
      exact h.leader g (by simp)
  · rw [h.list.count, members_append, members_cons]
    simp only [List.length_append, List.length_cons]
    omega

/-- The search ends at the leader with the key, or at one that has no child on the side of the key, with which the new
key has its place. -/
theorem Holds.search (hcomp : KeyOrder comp) (h : Holds comp t T groups) (hroot : t.root = some p) (k : K) :
    ∃ G₁ ds G₂ c b child q, groups = G₁ ++ (q, ds) :: G₂ ∧ T = plug c (.node b q child) ∧
      avlFindRec comp t k t.count p = some q ∧ (comp k (t.key q) = 0 ∨
        (comp k (t.key q) < 0 ∧ child .left = .nil ∧ ∀ g ∈ G₁, comp (t.key g.1) k < 0) ∨
        (0 < comp k (t.key q) ∧ child .right = .nil ∧ ∀ g ∈ G₂, comp k (t.key g.1) < 0)) := by
  have htree : Rep t none (some p) T := hroot ▸ h.tree
  have hsorted : T.toList.Pairwise fun a b => comp (t.key a) (t.key b) < 0 := by
    rw [h.leaders, List.pairwise_map]
    exact h.ordered
  obtain ⟨q, c, b, child, hrun, hT, hbefore, hbehind, hend⟩ := avlFindRec_spec hcomp k htree hsorted h.height_le
  have hmembers : T.toList = (before c ++ (child .left).toList) ++ q :: ((child .right).toList ++ behind c) := by
    rw [hT, toList_plug, BalTree.toList]
    simp
  obtain ⟨G₁, ds, G₂, hgroups, hG₁, hG₂⟩ := h.split hmembers
  refine ⟨G₁, ds, G₂, c, b, child, q, hgroups, hT, hrun, ?_⟩
  by_cases hzero : comp k (t.key q) = 0
  · exact .inl hzero
  have hnil := hend.resolve_left hzero
  by_cases hlt : comp k (t.key q) < 0
  · rw [if_pos hlt] at hnil
    refine .inr (.inl ⟨hlt, hnil, fun g hg => hbefore g.1 ?_⟩)
    rw [hnil, BalTree.toList, List.append_nil] at hG₁
    exact hG₁ ▸ List.mem_map_of_mem hg
  · rw [if_neg hlt] at hnil
    refine .inr (.inr ⟨by omega, hnil, fun g hg => hbehind g.1 ?_⟩)
    rw [hnil, BalTree.toList, List.nil_append] at hG₂
    exact hG₂ ▸ List.mem_map_of_mem hg

end Olsrd.Common
