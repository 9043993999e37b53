/-
Deletion from an AVL tree: a duplicate leaves the list only, the next of the group takes the place of a leader, and a
leader without others leaves the tree.
-/
import Olsrd.Common.AvlGroups
import Olsrd.Common.AvlUnlink

namespace Olsrd.Common

open BalancedTree DoubleChain

variable {K : Type} {comp : K → K → Int} {t t' : AvlTree K} {T : BalTree Ptr} {node d p q : Ptr} {ds ds₁ ds₂ : List Ptr}
  {groups G₁ G₂ : List Group}

/-- What a deletion does to the groups. -/
inductive Deleted (node : Ptr) (groups : List Group) : List Group → Prop
  | dup {G₁ G₂ : List Group} {q : Ptr} {ds₁ ds₂ : List Ptr} : groups = G₁ ++ (q, ds₁ ++ node :: ds₂) :: G₂ →
    Deleted node groups (G₁ ++ (q, ds₁ ++ ds₂) :: G₂)
  | promoted {G₁ G₂ : List Group} {d : Ptr} {ds : List Ptr} : groups = G₁ ++ (node, d :: ds) :: G₂ →
    Deleted node groups (G₁ ++ (d, ds) :: G₂)
  | gone {G₁ G₂ : List Group} : groups = G₁ ++ (node, []) :: G₂ → Deleted node groups (G₁ ++ G₂)

/-- A duplicate is linked out. -/
theorem avlDelete_dup (h : Holds comp t T (G₁ ++ (q, ds₁ ++ node :: ds₂) :: G₂)) :
    ∃ t', avlDelete t node = some t' ∧ t'.key = t.key ∧ Holds comp t' T (G₁ ++ (q, ds₁ ++ ds₂) :: G₂) := by
  have hgroup : (q, ds₁ ++ node :: ds₂) ∈ G₁ ++ (q, ds₁ ++ node :: ds₂) :: G₂ := by simp
  have hdup : t.leader node = false := h.dups _ hgroup node (by simp)
  have hsame := sameTree_remove t node
  -- a group is the one that lost a node, or as before
  have hmem : ∀ {g : Group}, g ∈ G₁ ++ (q, ds₁ ++ ds₂) :: G₂ →
      g = (q, ds₁ ++ ds₂) ∨ g ∈ G₁ ++ (q, ds₁ ++ node :: ds₂) :: G₂ := by
    intro g hg
    simp only [List.mem_append, List.mem_cons] at hg ⊢
    tauto
  have hold : ∀ {d}, d ∈ ds₁ ++ ds₂ → d ∈ ds₁ ++ node :: ds₂ := by
    intro d hd
    simp only [List.mem_append, List.mem_cons] at hd ⊢
    tauto
  refine ⟨avlRemove t node, ?_, hsame.key, ?_⟩
  · unfold avlDelete
    rw [hdup]
    rfl
  constructor
  · exact h.tree.same hsame
  · exact h.balanced
  · rw [h.leaders]
    simp
  · have hshape : members (G₁ ++ (q, ds₁ ++ node :: ds₂) :: G₂) = (members G₁ ++ q :: ds₁) ++ node ::
        (ds₂ ++ members G₂) := by
      rw [members_append, members_cons]
      simp
    have hshape' : members (G₁ ++ (q, ds₁ ++ ds₂) :: G₂) = (members G₁ ++ q :: ds₁) ++ (ds₂ ++ members G₂) := by
      rw [members_append, members_cons]
      simp
    rw [hshape']
    exact isList_remove (hshape ▸ h.list)
  · have hordered := h.ordered
    rw [List.pairwise_append, List.pairwise_cons] at hordered ⊢
    rw [hsame.key]
    obtain ⟨hord₁, ⟨hbehind, hord₂⟩, hbefore⟩ := hordered
    refine ⟨hord₁, ⟨hbehind, hord₂⟩, fun g hg g' hg' => ?_⟩
    rcases List.mem_cons.1 hg' with rfl | hg'
    · exact hbefore g hg (q, ds₁ ++ node :: ds₂) (List.mem_cons_self ..)
    · exact hbefore g hg g' (List.mem_cons_of_mem _ hg')
  · intro g hg d hd
    rw [hsame.key]
    rcases hmem hg with rfl | hg
    · exact h.same _ hgroup d (hold hd)
    · exact h.same g hg d hd
  · intro g hg
    rw [hsame.leader]
    rcases hmem hg with rfl | hg
    · exact h.leader (q, ds₁ ++ node :: ds₂) hgroup
    · exact h.leader g hg
  · intro g hg d hd
    rw [hsame.leader]
    rcases hmem hg with rfl | hg
    · exact h.dups _ hgroup d (hold hd)
    · exact h.dups g hg d hd

/-- A leader without duplicates leaves the tree. -/
theorem avlDelete_gone (h : Holds comp t T (G₁ ++ (node, []) :: G₂)) :
    ∃ t' T', avlDelete t node = some t' ∧ t'.key = t.key ∧ Holds comp t' T' (G₁ ++ G₂) := by
  have hgroup : ((node, []) : Group) ∈ G₁ ++ (node, []) :: G₂ := by simp
  have hleader : t.leader node = true := h.leader _ hgroup
  have hleaders := h.leaders
  rw [List.map_append, List.map_cons] at hleaders
  have hcount : T.toList.length ≤ t.count := by
    rw [h.leaders, h.list.count]
    exact (leaders_sublist _).length_le
  obtain ⟨t₁, T', hrun, htree, hbal, horder, hlist⟩ := avlDeleteWorker_spec h.tree h.balanced h.nodup hleaders hcount
  have hin := h.list
  rw [members_append, members_cons, List.nil_append] at hin
  have hsame := sameTree_remove t₁ node
  have hkey : (avlRemove t₁ node).key = t.key := hsame.key.trans hlist.key
  have hlead : (avlRemove t₁ node).leader = t.leader := hsame.leader.trans hlist.leader
  have hmem : ∀ {g : Group}, g ∈ G₁ ++ G₂ → g ∈ G₁ ++ (node, []) :: G₂ := by
    intro g hg
    simp only [List.mem_append, List.mem_cons] at hg ⊢
    tauto
  refine ⟨avlRemove t₁ node, T', ?_, hkey, ?_⟩
  · have hnext : t.next node = (members G₂).head? := hin.next
    unfold avlDelete
    rw [if_pos hleader, hnext]
    cases G₂ with
    | nil =>
      change (avlDeleteWorker t node).bind _ = _
      rw [hrun]
      rfl
    | cons g G₂ =>
      have hg : t.leader g.1 = true := h.leader g (by simp)
      simp only [members_cons, List.head?_cons, if_pos hg, hrun, Option.bind_eq_bind, Option.bind_some]
      rfl
  constructor
  · exact htree.same hsame
  · exact hbal
  · rw [horder, List.map_append]
  · rw [members_append]
    exact isList_remove (hin.same hlist)
  · rw [hkey]
    have hordered := h.ordered
    rw [List.pairwise_append, List.pairwise_cons] at hordered
    rw [List.pairwise_append]
    obtain ⟨hord₁, ⟨-, hord₂⟩, hbefore⟩ := hordered
    exact ⟨hord₁, hord₂, fun g hg g' hg' => hbefore g hg g' (List.mem_cons_of_mem _ hg')⟩
  · intro g hg d hd
    rw [hkey]
    exact h.same g (hmem hg) d hd
  · intro g hg
    rw [hlead]
    exact h.leader g (hmem hg)
  · intro g hg d hd
    rw [hlead]
    exact h.dups g (hmem hg) d hd

/-- The next of a group takes the place of the leader. -/
theorem avlDelete_promoted (h : Holds comp t T (G₁ ++ (node, d :: ds) :: G₂)) (hcomp : KeyOrder comp) :
    ∃ t' T', avlDelete t node = some t' ∧ t'.key = t.key ∧ Holds comp t' T' (G₁ ++ (d, ds) :: G₂) := by
  have hgroup : (node, d :: ds) ∈ G₁ ++ (node, d :: ds) :: G₂ := by simp
  have hleader : t.leader node = true := h.leader _ hgroup
  have hdup : t.leader d = false := h.dups _ hgroup d (List.mem_cons_self ..)
  have hkeyd : comp (t.key d) (t.key node) = 0 := h.same _ hgroup d (List.mem_cons_self ..)
  have hin := h.list
  rw [members_append, members_cons] at hin
  have hnext : t.next node = some d := hin.next
  -- the node that is promoted is not in the tree
  have hd : d ∉ T.toList := by
    intro hmem
    rw [h.leaders, List.mem_map] at hmem
    obtain ⟨g, hg, rfl⟩ := hmem
    rw [h.leader g hg] at hdup
    cases hdup
  have hleaders := h.leaders
  rw [List.map_append, List.map_cons] at hleaders
  obtain ⟨t₁, ht₁⟩ : ∃ t₁, t₁ = { t with leader := Function.update t.leader d true } := ⟨_, rfl⟩
  have htree₁ : IsTree t₁ T := ht₁ ▸ isTree_setLeader h.tree _
  have hlist₁ : IsList t₁ (members G₁ ++ node :: (d :: ds ++ members G₂)) := ht₁ ▸ isList_setLeader hin _
  obtain ⟨t₂, T', hrun, htree, hbal, horder, hlist⟩ := takePlace_spec htree₁ h.balanced h.nodup hleaders hd
  obtain rfl := Option.some.inj hrun
  have hsame := sameTree_remove (takePlace t₁ node d) node
  have hkey : (avlRemove (takePlace t₁ node d) node).key = t.key := (hsame.key.trans hlist.key).trans (by rw [ht₁])
  have hlead : (avlRemove (takePlace t₁ node d) node).leader = Function.update t.leader d true :=
    (hsame.leader.trans hlist.leader).trans (by rw [ht₁])
  have hother : ∀ {p}, p ≠ d → (avlRemove (takePlace t₁ node d) node).leader p = t.leader p := by
    intro p hp
    rw [hlead, Function.update_of_ne hp]
  have hlist₂ := isList_remove (hlist₁.same hlist)
  have hnodup : (members (G₁ ++ (d, ds) :: G₂)).Nodup := by
    rw [members_append, members_cons]
    exact hlist₂.nodup
  have hmem : ∀ {g : Group}, g ∈ G₁ ++ (d, ds) :: G₂ → g = (d, ds) ∨ g ∈ G₁ ++ (node, d :: ds) :: G₂ := by
    intro g hg
    simp only [List.mem_append, List.mem_cons] at hg ⊢
    tauto
  refine ⟨avlRemove (takePlace t₁ node d) node, T', ?_, hkey, ?_⟩
  · unfold avlDelete
    rw [if_pos hleader, hnext]
    simp only [hdup, ← ht₁]
    rfl
  constructor
  · exact htree.same hsame
  · exact hbal
  · rw [horder, List.map_append, List.map_cons]
  · rw [members_append, members_cons]
    exact hlist₂
  · rw [hkey]
    have hordered := h.ordered
    rw [List.pairwise_append, List.pairwise_cons] at hordered ⊢
    obtain ⟨hord₁, ⟨hbehind, hord₂⟩, hbefore⟩ := hordered
    refine ⟨hord₁, ⟨fun g hg => ?_, hord₂⟩, fun g hg g' hg' => ?_⟩
    · exact hcomp.lt_of_le_of_lt (le_of_eq hkeyd) (hbehind g hg)
    · rcases List.mem_cons.1 hg' with rfl | hg'
      · exact hcomp.lt_of_lt_of_le (hbefore g hg _ (List.mem_cons_self ..)) (le_of_eq (hcomp.symm hkeyd))
      · exact hbefore g hg g' (List.mem_cons_of_mem _ hg')
  · intro g hg d' hd'
    rw [hkey]
    rcases hmem hg with rfl | hg
    · have hnode := h.same _ hgroup d' (List.mem_cons_of_mem _ hd')
      exact hcomp.eq_trans hnode (hcomp.symm hkeyd)
    · exact h.same g hg d' hd'
  · intro g hg
    rcases hmem hg with rfl | hg
    · rw [hlead, Function.update_self]
    · have hne : g.1 ≠ d := fun heq => by
        rw [← heq, h.leader g hg] at hdup
        cases hdup
      rw [hother hne]
      exact h.leader g hg
  · intro g hg d' hd'
    have hne : d' ≠ d := by
      rintro rfl
      exact leader_not_dup hnodup hg hd'
    rw [hother hne]
    rcases hmem hg with rfl | hg
    · exact h.dups _ hgroup d' (List.mem_cons_of_mem _ hd')
    · exact h.dups g hg d' hd'

/-- `avl_delete` -/
theorem avlDelete_spec (hcomp : KeyOrder comp) (h : Holds comp t T groups) (hmember : node ∈ members groups) :
    ∃ t' T' groups', avlDelete t node = some t' ∧ t'.key = t.key ∧ Holds comp t' T' groups' ∧
      Deleted node groups groups' := by
  obtain ⟨⟨q, ds⟩, hg, hnode⟩ := mem_members.1 hmember
  obtain ⟨G₁, G₂, rfl⟩ := List.append_of_mem hg
  rcases hnode with rfl | hdup
  · cases ds with
    | nil =>
      obtain ⟨t', T', hrun, hkey, hholds⟩ := avlDelete_gone h
      exact ⟨t', T', _, hrun, hkey, hholds, .gone rfl⟩
    | cons d ds =>
      obtain ⟨t', T', hrun, hkey, hholds⟩ := avlDelete_promoted h hcomp
      exact ⟨t', T', _, hrun, hkey, hholds, .promoted rfl⟩
  · obtain ⟨ds₁, ds₂, rfl⟩ := List.append_of_mem hdup
    obtain ⟨t', hrun, hkey, hholds⟩ := avlDelete_dup h
    exact ⟨t', T, _, hrun, hkey, hholds, .dup rfl⟩

end Olsrd.Common
