/-
Insertion into an AVL tree: the new node becomes a leaf next to the node that the search ended at, or a duplicate behind
the others with its key, or it is refused.
-/
import Olsrd.Common.AvlGroups

namespace Olsrd.Common

open BalancedTree DoubleChain

variable {K : Type} {comp : K → K → Int} {t t' : AvlTree K} {T far : BalTree Ptr} {new p q : Ptr} {s : Side} {b : Int}
  {c : List (Frame Ptr)} {groups G₁ G₂ : List Group}

/-! ## A leaf -/

def leaf (new : Ptr) : BalTree Ptr := .node 0 new fun _ => .nil

theorem balanced_leaf (new : Ptr) : (leaf new).Balanced := ⟨rfl, by decide, by decide, fun _ => trivial⟩

/-- A node whose fields are set as for a leaf is put at an empty place. -/
theorem isTree_attach (ht : IsTree t (plug c (.onSide s b q .nil far)))
    (hnodup : (plug c (.onSide s b q .nil far)).toList.Nodup)
    (hnew : new ∉ (plug c (.onSide s b q .nil far)).toList) (hchild : ∀ d, t.child new d = none)
    (hbal : t.balance new = 0) :
    IsTree ((t.setParent new (some q)).setChild q s (some new)) (plug c (.onSide s b q (leaf new) far)) := by
  have ht₁ : IsTree (t.setParent new (some q)) (plug (⟨s, b, q, far⟩ :: c) .nil) := by
    refine Rep.congr ht fun x hx => ⟨Function.update_of_ne ?_ .., rfl, rfl⟩
    rintro rfl
    exact hnew hx
  obtain ⟨r, hc, -⟩ := isTree_plug.1 ht₁
  have hleaf : Rep (t.setParent new (some q)) (some q) (some new) (leaf new) :=
    ⟨rfl, Function.update_self .., hbal, hchild⟩
  refine isTree_setPlace hc hleaf ((perm_plug _ _).symm.nodup ?_)
  have haround := perm_plug (⟨s, b, q, far⟩ :: c) .nil
  refine List.nodup_cons.2 ⟨fun h => hnew (haround.mem_iff.2 h), haround.nodup hnodup⟩

/-- What `avl_insert` does to the tree when the new node is in the list and comes to a side of `node`. -/
def attach (t : AvlTree K) (node new : Ptr) (s : Side) : Option (AvlTree K) :=
  if t.balance node = 0 then postInsert t.count
    (((t.setBalance node s.sgn).setParent new (some node)).setChild node s (some new)) node
  else some (((t.setBalance node 0).setParent new (some node)).setChild node s (some new))

theorem attach_spec (ht : IsTree t (plug c (.onSide s b q .nil far)))
    (hnodup : (plug c (.onSide s b q .nil far)).toList.Nodup)
    (hbal : (plug c (.onSide s b q .nil far)).Balanced) (hnew : new ∉ (plug c (.onSide s b q .nil far)).toList)
    (hchild : ∀ d, t.child new d = none) (hzero : t.balance new = 0) (hn : c.length ≤ t.count) :
    Restored t (plug c (.onSide s b q (leaf new) far)).toList (attach t q new s) := by
  obtain ⟨hq, hc⟩ := balanced_plug.1 hbal
  obtain ⟨hb, hlow, hhigh, -, hfar⟩ := BalTree.balanced_onSide.1 hq
  rw [BalTree.height_onSide] at hc
  have hqnew : new ≠ q := by
    rintro rfl
    exact hnew ((perm_plug_onSide ..).mem_iff.2 (List.mem_cons_self ..))
  -- with any balance in the node above
  have htree : ∀ b', IsTree (((t.setBalance q b').setParent new (some q)).setChild q s (some new))
      (plug c (.onSide s b' q (leaf new) far)) := by
    intro b'
    have horder : (plug c (.onSide s b' q .nil far)).toList = (plug c (.onSide s b q .nil far)).toList :=
      toList_plug_congr (by rw [BalTree.toList_onSide, BalTree.toList_onSide])
    refine isTree_attach (isTree_setBalance ht hnodup b') (horder ▸ hnodup) (horder ▸ hnew) hchild ?_
    rw [setBalance_balance, Function.update_of_ne hqnew, hzero]
  have hsame : ∀ b', SameList t (((t.setBalance q b').setParent new (some q)).setChild q s (some new)) := fun b' =>
    (sameList_setBalance ..).trans ((sameList_setParent ..).trans (sameList_setChild ..))
  have horder : ∀ b', (plug c (.onSide s b' q (leaf new) far)).toList =
    (plug c (.onSide s b q (leaf new) far)).toList :=
    fun b' => toList_plug_congr (by rw [BalTree.toList_onSide, BalTree.toList_onSide])
  unfold attach
  rw [(isTree_node ht).2]
  by_cases hb0 : b = 0
  · -- the node had no child, and its subtree becomes higher
    rw [if_pos hb0]
    have hfar0 : far.height = 0 := by
      rw [hb0, BalTree.height] at hb
      omega
    have hnodup' : (plug c (.onSide s s.sgn q (leaf new) far)).toList.Nodup := by
      refine (perm_plug_onSide ..).symm.nodup ?_
      have hnodup := (perm_plug_onSide c s b q .nil far).nodup hnodup
      have hnew' : new ∉ q :: (far.toList ++ around c) :=
        fun h => hnew ((perm_plug_onSide c s b q .nil far).mem_iff.2 h)
      simp only [List.nodup_cons, List.mem_cons, not_or] at hnodup hnew' ⊢
      change q ∉ new :: (far.toList ++ around c) ∧ (new :: (far.toList ++ around c)).Nodup
      rw [List.mem_cons, not_or, List.nodup_cons]
      exact ⟨⟨Ne.symm hqnew, hnodup.1⟩, hnew'.2, hnodup.2⟩
    have hbalanced : (BalTree.onSide s s.sgn q (leaf new) far).Balanced := by
      rw [BalTree.balanced_onSide, hfar0]
      exact ⟨by cases s <;> rfl, by cases s <;> decide, by cases s <;> decide, balanced_leaf new, hfar⟩
    rw [← horder s.sgn]
    refine (postInsert_spec (h := 1) (htree s.sgn) hnodup' hbalanced ?_ ?_ ?_ ?_).after (hsame s.sgn)
    · cases s <;> decide
    · change (BalTree.onSide s s.sgn q (leaf new) far).height = 2
      rw [BalTree.height_onSide, hfar0]
      rfl
    · rw [hfar0] at hc
      exact hc
    · exact hn
  · -- the other side was higher, and both are equal now
    rw [if_neg hb0]
    have hfar1 : far.height = 1 := by
      rw [BalTree.height] at hb
      cases s <;> simp only [Side.sgn] at hb <;> omega
    refine ⟨_, _, rfl, htree 0, ?_, horder 0, hsame 0⟩
    rw [balanced_plug, BalTree.balanced_onSide, BalTree.height_onSide]
    rw [hfar1] at hc ⊢
    exact ⟨⟨by simp [leaf, BalTree.height], by decide, by decide, balanced_leaf new, hfar⟩, hc⟩

/-! ## The groups -/

/-- A new group has its place in the order of the others. -/
theorem holds_insertGroup {T' : BalTree Ptr} (h : Holds comp t T (G₁ ++ G₂)) (htree : IsTree t' T') (hbal : T'.Balanced)
    (horder : T'.toList = G₁.map Prod.fst ++ new :: G₂.map Prod.fst)
    (hlist : IsList t' (members G₁ ++ new :: members G₂))
    (hkey : t'.key = t.key) (hleader : t'.leader = t.leader) (hnew : t.leader new = true)
    (hlow : ∀ g ∈ G₁, comp (t.key g.1) (t.key new) < 0) (hhigh : ∀ g ∈ G₂, comp (t.key new) (t.key g.1) < 0) :
    Holds comp t' T' (G₁ ++ (new, []) :: G₂) where
  tree := htree
  balanced := hbal
  leaders := by rw [horder, List.map_append, List.map_cons]
  list := by
    rw [members_append, members_cons]
    exact hlist
  ordered := by
    rw [hkey]
    obtain ⟨h₁, h₂, h₁₂⟩ := List.pairwise_append.1 h.ordered
    refine List.pairwise_append.2 ⟨h₁, List.pairwise_cons.2 ⟨hhigh, h₂⟩, fun g hg g' hg' => ?_⟩
    rcases List.mem_cons.1 hg' with rfl | hg'
    · exact hlow g hg
    · exact h₁₂ g hg g' hg'
  same g hg d hd := by
    rw [hkey]
    rcases List.mem_append.1 hg with hg | hg
    · exact h.same g (List.mem_append_left _ hg) d hd
    rcases List.mem_cons.1 hg with rfl | hg
    · cases hd
    · exact h.same g (List.mem_append_right _ hg) d hd
  leader g hg := by
    rw [hleader]
    rcases List.mem_append.1 hg with hg | hg
    · exact h.leader g (List.mem_append_left _ hg)
    rcases List.mem_cons.1 hg with rfl | hg
    · exact hnew
    · exact h.leader g (List.mem_append_right _ hg)
  dups g hg d hd := by
    rw [hleader]
    rcases List.mem_append.1 hg with hg | hg
    · exact h.dups g (List.mem_append_left _ hg) d hd
    rcases List.mem_cons.1 hg with rfl | hg
    · cases hd
    · exact h.dups g (List.mem_append_right _ hg) d hd

/-- The list with the new node before or behind those of a group. -/
def linkIn (t : AvlTree K) (node last new : Ptr) : Side → AvlTree K
  | .left => avlInsertBefore t node new
  | .right => avlInsertAfter t last new

theorem sameTree_linkIn (t : AvlTree K) (node last new : Ptr) (s : Side) : SameTree t (linkIn t node last new s) := by
  cases s
  · exact sameTree_insertBefore t node new
  · exact sameTree_insertAfter t last new

/-- With a key that is not there, the new node goes to the side of the key that is free. -/
theorem avlInsert_eq_attach {root last : Ptr} (dup : Bool) (hroot : t.root = some root)
    (hfind : avlFindRec comp (newNode t new) (t.key new) t.count root = some q)
    (hlast : lastOfKey (newNode t new) t.count q = some last)
    (hs : s = .left ∧ comp (t.key new) (t.key q) < 0 ∨ s = .right ∧ 0 < comp (t.key new) (t.key q))
    (hbal : (newNode t new).balance q = 0 ∨ (newNode t new).balance q = -s.sgn) :
    avlInsert comp t new dup = (attach (linkIn (newNode t new) q last new s) q new s).map (·, 0) := by
  have hbalance : (linkIn (newNode t new) q last new s).balance = (newNode t new).balance :=
    (sameTree_linkIn ..).balance
  unfold avlInsert attach
  rw [hbalance]
  simp only [show (newNode t new).root = some root from hroot, show (newNode t new).key = t.key from rfl,
    show (newNode t new).count = t.count from rfl, hfind, hlast, Option.bind_eq_bind, Option.bind_some]
  rcases hs with ⟨rfl, hlt⟩ | ⟨rfl, hgt⟩
  · rw [if_neg (ne_of_lt hlt)]
    rcases hbal with hzero | hone
    · rw [if_neg (by omega), if_neg (by omega), if_pos hlt, if_pos hzero]
      exact (Option.map_eq_bind ..).symm
    · have hone : (newNode t new).balance q = 1 := hone
      rw [if_pos hone, if_neg (by omega)]
      rfl
  · rw [if_neg (ne_of_gt hgt)]
    rcases hbal with hzero | hone
    · rw [if_neg (by omega), if_neg (by omega), if_neg (not_lt_of_gt hgt), if_pos hzero]
      exact (Option.map_eq_bind ..).symm
    · have hone : (newNode t new).balance q = -1 := hone
      rw [if_neg (by omega), if_pos hone, if_neg (by omega)]
      rfl

/-- A leaf comes right before the node above it, or right behind. -/
theorem toList_leaf {child : Side → BalTree Ptr} {l₁ l₂ : List Ptr} (hnodup : (plug c (.node b q child)).toList.Nodup)
    (hT : (plug c (.node b q child)).toList = l₁ ++ q :: l₂) (hnil : child s = .nil) :
    (plug c (.onSide s b q (leaf new) (child s.flip))).toList =
      match s with
      | .left => l₁ ++ new :: q :: l₂
      | .right => l₁ ++ q :: new :: l₂ := by
  obtain ⟨rfl, rfl⟩ := split_plug hnodup hT
  rw [toList_plug, BalTree.toList_onSide]
  cases s <;> simp [hnil, Side.join, Side.flip, leaf, BalTree.toList]

/-- A node with a key that is not there becomes a group of its own. -/
theorem avlInsert_absent {root : Ptr} (hcomp : KeyOrder comp) (h : Holds comp t T groups)
    (hnew : new ∉ members groups) (dup : Bool)
    (hroot : t.root = some root) (habsent : ∀ g ∈ groups, comp (t.key new) (t.key g.1) ≠ 0) : ∃ t' T' G₁ G₂,
      avlInsert comp t new dup = some (t', 0) ∧ groups = G₁ ++ G₂ ∧ t'.key = t.key ∧
        Holds comp t' T' (G₁ ++ (new, []) :: G₂) := by
  have h₁ := h.unchanged (unchanged_newNode hnew)
  obtain ⟨G₁, ds, G₂, c, b, child, q, rfl, rfl, hfind, hplace⟩ := h₁.search hcomp hroot (t.key new)
  obtain ⟨l, last, hl, hlast⟩ := h₁.lastOfKey
  have hordered := h₁.ordered
  rw [List.pairwise_append, List.pairwise_cons] at hordered
  obtain ⟨-, ⟨hq₂, -⟩, hq₁⟩ := hordered
  have hdiff : comp (t.key new) (t.key q) ≠ 0 := habsent (q, ds) (by simp)
  have hleaders := h₁.leaders
  rw [List.map_append, List.map_cons] at hleaders
  have hin := h₁.list
  -- the side that is free, with the groups before and behind the new one
  obtain ⟨s, H₁, H₂, hs, hnil, hgroups, hlow, hhigh, hlist, horder⟩ : ∃ s H₁ H₂,
      (s = .left ∧ comp (t.key new) (t.key q) < 0 ∨ s = .right ∧ 0 < comp (t.key new) (t.key q)) ∧ child s = .nil ∧
      G₁ ++ (q, ds) :: G₂ = H₁ ++ H₂ ∧ (∀ g ∈ H₁, comp (t.key g.1) (t.key new) < 0) ∧
      (∀ g ∈ H₂, comp (t.key new) (t.key g.1) < 0) ∧
      IsList (linkIn (newNode t new) q last new s) (members H₁ ++ new :: members H₂) ∧
      (plug c (.onSide s b q (leaf new) (child s.flip))).toList = H₁.map Prod.fst ++ new :: H₂.map Prod.fst := by
    rcases hplace with hzero | ⟨hlt, hnil, hlow⟩ | ⟨hgt, hnil, hhigh⟩
    · exact absurd hzero hdiff
    · refine ⟨.left, G₁, (q, ds) :: G₂, .inl ⟨rfl, hlt⟩, hnil, rfl, hlow, fun g hg => ?_, ?_, ?_⟩
      · rcases List.mem_cons.1 hg with rfl | hg
        · exact hlt
        · exact hcomp.lt_of_lt_of_le hlt (le_of_lt (hq₂ g hg))
      · rw [members_append, members_cons] at hin hnew
        exact isList_insertBefore hin hnew
      · exact toList_leaf h₁.nodup hleaders hnil
    · refine ⟨.right, G₁ ++ [(q, ds)], G₂, .inr ⟨rfl, hgt⟩, hnil, by simp, fun g hg => ?_, hhigh, ?_, ?_⟩
      · have hqnew : comp (t.key q) (t.key new) < 0 := (hcomp.swap _ _).1 hgt
        rcases List.mem_append.1 hg with hg | hg
        · exact hcomp.lt_of_lt_of_le (hq₁ g hg (q, ds) (List.mem_cons_self ..)) (le_of_lt hqnew)
        · rw [List.mem_singleton.1 hg]
          exact hqnew
      · have hshape : members (G₁ ++ (q, ds) :: G₂) = (members G₁ ++ l) ++ last :: members G₂ := by
          rw [members_append, members_cons, ← List.cons_append, hl]
          simp
        have hshape' : members (G₁ ++ [(q, ds)]) ++ new :: members G₂ = (members G₁ ++ l) ++ last :: new ::
            members G₂ := by
          rw [members_append, members_cons, ← List.cons_append, hl]
          simp [members]
        rw [hshape] at hin hnew
        rw [hshape']
        exact isList_insertAfter hin hnew
      · rw [toList_leaf h₁.nodup hleaders hnil]
        simp
  -- the tree, with the node linked into the list
  obtain ⟨tl, htl⟩ : ∃ tl, tl = linkIn (newNode t new) q last new s := ⟨_, rfl⟩
  have hsame : SameTree (newNode t new) tl := htl ▸ sameTree_linkIn ..
  have htree := h₁.tree.same hsame
  have hbal := h₁.balanced
  have hnodup := h₁.nodup
  have hnewT : new ∉ (plug c (.node b q child)).toList := fun hmem => hnew (h₁.mem_tree hmem)
  rw [BalTree.node_eq s, hnil] at htree hbal hnodup hnewT
  have hcount : c.length ≤ tl.count := by
    rw [htl, hlist.count]
    have hlength := length_plug c (.node b q child)
    rw [h₁.leaders] at hlength
    have hle := (leaders_sublist (G₁ ++ (q, ds) :: G₂)).length_le
    rw [hgroups, members_append, List.length_append] at hle
    rw [List.length_append, List.length_cons]
    rw [hgroups] at hlength
    omega
  have hleaf : tl.balance new = 0 ∧ ∀ d, tl.child new d = none := by
    rw [hsame.balance, hsame.child]
    exact ⟨Function.update_self .., fun d => by simp [newNode]⟩
  obtain ⟨t', T', hrun, ht', hbal', horder', hlist'⟩ := attach_spec htree hnodup hbal hnewT hleaf.2 hleaf.1 hcount
  have hkey : t'.key = t.key := hlist'.key.trans hsame.key
  have hleader : t'.leader = (newNode t new).leader := hlist'.leader.trans hsame.leader
  have hqbal : (newNode t new).balance q = 0 ∨ (newNode t new).balance q = -s.sgn := by
    obtain ⟨hb, hlow, hhigh, -, -⟩ := BalTree.balanced_onSide.1 (balanced_plug.1 hbal).1
    rw [← hsame.balance, (isTree_node htree).2]
    rw [BalTree.height] at hb
    cases s <;> simp only [Side.sgn] at hb ⊢ <;> omega
  refine ⟨t', T', H₁, H₂, ?_, hgroups, hkey, ?_⟩
  · rw [avlInsert_eq_attach dup hroot hfind hlast hs hqbal, ← htl, hrun]
    rfl
  · rw [hgroups] at h₁
    refine holds_insertGroup h₁ ht' hbal' (horder'.trans horder) ?_ hkey hleader (Function.update_self ..) hlow hhigh
    rw [htl] at hlist'
    exact hlist.same hlist'

/-- A node with a key that is there becomes the last of its group, or is refused. -/
theorem avlInsert_present {root : Ptr} {ds : List Ptr} (hcomp : KeyOrder comp)
    (h : Holds comp t T (G₁ ++ (q, ds) :: G₂))
    (hnew : new ∉ members (G₁ ++ (q, ds) :: G₂)) (hroot : t.root = some root) (hkey : comp (t.key new) (t.key q) = 0) :
    avlInsert comp t new false = some (newNode t new, -1) ∧
      ∃ t', avlInsert comp t new true = some (t', 0) ∧ t'.key = t.key ∧
      Holds comp t' T (G₁ ++ (q, ds ++ [new]) :: G₂) := by
  have h₁ := h.unchanged (unchanged_newNode hnew)
  obtain ⟨H₁, ds', H₂, c, b, child, q', hgroups, -, hfind, hplace⟩ := h₁.search hcomp hroot (t.key new)
  -- the search ends at the leader of this group
  obtain rfl : q = q' := by
    have hq : (q, ds) ∈ H₁ ++ (q', ds') :: H₂ := hgroups ▸ by simp
    have hordered := h₁.ordered
    rw [hgroups, List.pairwise_append, List.pairwise_cons] at hordered
    obtain ⟨-, ⟨hbehind, -⟩, hbefore⟩ := hordered
    have hqnew := hcomp.symm hkey
    rcases List.mem_append.1 hq with hq | hq
    · have hlt := hbefore _ hq (q', ds') (List.mem_cons_self ..)
      have hnewq := hcomp.lt_of_le_of_lt (le_of_eq hkey) hlt
      rcases hplace with hzero | ⟨-, -, hlow⟩ | ⟨hgt, -, -⟩
      · exact absurd hzero (ne_of_lt hnewq)
      · exact absurd hqnew (ne_of_lt (hlow _ hq))
      · exact absurd hgt (not_lt_of_gt hnewq)
    · rcases List.mem_cons.1 hq with heq | hq
      · exact (Prod.mk.inj heq).1
      · have hlt := hcomp.lt_of_lt_of_le (hbehind _ hq) (le_of_eq hqnew)
        have hgt := (hcomp.swap _ _).2 hlt
        rcases hplace with hzero | ⟨hneg, -, -⟩ | ⟨-, -, hhigh⟩
        · exact absurd hzero (ne_of_gt hgt)
        · exact absurd hneg (not_lt_of_gt hgt)
        · exact absurd hkey (ne_of_lt (hhigh _ hq))
  obtain ⟨l, last, hl, hlast⟩ := h₁.lastOfKey
  have hrun : ∀ dup, avlInsert comp t new dup = if !dup then some (newNode t new, -1) else
      some (avlInsertAfter { newNode t new with leader := Function.update (newNode t new).leader new false } last
        new, 0) := by
    intro dup
    unfold avlInsert
    simp only [show (newNode t new).root = some root from hroot, show (newNode t new).key = t.key from rfl,
      show (newNode t new).count = t.count from rfl,
      show avlFindRec comp (newNode t new) (t.key new) t.count root = some q from hfind,
      show lastOfKey (newNode t new) t.count q = some last from hlast, Option.bind_eq_bind, Option.bind_some,
        if_pos hkey]
    rfl
  refine ⟨hrun false, _, hrun true, (sameTree_insertAfter ..).key, ?_⟩
  obtain ⟨t₂, ht₂⟩ : ∃ t₂, t₂ = { newNode t new with leader := Function.update (newNode t new).leader new false } :=
    ⟨_, rfl⟩
  have htree₂ : IsTree t₂ T := ht₂ ▸ isTree_setLeader h₁.tree _
  have hlist₂ : IsList t₂ (members (G₁ ++ (q, ds) :: G₂)) := ht₂ ▸ isList_setLeader h₁.list _
  have hsame : SameTree t₂ (avlInsertAfter t₂ last new) := sameTree_insertAfter ..
  rw [← ht₂]
  have hkeys : (avlInsertAfter t₂ last new).key = (newNode t new).key := by
    rw [hsame.key, ht₂]
  have hleader : (avlInsertAfter t₂ last new).leader new = false := by
    rw [hsame.leader, ht₂]
    exact Function.update_self ..
  have hleaders : ∀ p ∈ members (G₁ ++ (q, ds) :: G₂), (avlInsertAfter t₂ last new).leader p =
      (newNode t new).leader p := by
    intro p hp
    rw [hsame.leader, ht₂]
    refine Function.update_of_ne ?_ ..
    rintro rfl
    exact hnew hp
  have hshape : members (G₁ ++ (q, ds) :: G₂) = (members G₁ ++ l) ++ last :: members G₂ := by
    rw [members_append, members_cons, ← List.cons_append, hl]
    simp
  have hshape' : members (G₁ ++ (q, ds ++ [new]) :: G₂) = (members G₁ ++ l) ++ last :: new :: members G₂ := by
    rw [members_append, members_cons, ← List.cons_append, ← List.cons_append, hl]
    simp
  rw [hshape] at hlist₂
  -- a group is the one with the new node, or as before
  have hgroup : (q, ds) ∈ G₁ ++ (q, ds) :: G₂ := by simp
  have hmem : ∀ {g : Group}, g ∈ G₁ ++ (q, ds ++ [new]) :: G₂ → g = (q, ds ++ [new]) ∨ g ∈ G₁ ++ (q, ds) :: G₂ := by
    intro g hg
    simp only [List.mem_append, List.mem_cons] at hg ⊢
    tauto
  constructor
  · exact htree₂.same hsame
  · exact h.balanced
  · rw [h.leaders]
    simp
  · rw [hshape']
    exact isList_insertAfter hlist₂ (hshape ▸ hnew)
  · have hordered := h₁.ordered
    rw [List.pairwise_append, List.pairwise_cons] at hordered ⊢
    rw [hkeys]
    obtain ⟨hord₁, ⟨hbehind, hord₂⟩, hbefore⟩ := hordered
    refine ⟨hord₁, ⟨hbehind, hord₂⟩, fun g hg g' hg' => ?_⟩
    rcases List.mem_cons.1 hg' with rfl | hg'
    · exact hbefore g hg (q, ds) (List.mem_cons_self ..)
    · exact hbefore g hg g' (List.mem_cons_of_mem _ hg')
  · intro g hg d hd
    rw [hkeys]
    rcases hmem hg with rfl | hg
    · rcases List.mem_append.1 hd with hd | hd
      · exact h₁.same _ hgroup d hd
      · rw [List.mem_singleton.1 hd]
        exact hkey
    · exact h₁.same g hg d hd
  · intro g hg
    rcases hmem hg with rfl | hg
    · exact (hleaders _ (leader_mem_members hgroup)).trans (h₁.leader _ hgroup)
    · exact (hleaders _ (leader_mem_members hg)).trans (h₁.leader g hg)
  · intro g hg d hd
    rcases hmem hg with rfl | hg
    · rcases List.mem_append.1 hd with hd | hd
      · exact (hleaders _ (dup_mem_members hgroup hd)).trans (h₁.dups _ hgroup d hd)
      · rw [List.mem_singleton.1 hd]
        exact hleader
    · exact (hleaders _ (dup_mem_members hg hd)).trans (h₁.dups g hg d hd)

/-- The first node of a tree -/
theorem avlInsert_first (h : Holds comp t T groups) (hroot : t.root = none) (new : Ptr) (dup : Bool) :
    groups = [] ∧ ∃ t', avlInsert comp t new dup = some (t', 0) ∧ t'.key = t.key ∧
      Holds comp t' (leaf new) [(new, [])] := by
  obtain ⟨hnil, hgroups⟩ := h.eq_nil hroot
  obtain ⟨t', ht'⟩ : ∃ t', t' =
    { newNode t new with root := some new, first := some new, last := some new, count := 1 } :=
    ⟨_, rfl⟩
  have hfields : t'.parent new = none ∧ t'.balance new = 0 ∧ (∀ d, t'.child new d = none) ∧ t'.prev new = none ∧
      t'.next new = none ∧ t'.leader new = true := by
    rw [ht']
    exact ⟨Function.update_self .., Function.update_self .., fun d => by simp [newNode], Function.update_self ..,
      Function.update_self .., Function.update_self ..⟩
  obtain ⟨hparent, hbalance, hchild, hprev, hnext, hleader⟩ := hfields
  refine ⟨hgroups, t', ?_, by rw [ht']; rfl, ?_⟩
  · unfold avlInsert
    simp only [show (newNode t new).root = none from hroot]
    rw [ht']
    rfl
  · constructor
    · rw [IsTree, show t'.root = some new by rw [ht']]
      exact ⟨rfl, hparent, hbalance, hchild⟩
    · exact balanced_leaf new
    · rfl
    · exact ⟨by rw [ht']; rfl, by rw [ht']; rfl, ⟨hprev, hnext, trivial⟩, List.nodup_singleton new, by rw [ht']; rfl⟩
    · exact List.pairwise_singleton ..
    · intro g hg d hd
      rw [List.mem_singleton.1 hg] at hd
      cases hd
    · intro g hg
      rw [List.mem_singleton.1 hg]
      exact hleader
    · intro g hg d hd
      rw [List.mem_singleton.1 hg] at hd
      cases hd

/-- What an insertion does to the groups: it puts the node at the end of the one with its key, or makes one of its own,
or refuses it. -/
inductive Inserted (comp : K → K → Int) (key : Ptr → K) (new : Ptr) (dup : Bool) (groups : List Group) :
    List Group → Int → Prop
  | last {G₁ G₂ : List Group} {q : Ptr} {ds : List Ptr} : dup = true → groups = G₁ ++ (q, ds) :: G₂ →
    comp (key new) (key q) = 0 → Inserted comp key new dup groups (G₁ ++ (q, ds ++ [new]) :: G₂) 0
  | refused {g : Group} : dup = false → g ∈ groups → comp (key new) (key g.1) = 0 →
      Inserted comp key new dup groups groups (-1)
  | own {G₁ G₂ : List Group} : groups = G₁ ++ G₂ → (∀ g ∈ groups, comp (key new) (key g.1) ≠ 0) →
    Inserted comp key new dup groups (G₁ ++ (new, []) :: G₂) 0

/-- `avl_insert` -/
theorem avlInsert_spec (hcomp : KeyOrder comp) (h : Holds comp t T groups) (hnew : new ∉ members groups) (dup : Bool) :
    ∃ t' ret T' groups', avlInsert comp t new dup = some (t', ret) ∧ t'.key = t.key ∧ Holds comp t' T' groups' ∧
      Inserted comp t.key new dup groups groups' ret ∧ (ret = -1 → Unchanged t t' (members groups)) := by
  cases hroot : t.root with
  | none =>
    obtain ⟨rfl, t', hrun, hkey, hholds⟩ := avlInsert_first h hroot new dup
    exact ⟨t', 0, _, _, hrun, hkey, hholds, .own (show ([] : List Group) = [] ++ [] from rfl) (fun g hg => by cases hg),
      fun hret => by cases hret⟩
  | some root =>
    by_cases hkey : ∃ g ∈ groups, comp (t.key new) (t.key g.1) = 0
    · obtain ⟨⟨q, ds⟩, hg, hq⟩ := hkey
      obtain ⟨G₁, G₂, rfl⟩ := List.append_of_mem hg
      obtain ⟨hrefused, t', hrun, hkey, hholds⟩ := avlInsert_present hcomp h hnew hroot hq
      cases dup with
      | false =>
        exact ⟨_, _, _, _, hrefused, rfl, h.unchanged (unchanged_newNode hnew), .refused rfl hg hq,
          fun _ => unchanged_newNode hnew⟩
      | true => exact ⟨t', 0, _, _, hrun, hkey, hholds, .last rfl rfl hq, fun hret => by cases hret⟩
    · have habsent : ∀ g ∈ groups, comp (t.key new) (t.key g.1) ≠ 0 := fun g hg hzero => hkey ⟨g, hg, hzero⟩
      obtain ⟨t', T', G₁, G₂, hrun, hgroups, hkey, hholds⟩ := avlInsert_absent hcomp h hnew dup hroot habsent
      exact ⟨t', 0, T', _, hrun, hkey, hholds, .own hgroups habsent, fun hret => by cases hret⟩

end Olsrd.Common
