/-
What a deletion does to the tree: a node with one child at most is taken out, and a node with two children gives its
place to the next node in order.
-/
import Olsrd.Common.AvlBalance

namespace Olsrd.Common

open BalancedTree

variable {K : Type} {t t' : AvlTree K} {s : Side} {b : Int} {p q : Ptr} {r : Option Ptr} {A B T : BalTree Ptr}
  {child : Side → BalTree Ptr} {c : List (Frame Ptr)} {l₁ l₂ : List Ptr}

/-- A node gives its place to one of its children. -/
theorem isTree_lift (ht : IsTree t (plug c (.onSide s b p A B))) (hnodup : (plug c (.onSide s b p A B)).toList.Nodup) :
    IsTree (setPlace (t.adopt (t.child p s) (above c)) c (t.child p s)) (plug c A) := by
  obtain ⟨_, hc, hT⟩ := isTree_plug.1 ht
  obtain ⟨rfl, -, -, hA, -⟩ := rep_onSide.1 hT
  have hnodup' := (perm_plug_onSide c s b p A B).nodup hnodup
  simp only [List.nodup_cons, List.mem_append, not_or, List.nodup_append] at hnodup'
  obtain ⟨-, hndA, ⟨-, hndc, -⟩, hABc⟩ := hnodup'
  have hdisjoint : ∀ x ∈ A.toList, x ∉ around c := fun x hx hxc => hABc x hx x (Or.inr hxc) rfl
  have hc' : RepAround (t.adopt (t.child p s) (above c)) c (some p) :=
    hc.congr (by simp) fun x hx => sameNode_adopt (hA.root_ne fun hxA => hdisjoint x hxA hx)
  refine isTree_setPlace hc' (hA.adopt hndA _) ((perm_plug c A).symm.nodup ?_)
  exact List.nodup_append.2 ⟨hndA, hndc, fun x hx y hy => fun h => hdisjoint x hx (h ▸ hy)⟩

/-- A node with one child at most is taken out. -/
theorem deleteLower_spec (ht : IsTree t (plug c (.node b p child))) (hnodup : (plug c (.node b p child)).toList.Nodup)
    (hbal : (plug c (.node b p child)).Balanced) (hs : child s = .nil) (hn : c.length ≤ t.count) :
    Restored t (plug c (child s.flip)).toList (deleteLower t p) := by
  obtain ⟨hpbal, hc⟩ := balanced_plug.1 hbal
  rw [BalTree.node_eq s.flip, Side.flip_flip, hs] at ht hnodup hpbal hc
  obtain ⟨A, hA⟩ : ∃ A, A = child s.flip := ⟨_, rfl⟩
  rw [← hA] at ht hnodup hpbal hc ⊢
  obtain ⟨_, hcr, hT⟩ := isTree_plug.1 ht
  obtain ⟨rfl, hparent, hb, hAr, hnil⟩ := rep_onSide.1 hT
  rw [Side.flip_flip] at hnil
  have hs_none : t.child p s = none := hnil
  have hlift := isTree_lift ht hnodup
  obtain ⟨-, -, -, hAbal, -⟩ := BalTree.balanced_onSide.1 hpbal
  rw [BalTree.height_onSide] at hc
  cases A with
  | nil =>
    have hflip_none : t.child p s.flip = none := hAr
    have hboth : t.child p .left = none ∧ t.child p .right = none := by
      cases s
      · exact ⟨hs_none, hflip_none⟩
      · exact ⟨hflip_none, hs_none⟩
    rw [hflip_none] at hlift
    have hnodup' : (plug c (.nil : BalTree Ptr)).toList.Nodup := by
      refine (perm_plug c _).symm.nodup ?_
      have hnodup := (perm_plug_onSide c s.flip b p .nil .nil).nodup hnodup
      exact (List.nodup_cons.1 hnodup).2
    unfold deleteLower
    simp only [hboth.1, hboth.2, hparent]
    cases c with
    | nil => exact ⟨_, _, rfl, hlift, trivial, rfl, ⟨rfl, rfl, rfl, rfl, rfl, rfl, rfl⟩⟩
    | cons f c =>
      obtain ⟨hf, hlow, hhigh, hother, hc⟩ := hc
      have hside : t.sideOf f.node p = f.side := (@isTree_frame K t b p f c _ ht hnodup).2.1
      simp only [above, hside]
      refine (lowered_spec (fun ht hnodup hbal hc => ?_) hlift hnodup' hf hlow hhigh trivial hother hc).after
        (sameList_setChild ..)
      exact avlPostDelete_spec ht hnodup hbal hc (by simp at hn; omega)
  | node b' q child' =>
    have hq : t.child p s.flip = some q := hAr.1
    rw [hq] at hlift
    have hnodup' : (plug c (.node b' q child')).toList.Nodup := by
      refine (perm_plug c _).symm.nodup ?_
      have hnodup := (perm_plug_onSide c s.flip b p (.node b' q child') .nil).nodup hnodup
      exact (List.nodup_cons.1 hnodup).2
    have hrun : deleteLower t p = (t.parent p).elim (some ({ t with root := some q }.setParent q none)) fun parent =>
        avlPostDelete t.count ((t.setParent q (some parent)).replaceChild (some parent) p (some q)) q := by
      unfold deleteLower
      cases s
      · simp only [hs_none, show t.child p .right = some q from hq]
        cases t.parent p <;> rfl
      · simp only [hs_none, show t.child p .left = some q from hq]
        cases t.parent p <;> rfl
    have hheight : max (BalTree.node b' q child').height (BalTree.nil : BalTree Ptr).height + 1 =
        (BalTree.node b' q child').height + 1 := by
      rw [BalTree.height, BalTree.height]
      omega
    rw [hheight] at hc
    rw [hrun, hparent]
    cases c with
    | nil => exact ⟨_, _, rfl, hlift, hAbal, rfl, ⟨rfl, rfl, rfl, rfl, rfl, rfl, rfl⟩⟩
    | cons f c =>
      have hside : t.sideOf f.node p = f.side := (@isTree_frame K t b p f c _ ht hnodup).2.1
      have hplace : (t.setParent q (some f.node)).replaceChild (some f.node) p (some q) =
          setPlace (t.adopt (some q) (above (f :: c))) (f :: c) (some q) := by
        change (t.setParent q _).setChild f.node (t.sideOf f.node p) (some q) = _
        rw [hside]
        rfl
      simp only [above, Option.elim_some, hplace]
      refine (avlPostDelete_spec hlift hnodup' hAbal hc hn).after ?_
      exact (sameList_setParent ..).trans (sameList_setChild ..)

/-- A node that is not in the tree takes the place of a member. -/
theorem takePlace_spec (ht : IsTree t T) (hbal : T.Balanced) (hnodup : T.toList.Nodup) (hT : T.toList = l₁ ++ p :: l₂)
    (hq : q ∉ T.toList) : Restored t (l₁ ++ q :: l₂) (some (takePlace t p q)) := by
  obtain ⟨c, b, child, rfl⟩ := exists_plug (show p ∈ T.toList by simp [hT])
  obtain ⟨A, hA⟩ : ∃ A, A = child .left := ⟨_, rfl⟩
  obtain ⟨B, hB⟩ : ∃ B, B = child .right := ⟨_, rfl⟩
  rw [BalTree.node_eq .left, ← hA, show child Side.left.flip = B from hB.symm] at ht hbal hnodup hT hq
  obtain ⟨_, hc, hT'⟩ := isTree_plug.1 ht
  obtain ⟨rfl, hp, hb, hAr, hBr⟩ := rep_onSide.1 hT'
  change Rep t (some p) (t.child p .right) B at hBr
  have hnodup' := (perm_plug_onSide c .left b p A B).nodup hnodup
  have hq' : q ∉ p :: (A.toList ++ (B.toList ++ around c)) := fun h => hq ((perm_plug_onSide ..).mem_iff.2 h)
  simp only [List.nodup_cons, List.mem_append, not_or, List.nodup_append, List.mem_cons] at hnodup' hq'
  obtain ⟨⟨hpA, hpB, hpc⟩, hndA, ⟨hndB, hndc, hBc⟩, hABc⟩ := hnodup'
  obtain ⟨hqp, hqA, hqB, hqc⟩ := hq'
  -- the fields of the new node
  obtain ⟨t₁, ht₁⟩ : ∃ t₁, t₁ = { (t.setBalance q (t.balance p)).setParent q (t.parent p) with
      child := Function.update t.child q (t.child p) } := ⟨_, rfl⟩
  have hsame₁ : ∀ x, x ≠ q → SameNode t t₁ x := by
    intro x hx
    rw [ht₁]
    exact ⟨by simp [hx], by simp [hx], by simp [hx]⟩
  have hne : ∀ {l : List Ptr}, q ∉ l → ∀ x ∈ l, SameNode t t₁ x := fun hl x hx => hsame₁ x fun h => hl (h ▸ hx)
  have hA₁ := hAr.congr (hne hqA)
  have hB₁ := hBr.congr (hne hqB)
  have hc₁ : RepAround t₁ c (some p) := hc.congr (by rw [ht₁]; rfl) (hne hqc)
  -- its children
  obtain ⟨t₂, ht₂⟩ : ∃ t₂, t₂ = t₁.adopt (t.child p .left) (some q) := ⟨_, rfl⟩
  obtain ⟨t₃, ht₃⟩ : ∃ t₃, t₃ = t₂.adopt (t.child p .right) (some q) := ⟨_, rfl⟩
  have hleft : ∀ x ∉ A.toList, SameNode t₁ t₂ x := fun x hx => ht₂ ▸ sameNode_adopt (hA₁.root_ne hx)
  have hright : ∀ x ∉ B.toList, SameNode t₂ t₃ x := fun x hx => ht₃ ▸ sameNode_adopt (hB₁.root_ne hx)
  have hA₃ : Rep t₃ (some q) (t.child p .left) A := by
    have hA₂ : Rep t₂ (some q) (t.child p .left) A := ht₂ ▸ hA₁.adopt hndA (some q)
    exact hA₂.congr fun x hx => hright x fun h => hABc x hx x (Or.inl h) rfl
  have hB₃ : Rep t₃ (some q) (t.child p .right) B := by
    have hB₂ : Rep t₂ (some p) (t.child p .right) B := hB₁.congr fun x hx => hleft x fun h => hABc x h x (Or.inl hx) rfl
    exact ht₃ ▸ hB₂.adopt hndB (some q)
  have hc₃ : RepAround t₃ c (some p) := by
    refine hc₁.congr (by simp [ht₃, ht₂]) fun x hx => (hleft x fun h => ?_).trans (hright x fun h => ?_)
    · exact hABc x h x (Or.inr hx) rfl
    · exact hBc x h x hx rfl
  have hq₃ := (hleft q hqA).trans (hright q hqB)
  have hT₃ : Rep t₃ (above c) (some q) (.onSide .left b q A B) := by
    have hchild : t₃.child q = t.child p := by
      rw [hq₃.2.1, ht₁]
      simp
    refine rep_onSide.2 ⟨rfl, ?_, ?_, by rwa [hchild], by rwa [hchild]⟩
    · rw [hq₃.1, ht₁]
      simp [hp]
    · rw [hq₃.2.2, ht₁]
      simp [hb]
  have hrun : takePlace t p q = setPlace t₃ c (some q) := by
    rw [← hc₃.replaceChild hpc, ← hp, ht₃, ht₂, ht₁]
    simp [takePlace]
  have horder : (plug c (.onSide .left b q A B)).toList = l₁ ++ q :: l₂ := by
    obtain ⟨rfl, rfl⟩ := split_plug hnodup hT
    rw [toList_plug, BalTree.toList_onSide]
    simp [Side.join]
  have hnodup_q : (plug c (.onSide .left b q A B)).toList.Nodup := by
    rw [hT, List.nodup_middle, List.nodup_cons] at hnodup
    rw [horder, List.nodup_middle, List.nodup_cons]
    refine ⟨fun h => hq ?_, hnodup.2⟩
    rw [hT]
    simp only [List.mem_append, List.mem_cons] at h ⊢
    tauto
  refine ⟨_, _, rfl, hrun ▸ isTree_setPlace hc₃ hT₃ hnodup_q, ?_, horder, ?_⟩
  · rw [balanced_plug, BalTree.balanced_onSide, BalTree.height_onSide] at hbal ⊢
    exact hbal
  · have hlist : SameList t t₁ := by
      rw [ht₁]
      exact ⟨rfl, rfl, rfl, rfl, rfl, rfl, rfl⟩
    rw [hrun, ht₃, ht₂]
    exact hlist.trans ((sameList_adopt ..).trans ((sameList_adopt ..).trans (sameList_setPlace ..)))

/-- The lowest node of a tree is the first in order, and has no left child. -/
theorem avlLocalMin_spec {parent : Option Ptr} {n : Nat} (hT : Rep t parent (some p) T) (hn : T.height ≤ n + 1) :
    ∃ c b m child, avlLocalMin t n p = some m ∧ T = plug c (.node b m child) ∧ child .left = .nil ∧ before c = [] := by
  induction T generalizing p parent n with
  | nil => cases hT
  | node b q child ih =>
    obtain ⟨hp, -, -, hchild⟩ := hT
    obtain rfl : p = q := Option.some.inj hp
    have hl := hchild .left
    cases hleft : child .left with
    | nil =>
      rw [hleft] at hl
      refine ⟨[], b, p, child, ?_, rfl, hleft, rfl⟩
      unfold avlLocalMin
      rw [show t.child p .left = none from hl]
    | node b' q' child' =>
      have hq : t.child p .left = some q' := by
        rw [hleft] at hl
        exact hl.1
      obtain ⟨n, rfl⟩ : ∃ m, n = m + 1 := by
        refine ⟨n - 1, ?_⟩
        rw [BalTree.height, hleft, BalTree.height] at hn
        omega
      have hn' : (child .left).height ≤ n + 1 := by
        rw [BalTree.height] at hn
        omega
      obtain ⟨c, b'', m, child'', hrun, hT, hnil, hbefore⟩ := ih .left (hq ▸ hl) hn'
      refine ⟨c ++ [⟨.left, b, p, child .right⟩], b'', m, child'', ?_, ?_, hnil, ?_⟩
      · unfold avlLocalMin
        rw [hq]
        exact hrun
      · rw [plug_append, ← hT, BalTree.node_eq .left]
        rfl
      · rw [before_append, hbefore]
        rfl

/-- `avl_delete_worker` takes a member out of the tree. -/
theorem avlDeleteWorker_spec (ht : IsTree t T) (hbal : T.Balanced) (hnodup : T.toList.Nodup)
    (hT : T.toList = l₁ ++ p :: l₂) (hn : T.toList.length ≤ t.count) : Restored t (l₁ ++ l₂) (avlDeleteWorker t p) := by
  obtain ⟨c, b, child, rfl⟩ := exists_plug (show p ∈ T.toList by simp [hT])
  have hlength : c.length + (BalTree.node b p child).toList.length ≤ t.count := (length_plug c _).trans hn
  obtain ⟨hl₁, hl₂⟩ := split_plug hnodup hT
  obtain ⟨_, -, rfl, -, -, hchild⟩ := isTree_plug.1 ht
  by_cases hlower : ∃ s, child s = .nil
  · obtain ⟨s, hs⟩ := hlower
    have hrun : avlDeleteWorker t p = deleteLower t p := by
      have hnone : t.child p s = none := by
        have h := hchild s
        rwa [hs] at h
      unfold avlDeleteWorker
      cases s
      · rw [hnone]
      · rw [hnone]
        cases t.child p .left <;> rfl
    have horder : (plug c (child s.flip)).toList = l₁ ++ l₂ := by
      rw [toList_plug, hl₁, hl₂]
      cases s <;> simp [hs, Side.flip, BalTree.toList]
    rw [hrun, ← horder]
    exact deleteLower_spec ht hnodup hbal hs (by omega)
  · have hsome : ∀ s, ∃ q, t.child p s = some q := by
      intro s
      have h := hchild s
      cases hs : child s with
      | nil => exact absurd ⟨s, hs⟩ hlower
      | node b' q child' =>
        rw [hs] at h
        exact ⟨q, h.1⟩
    obtain ⟨left, hleft⟩ := hsome .left
    obtain ⟨right, hright⟩ := hsome .right
    have hheight : (child .right).height ≤ t.count + 1 := by
      have h := height_le_length (child .right)
      rw [BalTree.toList, List.length_append, List.length_cons] at hlength
      omega
    obtain ⟨c', b', m, child', hmin, hplace, hnil, hbefore⟩ := avlLocalMin_spec (hright ▸ hchild .right) hheight
    -- the place of the lowest node in the whole tree, and the members around it
    have hdown : ∀ X, plug (c' ++ ⟨.right, b, p, child .left⟩ :: c) X =
        plug c (.onSide .right b p (plug c' X) (child .left)) := by
      intro X
      rw [plug_append]
      rfl
    have hmembers : ∀ X, (plug (c' ++ ⟨.right, b, p, child .left⟩ :: c) X).toList = l₁ ++ p ::
        ((X.toList ++ behind c') ++ behind c) := by
      intro X
      rw [hdown, toList_plug, BalTree.toList_onSide, toList_plug, hbefore, hl₁]
      simp [Side.join]
    have hwhole : plug c (.node b p child) = plug (c' ++ ⟨.right, b, p, child .left⟩ :: c) (.node b' m child') := by
      rw [hdown, ← hplace, BalTree.node_eq .right]
      rfl
    have hl₂' : l₂ = m :: ((child' .right).toList ++ behind c' ++ behind c) := by
      rw [hl₂, hplace, toList_plug, hbefore, BalTree.toList, hnil]
      simp [BalTree.toList]
    rw [hwhole] at ht hnodup hbal
    obtain ⟨t₁, T₁, hrun₁, ht₁, hbal₁, horder₁, hsame₁⟩ := deleteLower_spec ht hnodup hbal hnil (by
      have h := length_plug (c' ++ ⟨.right, b, p, child .left⟩ :: c) (.node b' m child')
      rw [← hwhole] at h
      omega)
    have horder₁' : T₁.toList = l₁ ++ p :: ((child' .right).toList ++ behind c' ++ behind c) :=
      horder₁.trans (hmembers _)
    rw [← hwhole, hT, hl₂', List.append_cons, List.nodup_middle, List.nodup_cons, ← List.append_cons, ←
      horder₁'] at hnodup
    obtain ⟨t₂, T₂, hrun₂, ht₂, hbal₂, horder₂, hsame₂⟩ := takePlace_spec ht₁ hbal₁ hnodup.2 horder₁' hnodup.1
    refine ⟨t₂, T₂, ?_, ht₂, hbal₂, ?_, hsame₁.trans hsame₂⟩
    · unfold avlDeleteWorker
      rw [hleft, hright]
      simp only [hmin, hrun₁, Option.bind_eq_bind, Option.bind_some]
      exact hrun₂
    · rw [horder₂, hl₂']

end Olsrd.Common
