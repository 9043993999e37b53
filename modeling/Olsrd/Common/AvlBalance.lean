/-
The balance of AVL trees: a place may have become one higher or one lower than the balances above it say, and the loops
of the source up to the root put this right without a change to the order of the members.
-/
import Olsrd.Common.AvlRep

namespace Olsrd.Common

open BalancedTree

variable {K : Type} {t t' t'' : AvlTree K} {s : Side} {b bp bq br : Int} {p q r : Ptr} {A B C D T : BalTree Ptr}
  {f : Frame Ptr} {c : List (Frame Ptr)}

/-! ## Rotations -/

/-- A rotation computes the balances of the new heights, whatever these are. -/
theorem loweredBalance_eq {a b c : Int} (hp : s.sgn * bp = max a b + 1 - c) (hq : s.sgn * bq = a - b) :
    s.sgn * loweredBalance s bp bq = b - c := by
  cases s <;> simp only [Side.sgn, loweredBalance] at * <;> omega

theorem raisedBalance_eq {a b c : Int} (hp : s.sgn * bp = b - c) (hq : s.sgn * bq = a - b) :
    s.sgn * raisedBalance s bq bp = a - (max b c + 1) := by
  cases s <;> simp only [Side.sgn, raisedBalance] at * <;> omega

/-- The outer child of the child that is too high is the one that makes it so. -/
theorem avlRotate_once (ht : IsTree t (plug c (.onSide s bp p (.onSide s bq q A B) C)))
    (hnodup : (plug c (.onSide s bp p (.onSide s bq q A B) C)).toList.Nodup) (hbp : s.sgn * bp = 2)
    (hbq : s.sgn * bq = A.height - B.height) (hAbal : A.Balanced) (hBbal : B.Balanced) (hC : C.Balanced)
    (hA : A.height = C.height + 1) (hB : B.height ≤ C.height + 1) (hB' : C.height ≤ B.height + 1) : ∃ t' T',
      avlRotate s t p = some t' ∧ IsTree t' (plug c T') ∧ T'.Balanced ∧
      T'.toList = (BalTree.onSide s bp p (.onSide s bq q A B) C).toList ∧ T'.height = max B.height C.height + 2 ∧
      t'.parent p = some q ∧ (∃ b X Y, T' = .onSide s b q X Y) ∧ SameList t t' := by
  obtain ⟨t', hrun, ht', hsame⟩ := avlRotate_spec ht hnodup
  have hbp' := @loweredBalance_eq s bp bq A.height B.height C.height (by omega) hbq
  have hbq' := raisedBalance_eq hbp' hbq
  refine ⟨t', _, hrun, ht', ?_, BalTree.toList_rotate .., ?_, ?_, ⟨_, _, _, rfl⟩, hsame⟩
  · rw [BalTree.balanced_onSide, BalTree.balanced_onSide, BalTree.height_onSide]
    push_cast
    cases s <;> simp only [Side.sgn] at * <;>
      exact ⟨by omega, by omega, by omega, hAbal, by omega, by omega, by omega, hBbal, hC⟩
  · rw [BalTree.height_onSide, BalTree.height_onSide]
    omega
  · rw [← BalTree.onSide_flip s] at ht'
    exact (@isTree_node _ _ _ _ _ _ _ (⟨s.flip, _, q, A⟩ :: c) ht').1

/-- The inner child of the child that is too high is the higher one, and comes up in two steps. -/
theorem avlRotate_twice (ht : IsTree t (plug c (.onSide s bp p (.onSide s bq q A (.onSide s br r D B)) C)))
    (hnodup : (plug c (.onSide s bp p (.onSide s bq q A (.onSide s br r D B)) C)).toList.Nodup) (hbp : s.sgn * bp = 2)
    (hq : (BalTree.onSide s bq q A (.onSide s br r D B)).Balanced) (hC : C.Balanced) (hA : A.height = C.height)
    (hr : (BalTree.onSide s br r D B).height = C.height + 1) : ∃ t₁ t' T',
      avlRotate s.flip t q = some t₁ ∧ t₁.parent q = some r ∧ t₁.parent r = some p ∧
      avlRotate s t₁ p = some t' ∧ IsTree t' (plug c T') ∧ T'.Balanced ∧
      T'.toList = (BalTree.onSide s bp p (.onSide s bq q A (.onSide s br r D B)) C).toList ∧ T'.height = C.height + 2 ∧
      t'.parent p = some r ∧ (∃ b X Y, T' = .onSide s b r X Y) ∧ SameList t t' := by
  obtain ⟨hbq, -, -, hAbal, hR⟩ := BalTree.balanced_onSide.1 hq
  obtain ⟨hbr, -, -, hD, hB⟩ := BalTree.balanced_onSide.1 hR
  have hDB := hR.height_le
  rw [BalTree.height_onSide] at hbq hr
  -- below `p`, the inner child comes up
  have hq_flip : BalTree.onSide s bq q A (.onSide s br r D B) = .onSide s.flip bq q (.onSide s.flip br r B D) A := by
    rw [BalTree.onSide_flip, BalTree.onSide_flip]
  have ht₀ : IsTree t (plug (⟨s, bp, p, C⟩ :: c) (.onSide s.flip bq q (.onSide s.flip br r B D) A)) := hq_flip ▸ ht
  have hnodup₀ : (plug (⟨s, bp, p, C⟩ :: c) (.onSide s.flip bq q (.onSide s.flip br r B D) A)).toList.Nodup :=
    hq_flip ▸ hnodup
  obtain ⟨t₁, hrun₁, ht₁, hsame₁⟩ := avlRotate_spec ht₀ hnodup₀
  have hbr_flip : s.flip.sgn * br = B.height - D.height := by
    rw [Side.sgn_flip, neg_mul, hbr]
    ring
  have hbq_flip : s.flip.sgn * bq = max (B.height : Int) D.height + 1 - A.height := by
    rw [Side.sgn_flip, neg_mul, hbq]
    push_cast
    rw [max_comm]
    ring
  have hbq' := loweredBalance_eq hbq_flip hbr_flip
  have hbr' := raisedBalance_eq hbq' hbr_flip
  obtain ⟨bq', hbq'_def⟩ : ∃ b, b = loweredBalance s.flip bq br := ⟨_, rfl⟩
  obtain ⟨br', hbr'_def⟩ : ∃ b, b = raisedBalance s.flip br bq' := ⟨_, rfl⟩
  rw [← hbq'_def] at ht₁ hbq' hbr'
  rw [← hbr'_def] at ht₁ hbr'
  rw [Side.sgn_flip, neg_mul] at hbq' hbr'
  have hparent_q : t₁.parent q = some r := by
    rw [← BalTree.onSide_flip s.flip, Side.flip_flip] at ht₁
    exact (@isTree_node _ _ _ _ _ _ _ (⟨s, br', r, B⟩ :: ⟨s, bp, p, C⟩ :: c) ht₁).1
  have hparent_r : t₁.parent r = some p := (isTree_node ht₁).1
  -- and then above `p`
  have htree : plug (⟨s, bp, p, C⟩ :: c) (.onSide s.flip br' r B (.onSide s.flip bq' q D A)) =
      plug c (.onSide s bp p (.onSide s br' r (.onSide s bq' q A D) B) C) := by
    rw [BalTree.onSide_flip, BalTree.onSide_flip]
    rfl
  have horder : (BalTree.onSide s bp p (.onSide s br' r (.onSide s bq' q A D) B) C).toList =
      (BalTree.onSide s bp p (.onSide s bq q A (.onSide s br r D B)) C).toList := by
    cases s <;> simp [BalTree.toList_onSide, Side.join]
  rw [htree] at ht₁
  have hnodup₁ : (plug c (.onSide s bp p (.onSide s br' r (.onSide s bq' q A D) B) C)).toList.Nodup := by
    rw [toList_plug] at hnodup ⊢
    rwa [horder]
  have hQ : (BalTree.onSide s bq' q A D).Balanced := by
    rw [BalTree.balanced_onSide]
    cases s <;> simp only [Side.sgn] at * <;> exact ⟨by omega, by omega, by omega, hAbal, hD⟩
  have hQ_height : (BalTree.onSide s bq' q A D).height = C.height + 1 := by
    rw [BalTree.height_onSide]
    omega
  have hbr'' : s.sgn * br' = (BalTree.onSide s bq' q A D).height - B.height := by
    rw [BalTree.height_onSide]
    omega
  obtain ⟨t', T', hrun', ht', hbal, horder', hheight, hparent, hroot, hsame'⟩ :=
    avlRotate_once ht₁ hnodup₁ hbp hbr'' hQ hB hC hQ_height (by omega) (by omega)
  exact ⟨t₁, t', T', hrun₁, hparent_q, hparent_r, hrun', ht', hbal, horder'.trans horder, by omega, hparent, hroot,
      hsame₁.trans hsame'⟩

/-- The outcome is a balanced tree of these members, and the list is as before. -/
def Restored (t : AvlTree K) (members : List Ptr) (outcome : Option (AvlTree K)) : Prop :=
  ∃ t' T, outcome = some t' ∧ IsTree t' T ∧ T.Balanced ∧ T.toList = members ∧ SameList t t'

theorem Restored.after {members : List Ptr} {outcome : Option (AvlTree K)} (h : Restored t' members outcome)
    (hsame : SameList t t') : Restored t members outcome := by
  obtain ⟨t'', T, hrun, ht, hbal, horder, hsame'⟩ := h
  exact ⟨t'', T, hrun, ht, hbal, horder, hsame.trans hsame'⟩

/-! ## After an insertion -/

/-- The parent and the side that the loops read at a place. -/
theorem isTree_frame {child : Side → BalTree Ptr} (ht : IsTree t (plug (f :: c) (.node b p child)))
    (hnodup : (plug (f :: c) (.node b p child)).toList.Nodup) :
    t.parent p = some f.node ∧ t.sideOf f.node p = f.side ∧ t.balance f.node = f.bal ∧ t.balance p = b := by
  obtain ⟨r, hc, rfl, hparent, hb, -⟩ := isTree_plug.1 ht
  have hp : p ∉ f.other.toList := by
    have hnodup := (perm_plug (f :: c) _).nodup hnodup
    rw [List.nodup_append] at hnodup
    exact fun h => hnodup.2.2 p (by simp [BalTree.toList]) p (by simp [around, h]) rfl
  exact ⟨hparent, hc.sideOf hp, hc.2.2.1, hb⟩

/-- The place has become one higher than the balances above it say. -/
theorem postInsert_spec {n : Nat} {child : Side → BalTree Ptr} (ht : IsTree t (plug c (.node b p child)))
    (hnodup : (plug c (.node b p child)).toList.Nodup) (hbal : (BalTree.node b p child).Balanced) (hb : b ≠ 0) {h : Nat}
    (hheight : (BalTree.node b p child).height = h + 1) (hc : Around c h) (hn : c.length ≤ n) :
    Restored t (plug c (.node b p child)).toList (postInsert n t p) := by
  induction c generalizing n t b p child h with
  | nil =>
    obtain ⟨_, -, -, hparent, -⟩ := isTree_plug.1 ht
    refine ⟨t, _, ?_, ht, hbal, rfl, .refl t⟩
    unfold postInsert
    rw [hparent]
    rfl
  | cons f c ih =>
    obtain ⟨s, bf, pf, other⟩ := f
    obtain ⟨n, rfl⟩ : ∃ m, n = m + 1 := ⟨n - 1, by simp at hn; omega⟩
    obtain ⟨hf, hlow, hhigh, hother, hc⟩ := hc
    obtain ⟨hparent, hside, hfbal, hpbal⟩ := isTree_frame ht hnodup
    dsimp only at hf hlow hhigh hother hc hparent hside hfbal
    obtain ⟨t₁, ht₁⟩ : ∃ t₁, t₁ = t.setBalance pf (bf + s.sgn) := ⟨_, rfl⟩
    have htree : IsTree t₁ (plug c (.onSide s (bf + s.sgn) pf (.node b p child) other)) := by
      rw [ht₁]
      exact isTree_setBalance ht hnodup _
    have hsame : SameList t t₁ := by
      rw [ht₁]
      exact sameList_setBalance ..
    have horder : (plug c (.onSide s (bf + s.sgn) pf (.node b p child) other)).toList =
        (plug (⟨s, bf, pf, other⟩ :: c) (.node b p child)).toList :=
      toList_plug_congr (by rw [BalTree.toList_onSide, BalTree.toList_onSide])
    have hnodup₁ : (plug c (.onSide s (bf + s.sgn) pf (.node b p child) other)).toList.Nodup := by
      rwa [horder]
    have hpbal₁ : t₁.balance p = b := (@isTree_frame K t₁ b p ⟨s, bf + s.sgn, pf, other⟩ c child htree hnodup₁).2.2.2
    have hfbal₁ : t₁.balance pf = bf + s.sgn := (isTree_node htree).2
    unfold postInsert
    simp only [hparent, hside, hfbal, ← ht₁, hfbal₁, hpbal₁]
    rcases lt_trichotomy (h + 1) other.height with hlt | heq | hgt
    · exfalso
      cases s <;> simp only [Side.sgn] at hf <;> omega
    · -- the lower side became as high as the other
      have hzero : bf + s.sgn = 0 := by cases s <;> simp only [Side.sgn] at hf ⊢ <;> omega
      refine ⟨t₁, _, if_pos hzero, htree, ?_, horder, hsame⟩
      rw [balanced_plug, BalTree.balanced_onSide, BalTree.height_onSide, hheight, hzero]
      refine ⟨⟨by push_cast; omega, by omega, by omega, hbal, hother⟩, ?_⟩
      rwa [Nat.max_eq_right (by omega)] at hc ⊢
    rcases Nat.lt_or_ge other.height h with hhigher | hequal
    · -- the higher side became too high
      have hsgn : bf = s.sgn := by cases s <;> simp only [Side.sgn] at hf ⊢ <;> omega
      have hne : bf + s.sgn ≠ 0 := by cases s <;> simp [hsgn, Side.sgn]
      have hne' : bf + s.sgn ≠ s.sgn := by cases s <;> simp [hsgn, Side.sgn]
      have htwo : s.sgn * (bf + s.sgn) = 2 := by cases s <;> simp [hsgn, Side.sgn]
      have hother_height : h = other.height + 1 := by cases s <;> simp only [Side.sgn] at hf hsgn <;> omega
      rw [if_neg hne, if_neg hne']
      rw [BalTree.node_eq s] at htree hnodup₁ hbal hheight horder
      rw [BalTree.node_eq s, ← horder]
      obtain ⟨hb_eq, hblow, hbhigh, hA, hB⟩ := BalTree.balanced_onSide.1 hbal
      rw [BalTree.height_onSide] at hheight
      rw [Nat.max_eq_left (by omega)] at hc
      by_cases houter : b = s.sgn
      · have hone : s.sgn * b = 1 := by cases s <;> simp [houter, Side.sgn]
        obtain ⟨t', T', hrun, ht', hbal', horder', hheight', -, -, hsame'⟩ :=
          avlRotate_once htree hnodup₁ htwo hb_eq hA hB hother (by omega) (by omega) (by omega)
        refine ⟨t', _, by rw [if_pos houter, hrun], ht', ?_, toList_plug_congr horder', hsame.trans hsame'⟩
        exact balanced_plug.2
          ⟨hbal', by rwa [hheight', show max (child s.flip).height other.height + 2 = h + 1 by omega]⟩
      · have hone : s.sgn * b = -1 := by cases s <;> simp only [Side.sgn] at houter ⊢ <;> omega
        obtain ⟨br, r, ch, hr⟩ : ∃ br r ch, child s.flip = .node br r ch := by
          cases hcase : child s.flip with
          | nil => rw [hcase] at hb_eq hheight; simp only [BalTree.height] at hb_eq hheight; omega
          | node br r ch => exact ⟨br, r, ch, rfl⟩
        rw [hr, BalTree.node_eq s] at htree hnodup₁ hbal hheight horder hb_eq
        rw [hr, BalTree.node_eq s]
        obtain ⟨t₂, t', T', hrun₂, hq, hparent_r, hrun, ht', hbal', horder', hheight', -, -, hsame'⟩ :=
          avlRotate_twice htree hnodup₁ htwo hbal hother (by omega) (by omega)
        refine ⟨t', _, ?_, ht', ?_, toList_plug_congr horder', hsame.trans hsame'⟩
        · rw [if_neg houter, hrun₂]
          simp [hq, hparent_r, hrun]
        · exact balanced_plug.2 ⟨hbal', by rwa [hheight', show other.height + 2 = h + 1 by omega]⟩
    · -- the parent became one higher as well
      have hzero : bf = 0 := by cases s <;> simp only [Side.sgn] at hf ⊢ <;> omega
      have hne : bf + s.sgn ≠ 0 := by cases s <;> simp [hzero, Side.sgn]
      rw [if_neg hne, if_pos (by omega)]
      have hbal₁ : (BalTree.onSide s (bf + s.sgn) pf (.node b p child) other).Balanced := by
        rw [BalTree.balanced_onSide, hheight]
        cases s <;> simp only [Side.sgn] at hf ⊢ <;> exact ⟨by push_cast; omega, by omega, by omega, hbal, hother⟩
      have hheight₁ : (BalTree.onSide s (bf + s.sgn) pf (.node b p child) other).height =
          max h other.height + 1 + 1 := by
        rw [BalTree.height_onSide, hheight]
        omega
      exact horder ▸ (ih htree hnodup₁ hbal₁ hne hheight₁ hc (by simpa using hn)).after hsame

/-! ## After a deletion -/

/-- One side of `p` has become one lower than its balance says. -/
theorem lowered_spec {postDelete : AvlTree K → Ptr → Option (AvlTree K)}
    (hpost : ∀ {t : AvlTree K} {b p child}, IsTree t (plug c (.node b p child)) →
    (plug c (.node b p child)).toList.Nodup →
      (BalTree.node b p child).Balanced → Around c ((BalTree.node b p child).height + 1) →
      Restored t (plug c (.node b p child)).toList (postDelete t p))
    (ht : IsTree t (plug c (.onSide s b p A B))) (hnodup : (plug c (.onSide s b p A B)).toList.Nodup)
    (hb : s.sgn * b = A.height + 1 - B.height) (hlow : -1 ≤ b) (hhigh : b ≤ 1) (hA : A.Balanced) (hB : B.Balanced)
    (hc : Around c (max (A.height + 1) B.height + 1)) :
    Restored t (plug c (.onSide s b p A B)).toList (lowered postDelete t p s) := by
  obtain ⟨t₁, ht₁⟩ : ∃ t₁, t₁ = t.setBalance p (b - s.sgn) := ⟨_, rfl⟩
  have htree : IsTree t₁ (plug c (.onSide s (b - s.sgn) p A B)) := by
    rw [ht₁]
    exact isTree_setBalance ht hnodup _
  have hsame : SameList t t₁ := by
    rw [ht₁]
    exact sameList_setBalance ..
  have horder : (plug c (.onSide s (b - s.sgn) p A B)).toList = (plug c (.onSide s b p A B)).toList :=
    toList_plug_congr (by rw [BalTree.toList_onSide, BalTree.toList_onSide])
  rw [← horder] at hnodup ⊢
  have hbal₁ : t₁.balance p = b - s.sgn := (isTree_node htree).2
  unfold lowered
  simp only [(isTree_node ht).2, ← ht₁, hbal₁]
  rcases lt_trichotomy A.height B.height with hlower | heq | hhigher
  · have hne : b - s.sgn ≠ 0 := by cases s <;> simp only [Side.sgn] at hb ⊢ <;> omega
    rw [if_neg hne]
    rcases Nat.lt_or_ge (A.height + 1) B.height with htoo | hone
    · -- the other side is too high now
      have hb_neg : b = -s.sgn := by cases s <;> simp only [Side.sgn] at hb ⊢ <;> omega
      have hB_height : B.height = A.height + 2 := by cases s <;> simp only [Side.sgn] at hb <;> omega
      have htwo : s.flip.sgn * (b - s.sgn) = 2 := by cases s <;> simp [hb_neg, Side.sgn, Side.flip]
      have hne' : b - s.sgn ≠ -s.sgn := by cases s <;> simp [hb_neg, Side.sgn]
      rw [if_neg hne']
      obtain ⟨bo, o, ch, rfl⟩ : ∃ bo o ch, B = .node bo o ch := by
        cases B with
        | nil => simp only [BalTree.height] at hB_height; omega
        | node bo o ch => exact ⟨bo, o, ch, rfl⟩
      rw [← BalTree.onSide_flip, BalTree.node_eq s.flip] at htree hnodup ⊢
      rw [BalTree.node_eq s.flip] at hB hB_height
      rw [show max (A.height + 1) (BalTree.node bo o ch).height + 1 = A.height + 3 by
        rw [BalTree.node_eq s.flip, hB_height]; omega] at hc
      obtain ⟨hbo, hbolow, hbohigh, hO₁, hO₂⟩ := BalTree.balanced_onSide.1 hB
      rw [BalTree.height_onSide] at hB_height
      have hother : t₁.child p s.flip = some o ∧ t₁.balance o = bo := by
        obtain ⟨r, -, hT⟩ := isTree_plug.1 htree
        obtain ⟨-, -, -, ho, -⟩ := rep_onSide.1 hT
        obtain ⟨hr, -, hbal, -⟩ := rep_onSide.1 ho
        exact ⟨hr, hbal⟩
      rw [hother.1, Option.bind_eq_bind, Option.bind_some, hother.2]
      by_cases hlevel : bo = 0
      · rw [hlevel, mul_zero] at hbo
        obtain ⟨t', T', hrun, ht', hbal', horder', hheight', -, -, hsame'⟩ :=
          avlRotate_once htree hnodup htwo (by rw [hlevel, mul_zero]; exact hbo) hO₁ hO₂ hA (by omega)
            (by omega) (by omega)
        refine ⟨t', _, by rw [if_pos hlevel, hrun], ht', ?_, toList_plug_congr horder', hsame.trans hsame'⟩
        exact balanced_plug.2 ⟨hbal', by
          rwa [hheight', show max (ch s.flip.flip).height A.height + 2 = A.height + 3 by omega]⟩
      rw [if_neg hlevel]
      by_cases houter : bo = -s.sgn
      · have hone : s.flip.sgn * bo = 1 := by cases s <;> simp [houter, Side.sgn, Side.flip]
        obtain ⟨t', T', hrun, ht', hbal', horder', hheight', hparent, ⟨b', X, Y, rfl⟩, hsame'⟩ :=
          avlRotate_once htree hnodup htwo hbo hO₁ hO₂ hA (by omega) (by omega) (by omega)
        have hnodup' := hnodup
        rw [← toList_plug_congr horder'] at hnodup' ⊢
        rw [if_pos houter, hrun]
        simp only [Option.bind_eq_bind, Option.bind_some, hparent]
        refine (hpost ht' hnodup' hbal' ?_).after (hsame.trans hsame')
        change Around c ((BalTree.onSide s.flip b' o X Y).height + 1)
        rwa [hheight', show max (ch s.flip.flip).height A.height + 2 + 1 = A.height + 3 by omega]
      · have hone : s.flip.sgn * bo = -1 := by cases s <;> simp only [Side.sgn, Side.flip] at houter ⊢ <;> omega
        obtain ⟨br, r, ch', hr⟩ : ∃ br r ch', ch s.flip.flip = .node br r ch' := by
          cases hcase : ch s.flip.flip with
          | nil => rw [hcase] at hbo hB_height; simp only [BalTree.height] at hbo hB_height; omega
          | node br r ch' => exact ⟨br, r, ch', rfl⟩
        rw [hr, BalTree.node_eq s.flip] at htree hnodup hB hB_height hbo
        rw [hr, @BalTree.node_eq _ br r ch' s.flip]
        obtain ⟨t₂, t', T', hrun₂, -, -, hrun, ht', hbal', horder', hheight', hparent, ⟨b', X, Y, rfl⟩, hsame'⟩ :=
          avlRotate_twice htree hnodup htwo hB hA (by omega) (by omega)
        have hnodup' := hnodup
        rw [← toList_plug_congr horder'] at hnodup' ⊢
        rw [Side.flip_flip] at hrun₂
        rw [if_neg houter, hrun₂]
        simp only [Option.bind_eq_bind, Option.bind_some, hrun, hparent]
        refine (hpost ht' hnodup' hbal' ?_).after (hsame.trans hsame')
        change Around c ((BalTree.onSide s.flip b' r X Y).height + 1)
        rwa [hheight']
    · -- the other side is the higher one now
      have hB_height : B.height = A.height + 1 := by omega
      have hzero : b = 0 := by cases s <;> simp only [Side.sgn] at hb ⊢ <;> omega
      refine ⟨t₁, _, if_pos (by omega), htree, ?_, rfl, hsame⟩
      rw [balanced_plug, BalTree.balanced_onSide, BalTree.height_onSide, hzero]
      rw [show max (A.height + 1) B.height = max A.height B.height by omega] at hc
      cases s <;> simp only [Side.sgn] <;> exact ⟨⟨by omega, by omega, by omega, hA, hB⟩, hc⟩
  · -- the sides are as high as each other now
    have hzero : b - s.sgn = 0 := by cases s <;> simp only [Side.sgn] at hb ⊢ <;> omega
    rw [if_pos hzero]
    refine (hpost htree hnodup ?_ ?_).after hsame
    · refine BalTree.balanced_onSide.2 ⟨?_, by omega, by omega, hA, hB⟩
      rw [hzero]
      omega
    · change Around c ((BalTree.onSide s (b - s.sgn) p A B).height + 1)
      rw [BalTree.height_onSide]
      rwa [show max (A.height + 1) B.height + 1 = max A.height B.height + 1 + 1 by omega] at hc
  · exfalso
    cases s <;> simp only [Side.sgn] at hb <;> omega

/-- The place has become one lower than the balances above it say. -/
theorem avlPostDelete_spec {n : Nat} {child : Side → BalTree Ptr} (ht : IsTree t (plug c (.node b p child)))
    (hnodup : (plug c (.node b p child)).toList.Nodup) (hbal : (BalTree.node b p child).Balanced)
    (hc : Around c ((BalTree.node b p child).height + 1)) (hn : c.length ≤ n) :
    Restored t (plug c (.node b p child)).toList (avlPostDelete n t p) := by
  induction c generalizing n t b p child with
  | nil =>
    obtain ⟨_, -, -, hparent, -⟩ := isTree_plug.1 ht
    refine ⟨t, _, ?_, ht, hbal, rfl, .refl t⟩
    unfold avlPostDelete
    rw [hparent]
    rfl
  | cons f c ih =>
    obtain ⟨n, rfl⟩ : ∃ m, n = m + 1 := ⟨n - 1, by simp at hn; omega⟩
    obtain ⟨hf, hlow, hhigh, hother, hc⟩ := hc
    obtain ⟨hparent, hside, -⟩ := isTree_frame ht hnodup
    unfold avlPostDelete
    simp only [hparent, hside]
    exact lowered_spec (fun ht hnodup hbal hc => ih ht hnodup hbal hc (by simpa using hn)) ht hnodup hf hlow hhigh hbal
      hother hc

end Olsrd.Common
