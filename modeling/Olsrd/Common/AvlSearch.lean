/-
What an AVL tree holds: groups of members with one key each, the first of them in the tree and all of them in the list.
The search finds a group, or the place for a new one.
-/
import Olsrd.Common.AvlBalance
import Olsrd.Common.AvlList

namespace Olsrd.Common

open BalancedTree DoubleChain

/-- The keys are in a total order, as the comparison tells it by the sign of its value. -/
structure KeyOrder {K : Type} (comp : K → K → Int) : Prop where
  swap : ∀ a b, 0 < comp b a ↔ comp a b < 0
  trans : ∀ a b c, comp a b ≤ 0 → comp b c ≤ 0 → comp a c ≤ 0

variable {K : Type} {comp : K → K → Int} {t t' : AvlTree K} {k k' : K} {p q : Ptr}

namespace KeyOrder

variable {a b c : K}

theorem symm (h : KeyOrder comp) (hab : comp a b = 0) : comp b a = 0 := by
  have h₁ := h.swap a b
  have h₂ := h.swap b a
  omega

theorem self (h : KeyOrder comp) (a : K) : comp a a = 0 := by
  have h₁ := h.swap a a
  omega

theorem lt_of_lt_of_le (h : KeyOrder comp) (hab : comp a b < 0) (hbc : comp b c ≤ 0) : comp a c < 0 := by
  have hac := h.trans a b c (le_of_lt hab) hbc
  refine lt_of_le_of_ne hac fun heq => ?_
  have hba := h.trans b c a hbc (le_of_eq (h.symm heq))
  have := (h.swap a b).2 hab
  omega

theorem lt_of_le_of_lt (h : KeyOrder comp) (hab : comp a b ≤ 0) (hbc : comp b c < 0) : comp a c < 0 := by
  have hac := h.trans a b c hab (le_of_lt hbc)
  refine lt_of_le_of_ne hac fun heq => ?_
  have hcb := h.trans c a b (le_of_eq (h.symm heq)) hab
  have := (h.swap b c).2 hbc
  omega

theorem eq_trans (h : KeyOrder comp) (hab : comp a b = 0) (hbc : comp b c = 0) : comp a c = 0 := by
  have hac := h.trans a b c (le_of_eq hab) (le_of_eq hbc)
  have hca := h.trans c b a (le_of_eq (h.symm hbc)) (le_of_eq (h.symm hab))
  have hswap := h.swap a c
  omega

end KeyOrder

theorem ip4cmp_cases (a b : UInt32) : (a < b ∧ ip4cmp a b = -1) ∨ (¬a < b ∧ b < a ∧ ip4cmp a b = 1) ∨
    (¬a < b ∧ ¬b < a ∧ ip4cmp a b = 0) := by
  unfold ip4cmp
  simp only [UInt32.lt_iff_toNat_lt]
  grind

theorem keyOrder_ip4cmp : KeyOrder ip4cmp := by
  constructor <;> intros <;> unfold ip4cmp at * <;> simp only [UInt32.lt_iff_toNat_lt] at * <;> grind

/-! ## The search in the tree -/

/-- The search for IPv4 addresses is the one with their comparison. -/
theorem avlFindRecIpv4_eq (t : AvlTree UInt32) (key : UInt32) (n : Nat) (p : Ptr) :
    avlFindRecIpv4 t key n p = avlFindRec ip4cmp t key n p := by
  induction n generalizing p with
  | zero =>
    unfold avlFindRecIpv4 avlFindRec
    rcases ip4cmp_cases key (t.key p) with ⟨hlt, hcmp⟩ | ⟨hnlt, hgt, hcmp⟩ | ⟨hnlt, hngt, hcmp⟩
    · cases hchild : t.child p .left <;> simp [hlt, hcmp, hchild]
    · cases hchild : t.child p .right <;> simp [hnlt, hgt, hcmp, hchild]
    · simp [hnlt, hngt, hcmp]
  | succ n ih =>
    unfold avlFindRecIpv4 avlFindRec
    rcases ip4cmp_cases key (t.key p) with ⟨hlt, hcmp⟩ | ⟨hnlt, hgt, hcmp⟩ | ⟨hnlt, hngt, hcmp⟩
    · cases hchild : t.child p .left <;> simp [hlt, hcmp, hchild, ih]
    · cases hchild : t.child p .right <;> simp [hnlt, hgt, hcmp, hchild, ih]
    · simp [hnlt, hngt, hcmp]

/-- The search ends at a node with the key, or where a new one has its place. -/
theorem avlFindRec_spec (hcomp : KeyOrder comp) (k : K) {T : BalTree Ptr} {parent : Option Ptr} {n : Nat}
    (hT : Rep t parent (some p) T) (hsorted : T.toList.Pairwise fun a b => comp (t.key a) (t.key b) < 0)
    (hn : T.height ≤ n + 1) : ∃ q c b child, avlFindRec comp t k n p = some q ∧ T = plug c (.node b q child) ∧
      (∀ x ∈ before c, comp (t.key x) k < 0) ∧ (∀ x ∈ behind c, comp k (t.key x) < 0) ∧
      (comp k (t.key q) = 0 ∨ child (if comp k (t.key q) < 0 then .left else .right) = .nil) := by
  induction T generalizing p parent n with
  | nil => cases hT
  | node b p' child ih =>
    obtain ⟨hp, -, -, hchild⟩ := hT
    obtain rfl : p = p' := Option.some.inj hp
    by_cases hzero : comp k (t.key p) = 0
    · refine ⟨p, [], b, child, ?_, rfl, by simp [before], by simp [behind], Or.inl hzero⟩
      unfold avlFindRec
      simp only [hzero, if_true]
    obtain ⟨s, hs⟩ : ∃ s : Side, s = if comp k (t.key p) < 0 then .left else .right := ⟨_, rfl⟩
    have hc := hchild s
    cases hside : child s with
    | nil =>
      rw [hside] at hc
      refine ⟨p, [], b, child, ?_, rfl, by simp [before], by simp [behind], Or.inr (hs ▸ hside)⟩
      unfold avlFindRec
      rw [if_neg hzero, ← hs, show t.child p s = none from hc]
    | node b' q' child' =>
      have hq : t.child p s = some q' := by
        rw [hside] at hc
        exact hc.1
      obtain ⟨n, rfl⟩ : ∃ m, n = m + 1 := by
        have hpos : 1 ≤ (child s).height := by
          rw [hside, BalTree.height]
          omega
        refine ⟨n - 1, ?_⟩
        cases s <;> rw [BalTree.height] at hn <;> omega
      have hn' : (child s).height ≤ n + 1 := by cases s <;> rw [BalTree.height] at hn <;> omega
      rw [BalTree.toList, List.pairwise_append, List.pairwise_cons] at hsorted
      obtain ⟨hleft, ⟨hpr, hright⟩, hlr⟩ := hsorted
      have hsorted' : (child s).toList.Pairwise fun a b => comp (t.key a) (t.key b) < 0 := by cases s <;> assumption
      obtain ⟨q, c, b'', child'', hrun, hplug, hbefore, hbehind, hend⟩ := ih s (hq ▸ hc) hsorted' hn'
      refine ⟨q, c ++ [⟨s, b, p, child s.flip⟩], b'', child'', ?_, ?_, ?_, ?_, hend⟩
      · unfold avlFindRec
        rw [if_neg hzero, ← hs, hq]
        exact hrun
      · rw [plug_append, ← hplug, BalTree.node_eq s]
        rfl
      · rw [before_append]
        intro x hx
        rcases List.mem_append.1 hx with hx | hx
        · cases s with
          | left => simp [before] at hx
          | right =>
            have hpk : comp (t.key p) k < 0 := by
              rw [← hcomp.swap]
              by_contra hle
              rw [if_pos (by omega)] at hs
              cases hs
            simp only [before, List.nil_append, List.mem_append, List.mem_singleton] at hx
            rcases hx with hx | rfl
            · exact hcomp.lt_of_lt_of_le (hlr x hx p (List.mem_cons_self ..)) (le_of_lt hpk)
            · exact hpk
        · exact hbefore x hx
      · rw [behind_append]
        intro x hx
        rcases List.mem_append.1 hx with hx | hx
        · exact hbehind x hx
        · cases s with
          | right => simp [behind] at hx
          | left =>
            have hkp : comp k (t.key p) < 0 := by
              by_contra hle
              rw [if_neg hle] at hs
              cases hs
            simp only [behind, List.append_nil, List.mem_cons] at hx
            rcases hx with rfl | hx
            · exact hkp
            · exact hcomp.lt_of_lt_of_le hkp (le_of_lt (hpr x hx))

/-- The search for the last node of a group goes over those that are no leaders. -/
theorem lastOfKey_spec {dups : List Ptr} {b e : Option Ptr} {n : Nat} (h : Linked t.next t.prev b (p :: dups) e)
    (hdups : ∀ d ∈ dups, t.leader d = false) (he : ∀ x, e = some x → t.leader x = true) (hn : dups.length ≤ n) :
    ∃ l x, p :: dups = l ++ [x] ∧ lastOfKey t n p = some x := by
  induction dups generalizing p b n with
  | nil =>
    obtain ⟨-, hnext, -⟩ := h
    refine ⟨[], p, rfl, ?_⟩
    unfold lastOfKey
    rw [hnext]
    cases e with
    | none => rfl
    | some x => simp [he x rfl]
  | cons d dups ih =>
    obtain ⟨-, hnext, h⟩ := h
    obtain ⟨n, rfl⟩ : ∃ m, n = m + 1 := ⟨n - 1, by simp at hn; omega⟩
    obtain ⟨l, x, hl, hrun⟩ := ih h (fun d' hd' => hdups d' (List.mem_cons_of_mem _ hd')) (by simpa using hn)
    refine ⟨p :: l, x, by rw [hl]; rfl, ?_⟩
    unfold lastOfKey
    rw [hnext]
    simp [hdups d (List.mem_cons_self ..), hrun]

end Olsrd.Common
