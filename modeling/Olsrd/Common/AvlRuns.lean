/-
Runs of insertions into an AVL tree and deletions from it.
-/
import Olsrd.Common.AvlMembers

namespace Olsrd.Common

open BalancedTree DoubleChain

variable {K : Type} {comp : K → K → Int} {t t' : AvlTree K} {T : BalTree Ptr} {node new p q : Ptr} {k : K}
  {groups groups' : List Group} {ms : List (Ptr × K)}

/-- A tree, and its members in the order of their insertion -/
structure AvlState (K : Type) where
  tree : AvlTree K
  inserted : List (Ptr × K)

/-- What happens to a tree. Between two operations there may be writes to memory that no member is in. -/
inductive AvlEvent (K : Type)
  | insert (new : Ptr) (allowDuplicates : Bool)
  | delete (node : Ptr)
  | elsewhere (t : AvlTree K)

namespace AvlState

def members (s : AvlState K) : List Ptr := s.inserted.map Prod.fst

/-- `avl_init` -/
def Fresh (s : AvlState K) : Prop := ∃ t, s = ⟨avlInit t, []⟩

/-- A node that is inserted is no member, and one that is deleted is. -/
def Valid (s : AvlState K) : AvlEvent K → Prop
  | .insert new _ => new ∉ s.members
  | .delete node => node ∈ s.members
  | .elsewhere t => Unchanged s.tree t s.members

instance [DecidableEq K] (s : AvlState K) : DecidablePred s.Valid
  | .insert new _ => inferInstanceAs (Decidable (new ∉ s.members))
  | .delete node => inferInstanceAs (Decidable (node ∈ s.members))
  | .elsewhere t => inferInstanceAs (Decidable (Unchanged s.tree t s.members))

def step (comp : K → K → Int) (s : AvlState K) : AvlEvent K → Option (AvlState K)
  | .insert new allowDuplicates => do
    let (t, _) ← avlInsert comp s.tree new allowDuplicates
    pure ⟨t, insertMember comp s.inserted new (s.tree.key new) allowDuplicates⟩
  | .delete node => do
    let t ← avlDelete s.tree node
    pure ⟨t, deleteMember s.inserted node⟩
  | .elsewhere t => some ⟨t, s.inserted⟩

/-- The groups that the tree holds are those of the members. -/
def Sound (comp : K → K → Int) (s : AvlState K) : Prop :=
  ∃ T groups, Holds comp s.tree T groups ∧ Gathers comp s.tree.key groups s.inserted

end AvlState

open AvlState

theorem holds_avlInit (t : AvlTree K) : Holds comp (avlInit t) .nil [] where
  tree := rfl
  balanced := trivial
  leaders := rfl
  list := ⟨rfl, rfl, trivial, List.nodup_nil, rfl⟩
  ordered := .nil
  same := by simp
  leader := by simp
  dups := by simp

theorem sound_avlInit (t : AvlTree K) : Sound comp ⟨avlInit t, []⟩ :=
  ⟨.nil, [], holds_avlInit t, .nil, by simp, fun _ => rfl⟩

/-- An insertion, with the value that it returns -/
theorem AvlState.Sound.insert (hcomp : KeyOrder comp) {s : AvlState K} (h : Sound comp s)
    (hnew : new ∉ s.members) (dup : Bool) :
    ∃ t' ret, avlInsert comp s.tree new dup = some (t', ret) ∧
      Sound comp ⟨t', insertMember comp s.inserted new (s.tree.key new) dup⟩ ∧
      (if refused comp s.inserted (s.tree.key new) dup then ret = -1 ∧ Unchanged s.tree t' s.members else ret = 0) := by
  obtain ⟨T, groups, hholds, hms⟩ := h
  have hmem : ∀ {p}, p ∈ Common.members groups ↔ p ∈ s.members := hms.perm.mem_iff
  obtain ⟨t', ret, T', groups', hrun, hkey, hholds', hinserted, hsame⟩ :=
    avlInsert_spec hcomp hholds (mt hmem.1 hnew) dup
  refine ⟨t', ret, hrun, ?_⟩
  obtain ⟨rfl, rfl, rfl, p, hp, hpk⟩ | ⟨rfl, hfree, l₁, l₂, hold, hput, hbehind⟩ := hinserted.shape hcomp hholds
  · have hrefused : refused comp s.inserted (s.tree.key new) false = true := by
      rw [refused, Bool.not_false, Bool.true_and, List.any_eq_true]
      exact ⟨(p, s.tree.key p), hms.mem hp, decide_eq_true hpk⟩
    have hun := hsame rfl
    rw [insertMember, if_pos hrefused, if_pos hrefused]
    refine ⟨⟨T', _, hholds', hms.congr fun q _ => by rw [hkey]⟩, rfl, hun.root, hun.first, hun.last, hun.count, ?_⟩
    exact fun q hq => hun.member q (hmem.2 hq)
  · have hrefused : refused comp s.inserted (s.tree.key new) dup = false := by
      rcases hfree with rfl | hfree
      · rfl
      rw [refused, Bool.and_eq_false_iff, List.any_eq_false]
      refine .inr fun m hm => ?_
      have hm' : m.1 ∈ Common.members groups := hmem.2 (List.mem_map_of_mem hm)
      rw [← hms.keys m hm, decide_eq_true_eq]
      exact hfree m.1 hm'
    rw [insertMember, hrefused, if_neg (by decide), if_neg (by decide)]
    exact ⟨⟨T', groups', hholds', (hms.insert hcomp hold hput hbehind).congr fun q _ => by rw [hkey]⟩, rfl⟩

theorem AvlState.Sound.delete (hcomp : KeyOrder comp) {s : AvlState K} (h : Sound comp s) (hnode : node ∈ s.members) :
    ∃ t', avlDelete s.tree node = some t' ∧ Sound comp ⟨t', deleteMember s.inserted node⟩ := by
  obtain ⟨T, groups, hholds, hms⟩ := h
  obtain ⟨t', T', groups', hrun, hkey, hholds', hdeleted⟩ := avlDelete_spec hcomp hholds (hms.perm.mem_iff.2 hnode)
  have hgathers := hms.delete (hdeleted.members_eq hholds.list.nodup)
  exact ⟨t', hrun, T', groups', hholds', hgathers.congr fun q _ => by rw [hkey]⟩

theorem AvlState.Sound.elsewhere {s : AvlState K} (h : Sound comp s) (hsame : Unchanged s.tree t' s.members) :
    Sound comp ⟨t', s.inserted⟩ := by
  obtain ⟨T, groups, hholds, hms⟩ := h
  have hun : Unchanged s.tree t' (Common.members groups) :=
    ⟨hsame.root, hsame.first, hsame.last, hsame.count, fun p hp => hsame.member p (hms.perm.mem_iff.1 hp)⟩
  exact ⟨T, groups, hholds.unchanged hun, hms.congr fun p hp => (hun.member p hp).key⟩

/-- Every event that is valid has a result. -/
theorem AvlState.Sound.step (hcomp : KeyOrder comp) {s : AvlState K} (h : Sound comp s) {e : AvlEvent K}
    (hvalid : s.Valid e) :
    ∃ s', s.step comp e = some s' ∧ Sound comp s' := by
  cases e with
  | insert new dup =>
    obtain ⟨t', ret, hrun, hsound, -⟩ := h.insert hcomp hvalid dup
    exact ⟨_, by rw [AvlState.step, hrun]; rfl, hsound⟩
  | delete node =>
    obtain ⟨t', hrun, hsound⟩ := h.delete hcomp hvalid
    exact ⟨_, by rw [AvlState.step, hrun]; rfl, hsound⟩
  | elsewhere t' => exact ⟨_, rfl, h.elsewhere hvalid⟩

theorem sound_of_reaches (hcomp : KeyOrder comp) {s : AvlState K} (h : Run.Reaches Fresh Valid (AvlState.step comp) s) :
    Sound comp s := by
  refine h.invariant ?_ ?_
  · rintro s ⟨t, rfl⟩
    exact sound_avlInit t
  · intro s e s' hs hvalid hstep
    obtain ⟨s₁, hs₁, hsound⟩ := hs.step hcomp hvalid
    obtain rfl := Option.some.inj (hs₁.symm.trans hstep)
    exact hsound

/-- `avl_find` -/
theorem AvlState.Sound.find (hcomp : KeyOrder comp) {s : AvlState K} (h : Sound comp s) (k : K) :
    avlFind comp s.tree k = some (firstMember comp s.inserted k) := by
  obtain ⟨T, groups, hholds, hms⟩ := h
  have hfirst : firstMember comp s.inserted k = (ofKey comp s.tree.key k (Common.members groups)).head? := by
    rw [firstMember_eq_head, hms.sameKey]
  rw [hfirst, avlFind]
  cases hroot : s.tree.root with
  | none =>
    obtain ⟨-, rfl⟩ := hholds.eq_nil hroot
    rfl
  | some root =>
    obtain ⟨G₁, ds, G₂, c, b, child, q, rfl, -, hrun, hend⟩ := hholds.search hcomp hroot k
    have hordered := hholds.ordered
    rw [List.pairwise_append, List.pairwise_cons] at hordered
    by_cases hk : comp (s.tree.key q) k = 0
    · rw [(hholds.ofKey_group hcomp hk).1]
      simp [hrun, hk]
    · -- the key is on neither side of the node at which the search ends
      have hnone : ∀ g ∈ G₁ ++ (q, ds) :: G₂, comp (s.tree.key g.1) k ≠ 0 := by
        intro g hg heq
        have hkg := hcomp.symm heq
        rcases List.mem_append.1 hg with hg | hg
        · have hlt : comp (s.tree.key g.1) (s.tree.key q) < 0 := hordered.2.2 g hg (q, ds) (List.mem_cons_self ..)
          have hkq := hcomp.lt_of_le_of_lt (le_of_eq hkg) hlt
          rcases hend with hzero | ⟨-, -, hbefore⟩ | ⟨hgt, -, -⟩
          · omega
          · have := hbefore g hg
            omega
          · omega
        rcases List.mem_cons.1 hg with rfl | hg
        · exact hk heq
        · have hlt : comp (s.tree.key q) (s.tree.key g.1) < 0 := hordered.2.1.1 g hg
          have hqk := hcomp.lt_of_lt_of_le hlt (le_of_eq heq)
          have hswap := hcomp.swap (s.tree.key q) k
          rcases hend with hzero | ⟨hgt, -, -⟩ | ⟨-, -, hbehind⟩
          · omega
          · omega
          · have := hbehind g hg
            omega
      rw [(hholds.ofKey_absent hcomp (List.Subset.refl _) hnone).1]
      simp [hrun, hk]

/-- Any run of insertions and deletions keeps the tree in order. -/
theorem avl_keeps (hcomp : KeyOrder comp) {s : AvlState K} (h : Run.Reaches Fresh Valid (AvlState.step comp) s) :
    (∃ T l, Keeps comp s.tree T l s.inserted) ∧ (∀ k, avlFind comp s.tree k = some (firstMember comp s.inserted k)) ∧
      (∀ e, s.Valid e → ∃ s', s.step comp e = some s') ∧
      ∀ new dup, new ∉ s.members → ∃ t' ret, avlInsert comp s.tree new dup = some (t', ret) ∧
        (if refused comp s.inserted (s.tree.key new) dup then ret = -1 ∧ Unchanged s.tree t' s.members
          else ret = 0) := by
  have hsound := sound_of_reaches hcomp h
  refine ⟨?_, hsound.find hcomp, fun e he => ?_, fun new dup hnew => ?_⟩
  · obtain ⟨T, groups, hholds, hms⟩ := hsound
    exact ⟨T, members groups, hholds.keeps hcomp hms⟩
  · obtain ⟨s', hs', -⟩ := hsound.step hcomp he
    exact ⟨s', hs'⟩
  · obtain ⟨t', ret, hrun, -, hret⟩ := hsound.insert hcomp hnew dup
    exact ⟨t', ret, hrun, hret⟩

/-- Nodes 1 and 2 have one key. -/
def threeNodes : AvlTree UInt32 where
  root := none
  first := none
  last := none
  count := 0
  parent _ := none
  child _ _ := none
  next _ := none
  prev _ := none
  key p := if p = 3 then 20 else 10
  balance _ := 0
  leader _ := false

def threeEvents : List (AvlEvent UInt32) := [.insert 1 true, .insert 3 false, .insert 2 true, .delete 1]

theorem avl_keeps_ip4 : ∃ s : AvlState UInt32, s.inserted = [(3, 20), (2, 10)] ∧
    (∃ T l, Keeps ip4cmp s.tree T l s.inserted) ∧ avlFind ip4cmp s.tree 10 = some (some 2) := by
  have hrun : (Run.forEach (AvlState.step ip4cmp) threeEvents ⟨avlInit threeNodes, []⟩).map AvlState.inserted =
      some [(3, 20), (2, 10)] := by decide +kernel
  obtain ⟨s, hs, hinserted⟩ := Option.map_eq_some_iff.1 hrun
  have hreach : Run.Reaches Fresh Valid (AvlState.step ip4cmp) s :=
    Run.reaches_forEach (.init ⟨threeNodes, rfl⟩) (by decide +kernel) hs
  obtain ⟨hkeeps, hfind, -, -⟩ := avl_keeps keyOrder_ip4cmp hreach
  refine ⟨s, hinserted, hkeeps, ?_⟩
  rw [hfind, hinserted]
  decide

end Olsrd.Common
