/-
What an AVL tree is for: it keeps its members in the order of their keys, those with one key in the order of their
insertion, and a search finds the first with a key. Every run of insertions and deletions does so.
-/
import Olsrd.Common.AvlDelete
import Olsrd.Common.AvlInsert
import Olsrd.Lib.Run

namespace Olsrd.Common

open BalancedTree DoubleChain

variable {K : Type} {comp : K → K → Int} {t t' : AvlTree K} {T : BalTree Ptr} {new node p q : Ptr} {k : K}
  {groups groups' G : List Group} {key key' : Ptr → K} {ms : List (Ptr × K)} {l l₁ l₂ : List Ptr}

/-! ## Members in the order of their insertion -/

/-- An insertion without duplicates is refused when there is a member with the key. -/
def refused (comp : K → K → Int) (ms : List (Ptr × K)) (k : K) (allowDuplicates : Bool) : Bool :=
  !allowDuplicates && ms.any fun m => comp k m.2 = 0

def insertMember (comp : K → K → Int) (ms : List (Ptr × K)) (new : Ptr) (k : K) (allowDuplicates : Bool) :
    List (Ptr × K) :=
  if refused comp ms k allowDuplicates then ms else ms ++ [(new, k)]

def deleteMember (ms : List (Ptr × K)) (node : Ptr) : List (Ptr × K) := ms.filter fun m => m.1 ≠ node

/-- The member with the key that was inserted first -/
def firstMember (comp : K → K → Int) (ms : List (Ptr × K)) (k : K) : Option Ptr :=
  (ms.find? fun m => comp m.2 k = 0).map Prod.fst

def membersOfKey (comp : K → K → Int) (ms : List (Ptr × K)) (k : K) : List Ptr :=
  (ms.filter fun m => comp m.2 k = 0).map Prod.fst

/-- The nodes of a list that have a key -/
def ofKey (comp : K → K → Int) (key : Ptr → K) (k : K) (l : List Ptr) : List Ptr := l.filter fun p => comp (key p) k = 0

/-- A tree that is linked in these two ways holds the members. -/
structure Keeps (comp : K → K → Int) (t : AvlTree K) (T : BalTree Ptr) (l : List Ptr) (ms : List (Ptr × K)) : Prop where
  tree : IsTree t T
  balanced : T.Balanced
  searchOrder : T.toList.Pairwise fun p q => comp (t.key p) (t.key q) < 0
  list : IsList t l
  listOrder : l.Pairwise fun p q => comp (t.key p) (t.key q) ≤ 0
  perm : l.Perm (ms.map Prod.fst)
  keys : ∀ m ∈ ms, t.key m.1 = m.2
  count : t.count = ms.length
  leaders : T.toList = l.filter t.leader
  contiguous : ∀ k, ofKey comp t.key k l <:+: l
  insertionOrder : ∀ k, ofKey comp t.key k l = membersOfKey comp ms k
  headed : ∀ k, ofKey comp t.key k T.toList = (ofKey comp t.key k l).take 1

/-- The groups are those of the members. -/
structure Gathers (comp : K → K → Int) (key : Ptr → K) (groups : List Group) (ms : List (Ptr × K)) : Prop where
  perm : (members groups).Perm (ms.map Prod.fst)
  keys : ∀ m ∈ ms, key m.1 = m.2
  sameKey : ∀ k, ofKey comp key k (members groups) = membersOfKey comp ms k

theorem ofKey_append (l₁ l₂ : List Ptr) : ofKey comp key k (l₁ ++ l₂) = ofKey comp key k l₁ ++ ofKey comp key k l₂ :=
  List.filter_append ..

theorem ofKey_eq_nil : ofKey comp key k l = [] ↔ ∀ p ∈ l, comp (key p) k ≠ 0 := by
  simp [ofKey]

theorem ofKey_eq_self : ofKey comp key k l = l ↔ ∀ p ∈ l, comp (key p) k = 0 := by
  simp [ofKey]

theorem firstMember_eq_head (ms : List (Ptr × K)) (k : K) : firstMember comp ms k = (membersOfKey comp ms k).head? := by
  rw [firstMember, membersOfKey, List.head?_map, List.head?_filter]

/-! ## What the groups of a tree are -/

/-- The members of a group have one key. -/
theorem Holds.key_iff (hcomp : KeyOrder comp) (h : Holds comp t T groups) {g : Group} (hg : g ∈ groups)
    (hp : p = g.1 ∨ p ∈ g.2) : comp (t.key p) k = 0 ↔ comp (t.key g.1) k = 0 := by
  rcases hp with rfl | hp
  · rfl
  have hsame := h.same g hg p hp
  exact ⟨hcomp.eq_trans (hcomp.symm hsame), hcomp.eq_trans hsame⟩

theorem Holds.ofKey_absent (hcomp : KeyOrder comp) (h : Holds comp t T groups) (hG : G ⊆ groups)
    (hk : ∀ g ∈ G, comp (t.key g.1) k ≠ 0) : ofKey comp t.key k (members G) = [] ∧
      ofKey comp t.key k (G.map Prod.fst) = [] := by
  rw [ofKey_eq_nil, ofKey_eq_nil]
  constructor
  · intro p hp
    obtain ⟨g, hg, hpg⟩ := mem_members.1 hp
    rw [Ne, h.key_iff hcomp (hG hg) hpg]
    exact hk g hg
  · intro p hp
    obtain ⟨g, hg, rfl⟩ := List.mem_map.1 hp
    exact hk g hg

/-- The members with the key of a group are the group. -/
theorem Holds.ofKey_group (hcomp : KeyOrder comp) {G₁ G₂ : List Group} {ds : List Ptr}
    (h : Holds comp t T (G₁ ++ (q, ds) :: G₂)) (hk : comp (t.key q) k = 0) :
    ofKey comp t.key k (members (G₁ ++ (q, ds) :: G₂)) = q :: ds ∧
      ofKey comp t.key k ((G₁ ++ (q, ds) :: G₂).map Prod.fst) = [q] := by
  have hordered := h.ordered
  rw [List.pairwise_append, List.pairwise_cons] at hordered
  obtain ⟨-, ⟨hbehind, -⟩, hbefore⟩ := hordered
  obtain ⟨hmem₁, hlead₁⟩ := h.ofKey_absent hcomp (List.subset_append_left ..) (G := G₁) (k := k) fun g hg heq => by
    have hlt : comp (t.key g.1) (t.key q) < 0 := hbefore g hg (q, ds) (List.mem_cons_self ..)
    have := hcomp.eq_trans heq (hcomp.symm hk)
    omega
  obtain ⟨hmem₂, hlead₂⟩ := h.ofKey_absent hcomp (fun g hg => by simp [hg]) (G := G₂) (k := k) fun g hg heq => by
    have hlt : comp (t.key q) (t.key g.1) < 0 := hbehind g hg
    have := hcomp.eq_trans hk (hcomp.symm heq)
    omega
  have hgroup : ofKey comp t.key k (q :: ds) = q :: ds := by
    rw [ofKey_eq_self]
    intro p hp
    exact (h.key_iff hcomp (g := (q, ds)) (by simp) (List.mem_cons.1 hp)).2 hk
  have hleader : ofKey comp t.key k [q] = [q] := by
    rw [ofKey_eq_self]
    intro p hp
    rw [List.mem_singleton.1 hp]
    exact hk
  constructor
  · rw [members_append, members_cons, ofKey_append, hmem₁, ← List.cons_append, ofKey_append, hgroup, hmem₂]
    simp
  · rw [List.map_append, List.map_cons, ofKey_append, hlead₁, ← List.singleton_append, ofKey_append, hleader, hlead₂]
    rfl

theorem filter_leader (hleader : ∀ g ∈ groups, t.leader g.1 = true)
    (hdups : ∀ g ∈ groups, ∀ d ∈ g.2, t.leader d = false) : (members groups).filter t.leader = groups.map Prod.fst := by
  induction groups with
  | nil => rfl
  | cons g groups ih =>
    have hnone : g.2.filter t.leader = [] := by
      rw [List.filter_eq_nil_iff]
      intro d hd
      rw [hdups g (List.mem_cons_self ..) d hd]
      decide
    rw [members_cons, List.filter_cons_of_pos (hleader g (List.mem_cons_self ..)), List.filter_append, hnone,
      List.nil_append,
      ih (fun g hg => hleader g (List.mem_cons_of_mem _ hg)) (fun g hg => hdups g (List.mem_cons_of_mem _ hg))]
    rfl

/-- The order of the groups is that of the list. -/
theorem Holds.listOrder (hcomp : KeyOrder comp) (h : Holds comp t T groups) :
    (members groups).Pairwise fun p q => comp (t.key p) (t.key q) ≤ 0 := by
  have hall : ∀ g ∈ groups, ∀ p ∈ g.1 :: g.2, comp (t.key p) (t.key g.1) = 0 := fun g hg p hp =>
    (h.key_iff hcomp hg (List.mem_cons.1 hp)).2 (hcomp.self _)
  unfold members
  rw [List.pairwise_flatMap]
  constructor
  · intro g hg
    refine List.pairwise_of_forall_mem_list fun p hp q hq => ?_
    exact le_of_eq (hcomp.eq_trans (hall g hg p hp) (hcomp.symm (hall g hg q hq)))
  · refine h.ordered.imp_of_mem fun {g g'} hg hg' hlt p hp q hq => ?_
    have hle := hcomp.lt_of_le_of_lt (le_of_eq (hall g hg p hp)) hlt
    exact le_of_lt (hcomp.lt_of_lt_of_le hle (le_of_eq (hcomp.symm (hall g' hg' q hq))))

/-- What the groups hold, the tree keeps. -/
theorem Holds.keeps (hcomp : KeyOrder comp) (h : Holds comp t T groups) (hms : Gathers comp t.key groups ms) :
    Keeps comp t T (members groups) ms where
  tree := h.tree
  balanced := h.balanced
  searchOrder := by
    rw [h.leaders, List.pairwise_map]
    exact h.ordered
  list := h.list
  listOrder := h.listOrder hcomp
  perm := hms.perm
  keys := hms.keys
  count := by rw [h.list.count, hms.perm.length_eq, List.length_map]
  leaders := by rw [h.leaders, filter_leader h.leader h.dups]
  contiguous k := by
    by_cases hk : ∃ g ∈ groups, comp (t.key g.1) k = 0
    · obtain ⟨⟨q, ds⟩, hg, hq⟩ := hk
      obtain ⟨G₁, G₂, rfl⟩ := List.append_of_mem hg
      rw [(h.ofKey_group hcomp hq).1]
      exact ⟨members G₁, members G₂, by rw [members_append, members_cons]; simp⟩
    · rw [(h.ofKey_absent hcomp (List.Subset.refl _) fun g hg heq => hk ⟨g, hg, heq⟩).1]
      exact List.nil_infix
  insertionOrder := hms.sameKey
  headed k := by
    rw [h.leaders]
    by_cases hk : ∃ g ∈ groups, comp (t.key g.1) k = 0
    · obtain ⟨⟨q, ds⟩, hg, hq⟩ := hk
      obtain ⟨G₁, G₂, rfl⟩ := List.append_of_mem hg
      obtain ⟨hmembers, hleaders⟩ := h.ofKey_group hcomp hq
      rw [hmembers, hleaders]
      rfl
    · obtain ⟨hmembers, hleaders⟩ := h.ofKey_absent hcomp (List.Subset.refl _) fun g hg heq => hk ⟨g, hg, heq⟩
      rw [hmembers, hleaders]
      rfl

/-! ## What the operations do to the members -/

theorem Gathers.mem (hms : Gathers comp key groups ms) (hp : p ∈ members groups) : (p, key p) ∈ ms := by
  obtain ⟨m, hm, rfl⟩ := List.mem_map.1 (hms.perm.mem_iff.1 hp)
  rw [hms.keys m hm]
  exact hm

theorem Gathers.congr (hms : Gathers comp key groups ms) (hkey : ∀ p ∈ members groups, key' p = key p) :
    Gathers comp key' groups ms where
  perm := hms.perm
  keys m hm := (hkey m.1 (hms.perm.mem_iff.2 (List.mem_map_of_mem hm))).trans (hms.keys m hm)
  sameKey k := by
    rw [← hms.sameKey k]
    exact List.filter_congr fun p hp => by rw [hkey p hp]

/-- A member that comes behind all others with its key -/
theorem Gathers.insert (hcomp : KeyOrder comp) (hms : Gathers comp key groups ms) (hold : members groups = l₁ ++ l₂)
    (hnew : members groups' = l₁ ++ new :: l₂) (hbehind : ∀ p ∈ l₂, comp (key p) (key new) ≠ 0) :
    Gathers comp key groups' (ms ++ [(new, key new)]) where
  perm := by
    rw [hnew, List.map_append]
    refine List.perm_middle.trans ?_
    rw [← hold]
    exact (hms.perm.cons new).trans (List.perm_append_singleton new _).symm
  keys m hm := by
    rcases List.mem_append.1 hm with hm | hm
    · exact hms.keys m hm
    · rw [List.mem_singleton.1 hm]
  sameKey k := by
    have hof := hms.sameKey k
    rw [hold, ofKey_append] at hof
    have hmembers : membersOfKey comp (ms ++ [(new, key new)]) k =
        membersOfKey comp ms k ++ ofKey comp key k [new] := by
      rw [membersOfKey, List.filter_append, List.map_append]
      by_cases hk : comp (key new) k = 0 <;> simp [membersOfKey, ofKey, hk]
    rw [hnew, hmembers, ← hof, ← List.singleton_append, ofKey_append, ofKey_append, ← List.append_assoc,
      List.append_assoc]
    by_cases hk : comp (key new) k = 0
    · have hnil : ofKey comp key k l₂ = [] := by
        rw [ofKey_eq_nil]
        exact fun p hp heq => hbehind p hp (hcomp.eq_trans heq (hcomp.symm hk))
      rw [hnil]
      simp
    · have hnil : ofKey comp key k [new] = [] := by simpa [ofKey] using hk
      rw [hnil]
      simp

theorem Gathers.delete (hms : Gathers comp key groups ms)
    (hdelete : members groups' = (members groups).filter (· ≠ node)) :
    Gathers comp key groups' (deleteMember ms node) where
  perm := by
    rw [hdelete]
    refine (hms.perm.filter _).trans ?_
    rw [List.filter_map]
    rfl
  keys m hm := hms.keys m (List.mem_of_mem_filter hm)
  sameKey k := by
    rw [hdelete, ofKey, List.filter_comm, ← ofKey, hms.sameKey, membersOfKey, membersOfKey, deleteMember,
      List.filter_map, List.filter_comm]
    rfl

/-- Where an insertion puts the new member -/
theorem Inserted.shape (hcomp : KeyOrder comp) (h : Holds comp t T groups) {dup : Bool} {ret : Int}
    (hinserted : Inserted comp t.key new dup groups groups' ret) :
    (ret = -1 ∧ dup = false ∧ groups' = groups ∧ ∃ p ∈ members groups, comp (t.key new) (t.key p) = 0) ∨
      (ret = 0 ∧ (dup = true ∨ ∀ p ∈ members groups, comp (t.key new) (t.key p) ≠ 0) ∧
      ∃ l₁ l₂, members groups = l₁ ++ l₂ ∧
        members groups' = l₁ ++ new :: l₂ ∧ ∀ p ∈ l₂, comp (t.key p) (t.key new) ≠ 0) := by
  cases hinserted with
  | @last G₁ G₂ q ds hdup hgroups hq =>
    subst hgroups
    refine .inr ⟨rfl, .inl hdup, members G₁ ++ q :: ds, members G₂, ?_, ?_, ?_⟩
    · rw [members_append, members_cons]
      simp
    · rw [members_append, members_cons]
      simp
    · intro p hp heq
      obtain ⟨g, hg, hpg⟩ := mem_members.1 hp
      have hordered := h.ordered
      rw [List.pairwise_append, List.pairwise_cons] at hordered
      have hlt : comp (t.key q) (t.key g.1) < 0 := hordered.2.1.1 g hg
      have hgq := hcomp.eq_trans ((h.key_iff hcomp (by simp [hg]) hpg).1 heq) hq
      have := hcomp.symm hgq
      omega
  | refused hdup hg hkey => exact .inl ⟨rfl, hdup, rfl, _, leader_mem_members hg, hkey⟩
  | @own G₁ G₂ hgroups hkey =>
    have hall : ∀ p ∈ members groups, comp (t.key p) (t.key new) ≠ 0 := by
      intro p hp heq
      obtain ⟨g, hg, hpg⟩ := mem_members.1 hp
      exact hkey g hg (hcomp.symm ((h.key_iff hcomp hg hpg).1 heq))
    refine .inr ⟨rfl, .inr fun p hp heq => hall p hp (hcomp.symm heq), members G₁, members G₂, ?_, ?_, ?_⟩
    · rw [hgroups, members_append]
    · rw [members_append, members_cons]
      rfl
    · intro p hp
      refine hall p ?_
      rw [hgroups, members_append]
      exact List.mem_append_right _ hp

/-- A deletion takes the node out of the list. -/
theorem Deleted.members_eq (h : Deleted node groups groups') (hnodup : (members groups).Nodup) :
    members groups' = (members groups).filter (· ≠ node) := by
  obtain ⟨l₁, l₂, hold, hnew⟩ : ∃ l₁ l₂, members groups = l₁ ++ node :: l₂ ∧ members groups' = l₁ ++ l₂ := by
    cases h with
    | @dup G₁ G₂ q ds₁ ds₂ hgroups =>
      refine ⟨members G₁ ++ q :: ds₁, ds₂ ++ members G₂, ?_, ?_⟩ <;>
        simp [hgroups, members_append, members_cons]
    | @promoted G₁ G₂ d ds hgroups =>
      refine ⟨members G₁, d :: ds ++ members G₂, ?_, ?_⟩ <;> simp [hgroups, members_append, members_cons]
    | @gone G₁ G₂ hgroups =>
      refine ⟨members G₁, members G₂, ?_, ?_⟩ <;> simp [hgroups, members_append, members_cons]
  rw [hold, List.nodup_middle, List.nodup_cons] at hnodup
  rw [hold, hnew, List.filter_append, List.filter_cons_of_neg (by simp)]
  have hkept : ∀ {l : List Ptr}, node ∉ l → l.filter (· ≠ node) = l := by
    intro l hl
    rw [List.filter_eq_self]
    intro p hp
    exact decide_eq_true fun heq => hl (heq ▸ hp)
  rw [hkept fun hmem => hnodup.1 (List.mem_append_left _ hmem),
    hkept fun hmem => hnodup.1 (List.mem_append_right _ hmem)]

end Olsrd.Common
