/-
Binary trees of identities with a balance in every node, seen from either side, and what is around a place in a tree. A
tree is in order when its members are, so that what an operation does to them is told by the list of the members.
-/
import Mathlib.Data.List.Basic
import Mathlib.Data.List.Nodup
import Mathlib.Data.List.Perm.Basic
import Mathlib.Tactic

namespace BalancedTree

inductive Side where
  | left
  | right
  deriving DecidableEq, Repr

namespace Side

def flip : Side → Side
  | left => right
  | right => left

/-- The sign of a balance that leans to the side. -/
def sgn : Side → Int
  | left => -1
  | right => 1

@[simp] theorem flip_flip (s : Side) : s.flip.flip = s := by cases s <;> rfl

@[simp] theorem flip_ne (s : Side) : s.flip ≠ s := by cases s <;> decide

@[simp] theorem ne_flip (s : Side) : s ≠ s.flip := (flip_ne s).symm

@[simp] theorem sgn_flip (s : Side) : s.flip.sgn = -s.sgn := by cases s <;> rfl

theorem eq_or_flip (d s : Side) : d = s ∨ d = s.flip := by cases d <;> cases s <;> simp [flip]

theorem forall_side {P : Side → Prop} (s : Side) : (∀ d, P d) ↔ P s ∧ P s.flip := by
  constructor
  · exact fun h => ⟨h s, h s.flip⟩
  · rintro ⟨h, h'⟩ d
    rcases eq_or_flip d s with rfl | rfl
    · exact h
    · exact h'

/-- The members of a node with those of its child on this side, and those of the other. -/
def join {ι : Type} (s : Side) (near : List ι) (p : ι) (far : List ι) : List ι :=
  match s with
  | left => near ++ p :: far
  | right => far ++ p :: near

end Side

/-! ## Trees -/

inductive BalTree (ι : Type) where
  | nil
  | node (bal : Int) (p : ι) (child : Side → BalTree ι)

variable {ι : Type} {s : Side} {b b' : Int} {p q r : ι} {A B C D T : BalTree ι} {child : Side → BalTree ι}

namespace BalTree

def height : BalTree ι → Nat
  | nil => 0
  | node _ _ child => max (child .left).height (child .right).height + 1

def toList : BalTree ι → List ι
  | nil => []
  | node _ p child => (child .left).toList ++ p :: (child .right).toList

/-- Every balance is the difference of the heights, and at most 1 either way. -/
def Balanced : BalTree ι → Prop
  | nil => True
  | node b _ child => b = (child .right).height - (child .left).height ∧ -1 ≤ b ∧ b ≤ 1 ∧ ∀ d, (child d).Balanced

theorem balanced_node : (node b p child).Balanced ↔
    b = (child .right).height - (child .left).height ∧ -1 ≤ b ∧ b ≤ 1 ∧ ∀ d, (child d).Balanced := Iff.rfl

/-- A node by its children on one side and on the other. -/
def onSide (s : Side) (b : Int) (p : ι) (near far : BalTree ι) : BalTree ι :=
  node b p fun d => if d = s then near else far

theorem node_eq (s : Side) : node b p child = onSide s b p (child s) (child s.flip) := by
  unfold onSide
  congr 1
  funext d
  rcases Side.eq_or_flip d s with rfl | rfl <;> simp

theorem onSide_flip (s : Side) (b : Int) (p : ι) (A B : BalTree ι) : onSide s.flip b p A B = onSide s b p B A := by
  unfold onSide
  congr 1
  funext d
  rcases Side.eq_or_flip d s with rfl | rfl <;> simp

theorem height_onSide (s : Side) (b : Int) (p : ι) (A B : BalTree ι) :
    (onSide s b p A B).height = max A.height B.height + 1 := by
  cases s
  · simp [onSide, height]
  · simp [onSide, height, Nat.max_comm]

theorem toList_onSide (s : Side) (b : Int) (p : ι) (A B : BalTree ι) :
    (onSide s b p A B).toList = s.join A.toList p B.toList := by
  cases s <;> simp [onSide, toList, Side.join]

theorem balanced_onSide : (onSide s b p A B).Balanced ↔
    s.sgn * b = A.height - B.height ∧ -1 ≤ b ∧ b ≤ 1 ∧ A.Balanced ∧ B.Balanced := by
  rw [onSide, balanced_node, Side.forall_side s]
  cases s
  · simp only [if_true, Side.flip, Side.sgn, reduceCtorEq, if_false]
    refine and_congr_left' ?_
    omega
  · simp only [if_true, Side.flip, Side.sgn, reduceCtorEq, if_false, one_mul]

theorem Balanced.height_le (h : (onSide s b p A B).Balanced) : A.height ≤ B.height + 1 ∧ B.height ≤ A.height + 1 := by
  obtain ⟨hb, hlow, hhigh, -⟩ := balanced_onSide.1 h
  cases s <;> simp only [Side.sgn] at hb <;> omega

theorem perm_onSide (s : Side) (b : Int) (p : ι) (A B : BalTree ι) :
    (onSide s b p A B).toList.Perm (p :: (A.toList ++ B.toList)) := by
  rw [toList_onSide]
  cases s
  · exact List.perm_middle
  · exact List.perm_middle.trans (List.perm_append_comm.cons p)

/-- The single rotation: the child `q` on a side comes up, and its other child changes sides. -/
theorem toList_rotate (s : Side) (bp bq bp' bq' : Int) (p q : ι) (A B C : BalTree ι) :
    (onSide s bq' q A (onSide s bp' p B C)).toList = (onSide s bp p (onSide s bq q A B) C).toList := by
  cases s <;> simp [toList_onSide, Side.join]

end BalTree

/-! ## Places -/

/-- A node above a place, with its child on the other side. -/
structure Frame (ι : Type) where
  side : Side
  bal : Int
  node : ι
  other : BalTree ι

variable {f : Frame ι} {c c' : List (Frame ι)}

/-- The tree with a subtree in its place; the frames are those above it, the lowest first. -/
def plug : List (Frame ι) → BalTree ι → BalTree ι
  | [], T => T
  | f :: c, T => plug c (BalTree.onSide f.side f.bal f.node T f.other)

/-- The members above and beside a place. -/
def around : List (Frame ι) → List ι
  | [] => []
  | f :: c => f.node :: (f.other.toList ++ around c)

/-- The frames are balanced around a subtree of height `h`. -/
def Around : List (Frame ι) → Nat → Prop
  | [], _ => True
  | f :: c, h => f.side.sgn * f.bal = h - f.other.height ∧ -1 ≤ f.bal ∧ f.bal ≤ 1 ∧ f.other.Balanced ∧
      Around c (max h f.other.height + 1)

theorem plug_append (c c' : List (Frame ι)) (T : BalTree ι) : plug (c ++ c') T = plug c' (plug c T) := by
  induction c generalizing T with
  | nil => rfl
  | cons f c ih => exact ih _

/-- The members before a place, and those behind it. -/
def before : List (Frame ι) → List ι
  | [] => []
  | f :: c => match f.side with
    | .left => before c
    | .right => before c ++ (f.other.toList ++ [f.node])

def behind : List (Frame ι) → List ι
  | [] => []
  | f :: c => match f.side with
    | .left => f.node :: (f.other.toList ++ behind c)
    | .right => behind c

theorem before_append (c c' : List (Frame ι)) : before (c ++ c') = before c' ++ before c := by
  induction c with
  | nil => simp [before]
  | cons f c ih => cases hs : f.side <;> simp [before, hs, ih]

theorem behind_append (c c' : List (Frame ι)) : behind (c ++ c') = behind c ++ behind c' := by
  induction c with
  | nil => simp [behind]
  | cons f c ih => cases hs : f.side <;> simp [behind, hs, ih]

theorem toList_plug (c : List (Frame ι)) (T : BalTree ι) : (plug c T).toList = before c ++ (T.toList ++ behind c) := by
  induction c generalizing T with
  | nil => simp [plug, before, behind]
  | cons f c ih =>
    rw [plug, ih, BalTree.toList_onSide]
    cases hs : f.side <;> simp [before, behind, hs, Side.join]

theorem toList_plug_congr (h : A.toList = B.toList) : (plug c A).toList = (plug c B).toList := by
  rw [toList_plug, toList_plug, h]

theorem perm_plug (c : List (Frame ι)) (T : BalTree ι) : (plug c T).toList.Perm (T.toList ++ around c) := by
  induction c generalizing T with
  | nil => simp [plug, around]
  | cons f c ih =>
    refine (ih _).trans (((BalTree.perm_onSide ..).append_right _).trans ?_)
    rw [List.cons_append, List.append_assoc]
    exact List.perm_middle.symm

theorem perm_plug_onSide (c : List (Frame ι)) (s : Side) (b : Int) (p : ι) (A B : BalTree ι) :
    (plug c (BalTree.onSide s b p A B)).toList.Perm (p :: (A.toList ++ (B.toList ++ around c))) := by
  rw [← List.append_assoc]
  exact (perm_plug c _).trans ((BalTree.perm_onSide s b p A B).append_right _)

theorem balanced_plug : (plug c T).Balanced ↔ T.Balanced ∧ Around c T.height := by
  induction c generalizing T with
  | nil => simp [plug, Around]
  | cons f c ih =>
    rw [plug, ih, BalTree.balanced_onSide, BalTree.height_onSide, Around]
    tauto

/-- Every member of a tree has its place. -/
theorem exists_plug (h : p ∈ T.toList) : ∃ c b child, T = plug c (.node b p child) := by
  induction T with
  | nil => cases h
  | node b q child ih =>
    have hdown : ∀ s, p ∈ (child s).toList → ∃ c b' child', BalTree.node b q child = plug c (.node b' p child') := by
      intro s hs
      obtain ⟨c, b', child', hc⟩ := ih s hs
      refine ⟨c ++ [⟨s, b, q, child s.flip⟩], b', child', ?_⟩
      rw [plug_append, ← hc, BalTree.node_eq s]
      rfl
    rw [BalTree.toList, List.mem_append, List.mem_cons] at h
    rcases h with h | rfl | h
    · exact hdown .left h
    · exact ⟨[], b, child, rfl⟩
    · exact hdown .right h

/-- A member splits the others into those before and those behind it. -/
theorem split_plug {l₁ l₂ : List ι} (hnodup : (plug c (.node b p child)).toList.Nodup)
    (h : (plug c (.node b p child)).toList = l₁ ++ p :: l₂) :
    l₁ = before c ++ (child .left).toList ∧ l₂ = (child .right).toList ++ behind c := by
  rw [h, List.nodup_middle, List.nodup_cons, List.mem_append, not_or] at hnodup
  have hsplit : l₁ ++ p :: l₂ = (before c ++ (child .left).toList) ++ p :: ((child .right).toList ++ behind c) := by
    rw [← h, toList_plug, BalTree.toList]
    simp
  obtain ⟨hl₁, -, hl₂⟩ := (List.append_cons_inj_of_notMem hnodup.1.1 hnodup.1.2).1 hsplit
  exact ⟨hl₁, hl₂⟩

theorem length_plug (c : List (Frame ι)) (T : BalTree ι) : c.length + T.toList.length ≤ (plug c T).toList.length := by
  rw [(perm_plug c T).length_eq, List.length_append]
  have h : c.length ≤ (around c).length := by
    induction c with
    | nil => exact le_refl 0
    | cons f c ih =>
      rw [around, List.length_cons, List.length_cons, List.length_append]
      omega
  omega

theorem height_le_length (T : BalTree ι) : T.height ≤ T.toList.length := by
  induction T with
  | nil => exact le_refl 0
  | node b p child ih =>
    have hl := ih .left
    have hr := ih .right
    rw [BalTree.height, BalTree.toList, List.length_append, List.length_cons]
    omega

end BalancedTree
