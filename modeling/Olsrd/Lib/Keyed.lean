/-
Ordered containers of keyed objects, as lists of pairs of a key and an object's identity. A new pair
goes behind the pairs with an equal key, a search finds the first pair with the key. `Indexes t P`
says that `t` holds exactly the objects that `P` relates to a key, with no key twice.
-/
import Mathlib.Data.List.Perm.Basic
import Mathlib.Data.List.Nodup
import Mathlib.Tactic

namespace Keyed

variable {κ ι : Type}

def insert (lt : κ → κ → Bool) (k : κ) (i : ι) : List (κ × ι) → List (κ × ι)
  | [] => [(k, i)]
  | e :: t => if lt k e.1 then (k, i) :: e :: t else e :: insert lt k i t

def find [DecidableEq κ] (k : κ) (t : List (κ × ι)) : Option ι := (t.find? fun e => e.1 == k).map Prod.snd

def erase [DecidableEq ι] (i : ι) (t : List (κ × ι)) : List (κ × ι) := t.filter fun e => e.2 != i

theorem insert_perm (lt : κ → κ → Bool) (k : κ) (i : ι) : ∀ t : List (κ × ι), (insert lt k i t).Perm ((k, i) :: t)
  | [] => List.Perm.refl _
  | e :: t => by
    unfold insert
    split
    · exact List.Perm.refl _
    · exact ((insert_perm lt k i t).cons e).trans (List.Perm.swap _ _ t)

theorem mem_insert {lt : κ → κ → Bool} {k : κ} {i : ι} {t : List (κ × ι)} {e : κ × ι} :
    e ∈ insert lt k i t ↔ e = (k, i) ∨ e ∈ t := by
  rw [(insert_perm lt k i t).mem_iff, List.mem_cons]

@[simp] theorem length_insert (lt : κ → κ → Bool) (k : κ) (i : ι) (t : List (κ × ι)) :
    (insert lt k i t).length = t.length + 1 :=
  (insert_perm lt k i t).length_eq

theorem mem_erase [DecidableEq ι] {i : ι} {t : List (κ × ι)} {e : κ × ι} : e ∈ erase i t ↔ e ∈ t ∧ e.2 ≠ i := by
  simp [erase]

/-! ## Order -/

/-- No key is below a key before it. -/
def Sorted (lt : κ → κ → Bool) (t : List (κ × ι)) : Prop := t.Pairwise fun x y => lt y.1 x.1 = false

theorem Sorted.insert {lt : κ → κ → Bool} (hasymm : ∀ a b, lt a b = true → lt b a = false)
    (htrans : ∀ a b c, lt a b = true → lt c b = false → lt c a = false) (k : κ) (i : ι) :
    ∀ {t : List (κ × ι)}, Sorted lt t → Sorted lt (Keyed.insert lt k i t)
  | [], _ => List.pairwise_singleton _ _
  | e :: t, h => by
    obtain ⟨he, ht⟩ := List.pairwise_cons.1 h
    unfold Keyed.insert
    split
    · rename_i hlt
      refine List.pairwise_cons.2 ⟨fun x hx => ?_, h⟩
      rcases List.mem_cons.1 hx with rfl | hx
      · exact hasymm _ _ hlt
      · exact htrans k e.1 x.1 hlt (he x hx)
    · rename_i hge
      refine List.pairwise_cons.2 ⟨fun x hx => ?_, Sorted.insert hasymm htrans k i ht⟩
      rcases mem_insert.1 hx with rfl | hx
      · simpa using hge
      · exact he x hx

theorem Sorted.erase [DecidableEq ι] {lt : κ → κ → Bool} {t : List (κ × ι)} (h : Sorted lt t) (i : ι) :
    Sorted lt (Keyed.erase i t) :=
  List.Pairwise.sublist List.filter_sublist h

/-! ## Indexes -/

/-- `t` holds exactly the objects `P` gives a key, no two under one key. -/
structure Indexes (t : List (κ × ι)) (P : κ → ι → Prop) : Prop where
  keys : (t.map Prod.fst).Nodup
  mem : ∀ k i, (k, i) ∈ t ↔ P k i

variable {t : List (κ × ι)} {P Q : κ → ι → Prop} {k : κ} {i : ι}

theorem indexes_nil (h : ∀ k i, ¬ P k i) : Indexes [] P :=
  ⟨List.nodup_nil, fun k i => iff_of_false (by simp) (h k i)⟩

theorem Indexes.congr (h : Indexes t P) (hq : ∀ k i, P k i ↔ Q k i) : Indexes t Q :=
  ⟨h.keys, fun k i => (h.mem k i).trans (hq k i)⟩

theorem Indexes.mem_keys (h : Indexes t P) : k ∈ t.map Prod.fst ↔ ∃ i, P k i := by
  simp only [List.mem_map, Prod.exists, exists_and_right, exists_eq_right, h.mem]

/-- Two objects under one key are the same. -/
theorem Indexes.unique (h : Indexes t P) {j : ι} (hi : P k i) (hj : P k j) : i = j := by
  have h1 := (h.mem k i).2 hi
  have h2 := (h.mem k j).2 hj
  have hinj := List.inj_on_of_nodup_map h.keys h1 h2 rfl
  exact congrArg Prod.snd hinj

theorem Indexes.insert (h : Indexes t P) (lt : κ → κ → Bool) (hk : ∀ j, ¬ P k j) :
    Indexes (Keyed.insert lt k i t) fun k' j => P k' j ∨ (k' = k ∧ j = i) := by
  refine ⟨?_, ?_⟩
  · have hp : ((Keyed.insert lt k i t).map Prod.fst).Perm (k :: t.map Prod.fst) :=
      (insert_perm lt k i t).map Prod.fst
    rw [hp.nodup_iff, List.nodup_cons, h.mem_keys]
    exact ⟨fun ⟨j, hj⟩ => hk j hj, h.keys⟩
  · intro k' j
    rw [mem_insert, h.mem, Prod.mk.injEq]
    exact or_comm

section

variable [DecidableEq κ]

theorem Indexes.find_iff (h : Indexes t P) : find k t = some i ↔ P k i := by
  rw [← h.mem]
  unfold find
  constructor
  · intro hf
    obtain ⟨e, he, rfl⟩ := Option.map_eq_some_iff.1 hf
    have hk : e.1 = k := by simpa using List.find?_some he
    rw [← hk]; exact List.mem_of_find?_eq_some he
  · intro hm
    cases hf : t.find? fun e => e.1 == k with
    | none => have := List.find?_eq_none.1 hf (k, i) hm; simp at this
    | some e =>
      have hk : e.1 = k := by simpa using List.find?_some hf
      have he := List.mem_of_find?_eq_some hf
      have : e = (k, i) := List.inj_on_of_nodup_map h.keys he hm hk
      rw [this]; rfl

theorem Indexes.find_eq_none (h : Indexes t P) : find k t = none ↔ ∀ i, ¬ P k i := by
  constructor
  · intro hf i hi
    rw [h.find_iff.2 hi] at hf; cases hf
  · intro hn
    cases hf : find k t with
    | none => rfl
    | some i => exact absurd (h.find_iff.1 hf) (hn i)

end

variable [DecidableEq ι]

theorem Indexes.erase (h : Indexes t P) (i : ι) : Indexes (Keyed.erase i t) fun k j => P k j ∧ j ≠ i := by
  refine ⟨?_, ?_⟩
  · exact h.keys.sublist (List.filter_sublist.map Prod.fst)
  · intro k j
    rw [mem_erase, h.mem]

/-- Erasing an object that has just one key removes one pair. -/
theorem Indexes.length_erase (h : Indexes t P) (hi : P k i) (hone : ∀ k', P k' i → k' = k) :
    t.length = (Keyed.erase i t).length + 1 := by
  obtain ⟨l, r, hlr⟩ := List.append_of_mem ((h.mem k i).2 hi)
  have hne : ∀ e, e ∈ l ∨ e ∈ r → e.2 ≠ i := by
    rintro ⟨k', j⟩ he rfl
    have hmem : (k', j) ∈ t := by rw [hlr]; simp; tauto
    obtain rfl := hone k' ((h.mem k' j).1 hmem)
    have hnd := h.keys
    rw [hlr, List.map_append, List.map_cons, List.nodup_middle, List.nodup_cons] at hnd
    exact hnd.1 (List.mem_append.2 (he.imp (List.mem_map_of_mem (f := Prod.fst)) (List.mem_map_of_mem (f := Prod.fst))))
  have hl : Keyed.erase i l = l := List.filter_eq_self.2 fun e he => by simpa using hne e (.inl he)
  have hr : Keyed.erase i r = r := List.filter_eq_self.2 fun e he => by simpa using hne e (.inr he)
  have : Keyed.erase i t = l ++ r := by
    rw [hlr]; unfold Keyed.erase at hl hr ⊢
    rw [List.filter_append, List.filter_cons, hl, hr]; simp
  rw [this, hlr]; simp; omega

end Keyed
