/-
Singly linked chains in memory: an object is a value and a pointer to the next object. A segment is what lies between
a pointer and another one.
-/
import Mathlib.Data.List.Nodup
import Mathlib.Logic.Function.Basic
import Mathlib.Tactic

namespace Chain

variable {ι ν : Type} [DecidableEq ι] {m m' : ι → Option (ν × Option ι)} {p q q' : Option ι} {i : ι} {v : ν}
  {l l₁ l₂ : List (ι × ν)}

/-- The objects on the way from `p` to `q`, with their values. -/
def Seg (m : ι → Option (ν × Option ι)) : Option ι → List (ι × ν) → Option ι → Prop
  | p, [], q => p = q
  | p, (i, v) :: l, q => p = some i ∧ ∃ next, m i = some (v, next) ∧ Seg m next l q

omit [DecidableEq ι] in
theorem seg_nil : Seg m p [] q ↔ p = q := Iff.rfl

omit [DecidableEq ι] in
theorem seg_cons : Seg m p ((i, v) :: l) q ↔ p = some i ∧ ∃ next, m i = some (v, next) ∧ Seg m next l q := Iff.rfl

omit [DecidableEq ι] in
theorem seg_append : ∀ {l₁ : List (ι × ν)} {p : Option ι}, Seg m p (l₁ ++ l₂) q ↔ ∃ r, Seg m p l₁ r ∧ Seg m r l₂ q
  | [], p => by
    rw [List.nil_append]
    constructor
    · exact fun h => ⟨p, rfl, h⟩
    · rintro ⟨r, rfl, h⟩
      exact h
  | (i, v) :: l₁, p => by
    rw [List.cons_append, seg_cons]
    constructor
    · rintro ⟨hp, next, hi, h⟩
      obtain ⟨r, h₁, h₂⟩ := seg_append.1 h
      exact ⟨r, ⟨hp, next, hi, h₁⟩, h₂⟩
    · rintro ⟨r, ⟨hp, next, hi, h₁⟩, h₂⟩
      exact ⟨hp, next, hi, seg_append.2 ⟨r, h₁, h₂⟩⟩

omit [DecidableEq ι] in
theorem seg_concat : Seg m p (l ++ [(i, v)]) q ↔ Seg m p l (some i) ∧ m i = some (v, q) := by
  rw [seg_append]
  constructor
  · rintro ⟨r, h, rfl, next, hi, rfl⟩
    exact ⟨h, hi⟩
  · rintro ⟨h, hi⟩
    exact ⟨some i, h, rfl, q, hi, rfl⟩

omit [DecidableEq ι] in
theorem Seg.congr : ∀ {l : List (ι × ν)} {p : Option ι}, Seg m p l q → (∀ i ∈ l.map Prod.fst, m' i = m i) → Seg m' p l q
  | [], _, h, _ => h
  | (i, v) :: l, p, h, hm => by
    obtain ⟨hp, next, hi, h⟩ := h
    exact ⟨hp, next, (hm i (List.mem_cons_self ..)).trans hi,
      h.congr fun j hj => hm j (List.mem_cons_of_mem _ hj)⟩

omit [DecidableEq ι] in
/-- A chain to the end determines its objects. -/
theorem Seg.unique : ∀ {l l' : List (ι × ν)} {p : Option ι}, Seg m p l none → Seg m p l' none → l = l'
  | [], [], _, _, _ => rfl
  | [], (i, v) :: l', p, h, h' => by
    rw [seg_nil] at h
    subst h
    cases h'.1
  | (i, v) :: l, [], p, h, h' => by
    rw [seg_nil] at h'
    subst h'
    cases h.1
  | (i, v) :: l, (j, w) :: l', p, h, h' => by
    obtain ⟨rfl, next, hi, h⟩ := h
    obtain ⟨hj, next', hj', h'⟩ := h'
    obtain rfl := Option.some.inj hj
    obtain ⟨rfl, rfl⟩ := Prod.mk.inj (Option.some.inj (hi.symm.trans hj'))
    rw [h.unique h']

/-- An object that is not in the segment may change. -/
theorem Seg.update (h : Seg m p l q) (hi : i ∉ l.map Prod.fst) (x : Option (ν × Option ι)) :
    Seg (Function.update m i x) p l q := by
  refine h.congr fun j hj => Function.update_of_ne ?_ ..
  rintro rfl
  exact hi hj

/-- The last object of a segment gets a new value and a new successor. -/
theorem Seg.update_last {w : ν} (h : Seg m p (l ++ [(i, v)]) q) (hi : i ∉ l.map Prod.fst) :
    Seg (Function.update m i (some (w, q'))) p (l ++ [(i, w)]) q' :=
  seg_concat.2 ⟨(seg_concat.1 h).1.update hi _, Function.update_self ..⟩

omit [DecidableEq ι] in
theorem Seg.value (h : Seg m p l q) (hi : (i, v) ∈ l) : ∃ next, m i = some (v, next) := by
  obtain ⟨l₁, l₂, rfl⟩ := List.append_of_mem hi
  obtain ⟨r, -, -, next, hnext, -⟩ := seg_append.1 h
  exact ⟨next, hnext⟩

/-- An object of a segment gets a new value. -/
theorem Seg.update_value {w : ν} {next : Option ι} (h : Seg m p (l₁ ++ (i, v) :: l₂) q) (hi : m i = some (v, next))
    (hi₁ : i ∉ l₁.map Prod.fst) (hi₂ : i ∉ l₂.map Prod.fst) :
    Seg (Function.update m i (some (w, next))) p (l₁ ++ (i, w) :: l₂) q := by
  obtain ⟨r, h₁, hr, next', hi', h₂⟩ := seg_append.1 h
  obtain ⟨-, rfl⟩ := Prod.mk.inj (Option.some.inj (hi.symm.trans hi'))
  exact seg_append.2 ⟨r, h₁.update hi₁ _, hr, next, Function.update_self .., h₂.update hi₂ _⟩

/-! ## Walks -/

/-- A loop has passed over `passed`, of which `prev` is the last, and `rest` is still to come. -/
structure Walk (m : ι → Option (ν × Option ι)) (head prev p : Option ι) (passed rest : List (ι × ν)) : Prop where
  behind : Seg m head passed p
  ahead : Seg m p rest none
  nodup : ((passed ++ rest).map Prod.fst).Nodup
  previous : prev = passed.getLast?.map Prod.fst

/-- The memory and the head without what is between `prev` and `next`. -/
def unlink (m : ι → Option (ν × Option ι)) (head prev next : Option ι) :
    Option ((ι → Option (ν × Option ι)) × Option ι) :=
  match prev with
  | none => some (m, next)
  | some i => (m i).map fun x => (Function.update m i (some (x.1, next)), head)

variable {head prev next : Option ι} {passed rest : List (ι × ν)}

omit [DecidableEq ι] in
theorem not_mem_of_nodup (h : ((passed ++ (i, v) :: rest).map Prod.fst).Nodup) :
    (i ∉ passed.map Prod.fst ∧ i ∉ rest.map Prod.fst) ∧ ((passed ++ rest).map Prod.fst).Nodup := by
  rw [List.map_append, List.map_cons, List.nodup_middle, List.nodup_cons, List.mem_append, not_or,
    ← List.map_append] at h
  exact h

/-- An object is passed over, and may get a new value. -/
theorem Walk.keep {w : ν} (h : Walk m head prev (some i) passed ((i, v) :: rest)) (hi : m i = some (v, next)) :
    Walk (Function.update m i (some (w, next))) head (some i) next (passed ++ [(i, w)]) rest := by
  obtain ⟨⟨hpassed, hrest⟩, -⟩ := not_mem_of_nodup h.nodup
  obtain ⟨-, next', hi', hseg⟩ := h.ahead
  obtain ⟨-, rfl⟩ := Prod.mk.inj (Option.some.inj (hi.symm.trans hi'))
  constructor
  · exact (seg_concat.2 ⟨h.behind, hi⟩).update_last hpassed
  · exact hseg.update hrest _
  · have hnodup := h.nodup
    simp only [List.map_append, List.map_cons, List.append_assoc, List.cons_append, List.nil_append] at hnodup ⊢
    exact hnodup
  · rw [List.getLast?_concat]
    rfl

/-- An object is unlinked and freed; objects of other chains stay as they are. -/
theorem Walk.remove (h : Walk m head prev (some i) passed ((i, v) :: rest)) (hi : m i = some (v, next)) :
    ∃ m' head', unlink m head prev next = some (m', head') ∧
      Walk (Function.update m' i none) head' prev next passed rest ∧
      ∀ j ∉ (passed ++ (i, v) :: rest).map Prod.fst, Function.update m' i none j = m j := by
  obtain ⟨⟨hpassed, hrest⟩, hnodup⟩ := not_mem_of_nodup h.nodup
  obtain ⟨-, next', hi', hseg⟩ := h.ahead
  obtain ⟨-, rfl⟩ := Prod.mk.inj (Option.some.inj (hi.symm.trans hi'))
  have hne : ∀ j ∉ (passed ++ (i, v) :: rest).map Prod.fst, j ≠ i := by
    rintro j hj rfl
    exact hj (by simp)
  rcases List.eq_nil_or_concat passed with rfl | ⟨front, ⟨k, w⟩, rfl⟩
  · have hprev : prev = none := h.previous
    subst hprev
    exact ⟨m, next, rfl, ⟨rfl, hseg.update hrest _, hnodup, rfl⟩, fun j hj => Function.update_of_ne (hne j hj) ..⟩
  · rw [List.concat_eq_append] at *
    have hprev : prev = some k := by rw [h.previous, List.getLast?_concat]; rfl
    subst hprev
    obtain ⟨-, hk⟩ := seg_concat.1 h.behind
    have hkout : k ∉ front.map Prod.fst ∧ k ∉ rest.map Prod.fst := by
      rw [List.append_assoc] at hnodup
      exact (not_mem_of_nodup hnodup).1
    refine ⟨Function.update m k (some (w, next)), head, by rw [unlink, hk]; rfl, ⟨?_, ?_, hnodup, ?_⟩, ?_⟩
    · exact (h.behind.update_last hkout.1).update (by simpa using hpassed) _
    · exact (hseg.update hkout.2 _).update hrest _
    · rw [List.getLast?_concat]
      rfl
    · intro j hj
      have hjk : j ≠ k := by
        rintro rfl
        exact hj (by simp)
      rw [Function.update_of_ne (hne j hj), Function.update_of_ne hjk]

end Chain
