/-
The repeated choice of the first entry of lowest cost, among the keys that are left. A key is chosen in the first `k`
rounds if fewer than `k` other keys rank before one of its entries: those with an entry of lower cost, or further ahead
and of the same cost.
-/
import Mathlib.Data.Finset.Card
import Mathlib.Tactic

namespace FirstBest

variable {α β : Type} [DecidableEq α] [LinearOrder β] {l : List (α × β)} {w n : α} {c : β} {k : Nat}

/-! ## One choice -/

/-- One round of the search for the first entry of lowest cost. -/
def better (adm : α → Bool) (best : Option α × β) (x : α × β) : Option α × β :=
  if adm x.1 ∧ x.2 < best.2 then (some x.1, x.2) else best

/-- The entry is the first of lowest cost. -/
def First (l : List (α × β)) (x : α × β) : Prop :=
  ∃ l₁ l₂, l = l₁ ++ x :: l₂ ∧ (∀ y ∈ l₁, x.2 < y.2) ∧ ∀ y ∈ l₂, x.2 ≤ y.2

omit [DecidableEq α] in
theorem First.le {x : α × β} (h : First l x) : ∀ y ∈ l, x.2 ≤ y.2 := by
  obtain ⟨l₁, l₂, rfl, h₁, h₂⟩ := h
  intro y hy
  rcases List.mem_append.1 hy with hy | hy
  · exact (h₁ y hy).le
  · rcases List.mem_cons.1 hy with rfl | hy
    · exact le_refl _
    · exact h₂ y hy

omit [DecidableEq α] in
theorem First.mem {x : α × β} (h : First l x) : x ∈ l := by
  obtain ⟨l₁, l₂, rfl, -, -⟩ := h
  exact List.mem_append_right _ (List.mem_cons_self ..)

omit [DecidableEq α] in
theorem First.append {x y : α × β} (h : First l x) (hy : x.2 ≤ y.2) : First (l ++ [y]) x := by
  obtain ⟨l₁, l₂, rfl, h₁, h₂⟩ := h
  refine ⟨l₁, l₂ ++ [y], by rw [List.append_assoc, List.cons_append], h₁, fun z hz => ?_⟩
  rcases List.mem_append.1 hz with hz | hz
  · exact h₂ z hz
  · exact (List.mem_singleton.1 hz) ▸ hy

omit [DecidableEq α] in
theorem First.filter {x : α × β} {P : α × β → Bool} (h : First l x) (hx : P x = true) : First (l.filter P) x := by
  obtain ⟨l₁, l₂, rfl, h₁, h₂⟩ := h
  refine ⟨l₁.filter P, l₂.filter P, ?_, fun y hy => h₁ y (List.mem_of_mem_filter hy),
    fun y hy => h₂ y (List.mem_of_mem_filter hy)⟩
  rw [List.filter_append, List.filter_cons_of_pos hx]

omit [DecidableEq α] in
/-- The search finds the first entry of lowest cost among those it may choose. -/
theorem foldl_better (adm : α → Bool) (bound : β) (l : List (α × β)) :
    (l.foldl (better adm) (none, bound) = (none, bound) ∧
        l.filter (fun x => adm x.1 && decide (x.2 < bound)) = []) ∨
      ∃ n, (l.foldl (better adm) (none, bound)).1 = some n ∧
        First (l.filter fun x => adm x.1 && decide (x.2 < bound)) (n, (l.foldl (better adm) (none, bound)).2) := by
  induction l using List.reverseRecOn with
  | nil => exact .inl ⟨rfl, rfl⟩
  | append_singleton l x ih =>
    rw [List.foldl_append, List.filter_append, List.foldl_cons, List.foldl_nil]
    obtain ⟨r, hr⟩ : ∃ r, r = l.foldl (better adm) (none, bound) := ⟨_, rfl⟩
    rw [← hr] at ih ⊢
    by_cases hx : adm x.1 = true ∧ x.2 < bound
    · have hfilter : [x].filter (fun x => adm x.1 && decide (x.2 < bound)) = [x] := by simp [hx]
      rw [hfilter]
      rcases ih with ⟨rfl, hl⟩ | ⟨n, hn, hfirst⟩
      · refine .inr ⟨x.1, ?_, ?_⟩
        · rw [better, if_pos hx]
        · rw [better, if_pos hx, hl]
          exact ⟨[], [], rfl, by simp, by simp⟩
      · by_cases hlt : x.2 < r.2
        · refine .inr ⟨x.1, ?_, ?_⟩
          · rw [better, if_pos ⟨hx.1, hlt⟩]
          · rw [better, if_pos ⟨hx.1, hlt⟩]
            exact ⟨_, [], rfl, fun y hy => lt_of_lt_of_le hlt (hfirst.le y hy), by simp⟩
        · rw [better, if_neg fun h => hlt h.2]
          exact .inr ⟨n, hn, hfirst.append (not_lt.1 hlt)⟩
    · have hfilter : [x].filter (fun x => adm x.1 && decide (x.2 < bound)) = [] := by simpa using hx
      have hbetter : better adm r x = r := by
        rw [better, if_neg]
        rintro ⟨hadm, hlt⟩
        refine hx ⟨hadm, ?_⟩
        rcases ih with ⟨rfl, -⟩ | ⟨n, -, hfirst⟩
        · exact hlt
        · exact hlt.trans (of_decide_eq_true (Bool.and_eq_true_iff.1 (List.mem_filter.1 hfirst.mem).2).2)
      rw [hfilter, List.append_nil, hbetter]
      exact ih

/-! ## Ranks -/

/-- The other keys that rank before an entry, which has the first list ahead and the second one behind. -/
def ahead (l₁ l₂ : List (α × β)) (w : α) (c : β) : Finset α :=
  ((l₁.filter (·.2 ≤ c) ++ l₂.filter (·.2 < c)).map Prod.fst).toFinset.erase w

/-- Fewer than `k` other keys rank before an entry of the key. -/
def Ranked (k : Nat) (l : List (α × β)) (w : α) : Prop :=
  ∃ l₁ c l₂, l = l₁ ++ (w, c) :: l₂ ∧ (ahead l₁ l₂ w c).card < k

theorem mem_ahead {l₁ l₂ : List (α × β)} :
    n ∈ ahead l₁ l₂ w c ↔ n ≠ w ∧ ((∃ d, (n, d) ∈ l₁ ∧ d ≤ c) ∨ ∃ d, (n, d) ∈ l₂ ∧ d < c) := by
  simp [ahead]

theorem not_ranked_zero : ¬Ranked 0 l w := fun ⟨_, _, _, _, h⟩ => Nat.not_lt_zero _ h

theorem not_ranked_nil : ¬Ranked k ([] : List (α × β)) w := fun ⟨_, _, _, h, _⟩ => by simp at h

theorem Ranked.mem (h : Ranked k l w) : ∃ c, (w, c) ∈ l := by
  obtain ⟨l₁, c, l₂, rfl, -⟩ := h
  exact ⟨c, List.mem_append_right _ (List.mem_cons_self ..)⟩

/-- The key of the first entry of lowest cost ranks before all others. -/
theorem First.mem_ahead {l₁ l₂ : List (α × β)} {d : β} (h : First (l₁ ++ (w, c) :: l₂) (n, d)) (hne : n ≠ w) :
    n ∈ ahead l₁ l₂ w c := by
  rw [FirstBest.mem_ahead]
  refine ⟨hne, ?_⟩
  have hle : d ≤ c := h.le (w, c) (List.mem_append_right _ (List.mem_cons_self ..))
  obtain ⟨m₁, m₂, hl, h₁, -⟩ := h
  rcases List.append_eq_append_iff.1 hl with ⟨as, rfl, has⟩ | ⟨bs, rfl, hbs⟩
  · cases as with
    | nil => exact absurd (Prod.ext_iff.1 (List.cons.inj has).1).1.symm hne
    | cons a as =>
      obtain ⟨rfl, rfl⟩ := List.cons.inj has
      exact .inr ⟨d, List.mem_append_right _ (List.mem_cons_self ..),
        h₁ (w, c) (List.mem_append_right _ (List.mem_cons_self ..))⟩
  · cases bs with
    | nil => exact absurd (Prod.ext_iff.1 (List.cons.inj hbs).1).1 hne
    | cons b bs =>
      obtain ⟨rfl, rfl⟩ := List.cons.inj hbs
      exact .inl ⟨d, List.mem_append_right _ (List.mem_cons_self ..), hle⟩

/-- Without the first key, one key fewer ranks before an entry. -/
theorem First.ahead_eq {l₁ l₂ : List (α × β)} {d : β} (h : First (l₁ ++ (w, c) :: l₂) (n, d)) (hne : n ≠ w) :
    ahead l₁ l₂ w c = insert n (ahead (l₁.filter (·.1 ≠ n)) (l₂.filter (·.1 ≠ n)) w c) := by
  ext m
  rw [Finset.mem_insert]
  by_cases hm : m = n
  · exact iff_of_true (hm ▸ h.mem_ahead hne) (.inl hm)
  · simp [FirstBest.mem_ahead, hm]

theorem First.card_ahead {l₁ l₂ : List (α × β)} {d : β} (h : First (l₁ ++ (w, c) :: l₂) (n, d)) (hne : n ≠ w) :
    (ahead l₁ l₂ w c).card = (ahead (l₁.filter (·.1 ≠ n)) (l₂.filter (·.1 ≠ n)) w c).card + 1 := by
  rw [h.ahead_eq hne, Finset.card_insert_of_notMem]
  simp [FirstBest.mem_ahead]

/-- One round of the choice. -/
theorem First.ranked_succ {d : β} (h : First l (n, d)) :
    Ranked (k + 1) l w ↔ w = n ∨ Ranked k (l.filter (·.1 ≠ n)) w := by
  by_cases hne : n = w
  · subst hne
    refine iff_of_true ?_ (.inl rfl)
    obtain ⟨l₁, l₂, rfl, h₁, h₂⟩ := h
    refine ⟨l₁, d, l₂, rfl, ?_⟩
    have hnone : ahead l₁ l₂ n d = ∅ := by
      refine Finset.eq_empty_of_forall_notMem fun m hm => ?_
      rcases (FirstBest.mem_ahead.1 hm).2 with ⟨e, he, hle⟩ | ⟨e, he, hlt⟩
      · exact absurd hle (not_le.2 (h₁ _ he))
      · exact absurd hlt (not_lt.2 (h₂ _ he))
    rw [hnone, Finset.card_empty]
    exact Nat.succ_pos k
  · rw [or_iff_right (Ne.symm hne)]
    constructor
    · rintro ⟨l₁, c, l₂, rfl, hcard⟩
      refine ⟨l₁.filter (·.1 ≠ n), c, l₂.filter (·.1 ≠ n), ?_, ?_⟩
      · rw [List.filter_append, List.filter_cons_of_pos (by simpa using Ne.symm hne)]
      · rw [h.card_ahead hne] at hcard
        exact Nat.lt_of_succ_lt_succ hcard
    · rintro ⟨l₁, c, l₂, hl, hcard⟩
      obtain ⟨m₁, m₂, rfl, rfl, hm₂⟩ := List.filter_eq_append_iff.1 hl
      obtain ⟨a, b, rfl, ha, -, rfl⟩ := List.filter_eq_cons_iff.1 hm₂
      refine ⟨m₁ ++ a, c, b, (List.append_assoc ..).symm, ?_⟩
      rw [← List.append_assoc] at h
      rw [h.card_ahead hne, List.filter_append, List.filter_eq_nil_iff.2 ha, List.append_nil]
      exact Nat.succ_lt_succ hcard

/-! ## The chosen keys -/

omit [DecidableEq α] in
theorem exists_first : ∀ {l : List (α × β)}, l ≠ [] → ∃ x, First l x := by
  intro l
  induction l using List.reverseRecOn with
  | nil => exact fun h => absurd rfl h
  | append_singleton l y ih =>
    intro _
    by_cases hl : l = []
    · subst hl
      exact ⟨y, [], [], rfl, by simp, by simp⟩
    · obtain ⟨x, hx⟩ := ih hl
      by_cases hlt : y.2 < x.2
      · exact ⟨y, l, [], rfl, fun z hz => lt_of_lt_of_le hlt (hx.le z hz), by simp⟩
      · exact ⟨x, hx.append (not_lt.1 hlt)⟩

/-- The keys that are chosen in the first `k` rounds. -/
noncomputable def chosen (k : Nat) (l : List (α × β)) : Finset α :=
  haveI := Classical.decPred (Ranked k l)
  (l.map Prod.fst).toFinset.filter (Ranked k l)

theorem mem_chosen : w ∈ chosen k l ↔ Ranked k l w := by
  classical
  unfold chosen
  rw [Finset.mem_filter, List.mem_toFinset]
  refine and_iff_right_of_imp fun h => ?_
  obtain ⟨c, hc⟩ := h.mem
  exact List.mem_map_of_mem hc

theorem chosen_zero : chosen 0 l = ∅ := Finset.eq_empty_of_forall_notMem fun _ h => not_ranked_zero (mem_chosen.1 h)

theorem chosen_nil : chosen k ([] : List (α × β)) = ∅ :=
  Finset.eq_empty_of_forall_notMem fun _ h => not_ranked_nil (mem_chosen.1 h)

theorem First.chosen_succ {d : β} (h : First l (n, d)) : chosen (k + 1) l =
    insert n (chosen k (l.filter (·.1 ≠ n))) := by
  ext w
  rw [Finset.mem_insert, mem_chosen, mem_chosen, h.ranked_succ]

omit [LinearOrder β] in
theorem nodup_filter (hl : (l.map Prod.fst).Nodup) : ((l.filter (·.1 ≠ n)).map Prod.fst).Nodup :=
  hl.sublist ((List.filter_sublist).map Prod.fst)

omit [LinearOrder β] in
theorem length_filter_succ {x : α × β} (hl : (l.map Prod.fst).Nodup) (hx : x ∈ l) :
    (l.filter (·.1 ≠ x.1)).length + 1 = l.length := by
  obtain ⟨l₁, l₂, rfl⟩ := List.append_of_mem hx
  rw [List.map_append, List.map_cons, List.nodup_middle, List.nodup_cons] at hl
  have hkeep : (l₁ ++ l₂).filter (·.1 ≠ x.1) = l₁ ++ l₂ := by
    refine List.filter_eq_self.2 fun y hy => ?_
    have hne : y.1 ≠ x.1 := fun h => hl.1 (h ▸ List.map_append ▸ List.mem_map_of_mem hy)
    simpa using hne
  rw [List.filter_append, List.filter_cons_of_neg (by simp), ← List.filter_append, hkeep]
  simp only [List.length_append, List.length_cons]
  omega

/-- As many keys are chosen as there are rounds, or all of them. -/
theorem card_chosen : ∀ (k : Nat) {l : List (α × β)}, (l.map Prod.fst).Nodup → (chosen k l).card = min k l.length
  | 0, l, _ => by rw [chosen_zero, Finset.card_empty, Nat.zero_min]
  | k + 1, l, hl => by
    by_cases hnil : l = []
    · subst hnil
      rw [chosen_nil, Finset.card_empty, List.length_nil, Nat.min_zero]
    · obtain ⟨⟨n, d⟩, hfirst⟩ := exists_first hnil
      have hlen : (l.filter (·.1 ≠ n)).length + 1 = l.length := length_filter_succ hl hfirst.mem
      have hout : n ∉ chosen k (l.filter (·.1 ≠ n)) := by
        intro h
        obtain ⟨c, hc⟩ := (mem_chosen.1 h).mem
        simpa using (List.mem_filter.1 hc).2
      rw [hfirst.chosen_succ, Finset.card_insert_of_notMem hout, card_chosen k (nodup_filter hl)]
      omega

/-- A chosen key costs no more than one that is left. -/
theorem cost_le_of_chosen : ∀ (k : Nat) {l : List (α × β)} {x y : α × β}, (l.map Prod.fst).Nodup → x ∈ l → y ∈ l →
    x.1 ∈ chosen k l → y.1 ∉ chosen k l → x.2 ≤ y.2
  | 0, l, x, _, _, _, _, hx, _ => by
    rw [chosen_zero] at hx
    exact absurd hx (Finset.notMem_empty _)
  | k + 1, l, x, y, hl, hxl, hyl, hx, hy => by
    obtain ⟨⟨n, d⟩, hfirst⟩ := exists_first (List.ne_nil_of_mem hxl)
    rw [hfirst.chosen_succ, Finset.mem_insert] at hx hy
    rw [not_or] at hy
    by_cases hxn : x.1 = n
    · have hxd : x = (n, d) := List.inj_on_of_nodup_map hl hxl hfirst.mem hxn
      rw [hxd]
      exact hfirst.le y hyl
    · exact cost_le_of_chosen k (nodup_filter hl) (List.mem_filter.2 ⟨hxl, by simpa using hxn⟩)
        (List.mem_filter.2 ⟨hyl, by simpa using hy.1⟩) (hx.resolve_left hxn) hy.2

/-- A set of `k` of the listed keys, or of all of them, none of which costs more than one that is left. -/
structure Cheapest (k : Nat) (l : List (α × β)) (S : Finset α) : Prop where
  mem : ∀ n ∈ S, n ∈ l.map Prod.fst
  card : S.card = min k l.length
  le : ∀ x ∈ l, ∀ y ∈ l, x.1 ∈ S → y.1 ∉ S → x.2 ≤ y.2

theorem cheapest_chosen (k : Nat) (hl : (l.map Prod.fst).Nodup) : Cheapest k l (chosen k l) where
  mem n hn := by
    obtain ⟨c, hc⟩ := (mem_chosen.1 hn).mem
    exact List.mem_map_of_mem hc
  card := card_chosen k hl
  le _ hx _ hy := cost_le_of_chosen k hl hx hy

end FirstBest
