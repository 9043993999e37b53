/-
Filling containers one after the other: an item goes behind what is in the container already if there is room for it,
and into a new container otherwise.
-/
import Mathlib.Tactic

namespace Filling

/-- A container: its room, and how much of it is used. -/
structure Level where
  room : Nat
  used : Nat

/-- What an item takes behind others, and what it takes at the beginning of a container. -/
structure Item where
  behind : Nat
  first : Nat

def Level.Full (p : Level) (i : Item) : Prop := p.room < p.used + i.behind

instance (p : Level) (i : Item) : Decidable (p.Full i) := inferInstanceAs (Decidable (_ < _))

/-- The container that the item has gone into; `fresh` is a new one. -/
def next (fresh p : Level) (i : Item) : Level :=
  if p.Full i then ⟨fresh.room, fresh.used + i.first⟩ else ⟨p.room, p.used + i.behind⟩

/-- Every step of the filling meets `ok`. -/
def Steps (fresh : Level) (ok : Level → Item → Prop) : Level → List Item → Prop
  | _, [] => True
  | p, i :: l => ok p i ∧ Steps fresh ok (next fresh p i) l

instance decidableSteps {fresh : Level} {ok : Level → Item → Prop} [∀ p i, Decidable (ok p i)] :
    ∀ (p : Level) (l : List Item), Decidable (Steps fresh ok p l)
  | _, [] => .isTrue trivial
  | p, i :: l =>
    have : Decidable (Steps fresh ok (next fresh p i) l) := decidableSteps _ l
    inferInstanceAs (Decidable (_ ∧ _))

/-- A new container has room for the item, and no container is used beyond `bound`. -/
def Bounded (bound : Nat) (fresh p : Level) (i : Item) : Prop :=
  (p.Full i → fresh.used + i.first ≤ fresh.room) ∧ (next fresh p i).used ≤ bound

instance (bound : Nat) (fresh p : Level) (i : Item) : Decidable (Bounded bound fresh p i) :=
  inferInstanceAs (Decidable (_ ∧ _))

section

variable {fresh p : Level} {ok ok' : Level → Item → Prop}

theorem next_of_full {i : Item} (h : p.Full i) : next fresh p i = ⟨fresh.room, fresh.used + i.first⟩ := if_pos h

theorem next_of_not_full {i : Item} (h : ¬p.Full i) : next fresh p i = ⟨p.room, p.used + i.behind⟩ := if_neg h

theorem steps_append : ∀ {p : Level} {l l' : List Item},
    Steps fresh ok p (l ++ l') ↔ Steps fresh ok p l ∧ Steps fresh ok (l.foldl (next fresh) p) l'
  | _, [], _ => (iff_of_eq (true_and _)).symm
  | _, _ :: _, _ => (and_congr_right fun _ => steps_append).trans and_assoc.symm

/-- What the steps keep, and lets them meet the condition, holds along the filling. -/
theorem Steps.of_invariant {P : Level → Prop} : ∀ {l : List Item} {p : Level},
    (∀ p, ∀ i ∈ l, P p → ok p i ∧ P (next fresh p i)) → P p → Steps fresh ok p l
  | [], _, _, _ => trivial
  | i :: _, p, h, hp =>
    have ⟨hok, hnext⟩ := h p i List.mem_cons_self hp
    ⟨hok, Steps.of_invariant (fun p j hj => h p j (List.mem_cons_of_mem i hj)) hnext⟩

end

/-! ## Items of one size -/

/-- How many items of size `k` find room. -/
def Level.capacity (p : Level) (k : Nat) : Nat := (p.room - p.used) / k

/-- Of `n` items of size `k`, neither those that find room nor those that go into new containers take any of them
beyond `bound`. -/
structure Uniform (bound k n : Nat) (fresh p : Level) : Prop where
  here : p.used + min n (p.capacity k) * k ≤ bound
  room : p.capacity k < n → fresh.used + k ≤ fresh.room
  later : p.capacity k < n → fresh.used + min (n - p.capacity k) (fresh.capacity k) * k ≤ bound

instance (bound k n : Nat) (fresh p : Level) : Decidable (Uniform bound k n fresh p) :=
  decidable_of_iff (p.used + min n (p.capacity k) * k ≤ bound ∧ (p.capacity k < n → fresh.used + k ≤ fresh.room) ∧
    (p.capacity k < n → fresh.used + min (n - p.capacity k) (fresh.capacity k) * k ≤ bound))
    ⟨fun h => ⟨h.1, h.2.1, h.2.2⟩, fun h => ⟨h.here, h.room, h.later⟩⟩

section

variable {fresh p : Level} {bound k n : Nat}

theorem Level.full_iff (hk : 0 < k) (hp : p.used ≤ p.room) : p.Full ⟨k, k⟩ ↔ p.capacity k = 0 := by
  rw [Level.Full, Level.capacity, Nat.div_eq_zero_iff]
  dsimp only
  omega

/-- An item that finds room takes the place of one. -/
theorem Level.capacity_of_not_full (hfull : ¬p.Full ⟨k, k⟩) (hk : 0 < k) :
    p.capacity k = (Level.mk p.room (p.used + k)).capacity k + 1 := by
  rw [Level.Full] at hfull
  dsimp only at hfull
  rw [Level.capacity, Level.capacity, ← Nat.add_div_right _ hk]
  dsimp only
  congr 1
  omega

theorem uniform_zero (hp : p.used ≤ bound) : Uniform bound k 0 fresh p := by
  refine ⟨?_, fun h => absurd h (Nat.not_lt_zero _), fun h => absurd h (Nat.not_lt_zero _)⟩
  rw [Nat.zero_min, Nat.zero_mul]
  exact hp

/-- An item that finds room leaves the others the rest. -/
theorem uniform_succ_of_not_full (hk : 0 < k) (hfull : ¬p.Full ⟨k, k⟩) :
    Uniform bound k (n + 1) fresh p ↔ Uniform bound k n fresh ⟨p.room, p.used + k⟩ := by
  have hcap := p.capacity_of_not_full hfull hk
  have hused : p.used + min (n + 1) (p.capacity k) * k =
      p.used + k + min n ((Level.mk p.room (p.used + k)).capacity k) * k := by
    rw [hcap, Nat.add_min_add_right, Nat.add_one_mul]
    omega
  have hrest : n + 1 - p.capacity k = n - (Level.mk p.room (p.used + k)).capacity k := by omega
  have hlt : p.capacity k < n + 1 ↔ (Level.mk p.room (p.used + k)).capacity k < n := by omega
  constructor
  · rintro ⟨hhere, hroom, hlater⟩
    exact ⟨hused ▸ hhere, fun h => hroom (hlt.2 h), fun h => hrest ▸ hlater (hlt.2 h)⟩
  · rintro ⟨hhere, hroom, hlater⟩
    exact ⟨hused.symm ▸ hhere, fun h => hroom (hlt.1 h), fun h => hrest.symm ▸ hlater (hlt.1 h)⟩

/-- An item that finds no room begins a new container for the others. -/
theorem uniform_succ_of_full (hk : 0 < k) (hp : p.used ≤ p.room) (hbound : p.used ≤ bound) (hfull : p.Full ⟨k, k⟩) :
    Uniform bound k (n + 1) fresh p ↔
      fresh.used + k ≤ fresh.room ∧ Uniform bound k n fresh ⟨fresh.room, fresh.used + k⟩ := by
  have hzero := (Level.full_iff hk hp).1 hfull
  have hhere : p.used + min (n + 1) (p.capacity k) * k ≤ bound := by
    rw [hzero, Nat.min_zero, Nat.zero_mul]
    exact hbound
  have hcap : fresh.used + k ≤ fresh.room →
      fresh.capacity k = (Level.mk fresh.room (fresh.used + k)).capacity k + 1 := fun hroom =>
    fresh.capacity_of_not_full (by rw [Level.Full]; dsimp only; omega) hk
  have hused : fresh.used + k ≤ fresh.room → fresh.used + min (n + 1) (fresh.capacity k) * k =
      fresh.used + k + min n ((Level.mk fresh.room (fresh.used + k)).capacity k) * k := fun hroom => by
    rw [hcap hroom, Nat.add_min_add_right, Nat.add_one_mul]
    omega
  have hpos : p.capacity k < n + 1 := by omega
  constructor
  · rintro ⟨-, hroom, hlater⟩
    have hlater := hlater hpos
    rw [hzero, Nat.sub_zero, hused (hroom hpos)] at hlater
    refine ⟨hroom hpos, hlater, fun _ => hroom hpos, fun _ => ?_⟩
    -- the containers after the new one hold no more than it does
    refine le_trans (Nat.add_le_add_left (Nat.mul_le_mul_right k ?_) _) ((hused (hroom hpos)).le.trans hlater)
    exact min_le_min (by omega) le_rfl
  · rintro ⟨hroom, hlater⟩
    refine ⟨hhere, fun _ => hroom, fun _ => ?_⟩
    rw [hzero, Nat.sub_zero, hused hroom]
    exact hlater.here

theorem steps_replicate_iff (hk : 0 < k) : ∀ {n : Nat} {p : Level}, p.used ≤ p.room → p.used ≤ bound →
    (Steps fresh (Bounded bound fresh) p (List.replicate n ⟨k, k⟩) ↔ Uniform bound k n fresh p)
  | 0, _, _, hbound => iff_of_true trivial (uniform_zero hbound)
  | n + 1, p, hp, hbound => by
    rw [List.replicate_succ, Steps, Bounded]
    by_cases hfull : p.Full ⟨k, k⟩
    · rw [next_of_full hfull, uniform_succ_of_full hk hp hbound hfull]
      constructor
      · rintro ⟨⟨hroom, hnew⟩, hrest⟩
        exact ⟨hroom hfull, (steps_replicate_iff hk (hroom hfull) hnew).1 hrest⟩
      · rintro ⟨hroom, hrest⟩
        have hnew : fresh.used + k ≤ bound := le_trans (Nat.le_add_right _ _) hrest.here
        exact ⟨⟨fun _ => hroom, hnew⟩, (steps_replicate_iff hk hroom hnew).2 hrest⟩
    · rw [next_of_not_full hfull, uniform_succ_of_not_full hk hfull]
      have hroom : p.used + k ≤ p.room := Nat.le_of_not_lt hfull
      constructor
      · rintro ⟨⟨-, hnew⟩, hrest⟩
        exact (steps_replicate_iff hk hroom hnew).1 hrest
      · intro hrest
        have hnew : p.used + k ≤ bound := le_trans (Nat.le_add_right _ _) hrest.here
        exact ⟨⟨fun h => absurd h hfull, hnew⟩, (steps_replicate_iff hk hroom hnew).2 hrest⟩

/-- Containers that are no larger than the bound stay within it. -/
theorem uniform_of_room (hp : p.used ≤ p.room) (hbound : p.room ≤ bound) (hroom : fresh.used + k ≤ fresh.room)
    (hfresh : fresh.room ≤ bound) : Uniform bound k n fresh p := by
  have hmul : ∀ (m : Nat) (q : Level), min m (q.capacity k) * k ≤ q.room - q.used := fun m q =>
    le_trans (Nat.mul_le_mul_right k (min_le_right _ _)) (Nat.div_mul_le_self _ _)
  refine ⟨?_, fun _ => hroom, fun _ => ?_⟩
  · have := hmul n p
    omega
  · have := hmul (n - p.capacity k) fresh
    omega

end

end Filling
