/-
A stream that is a row of frames, of which so much has arrived. A frame can be told as soon as its head is there, and
the frames whose heads have arrived end where the next head is expected.
-/
import Mathlib.Data.List.Infix
import Mathlib.Tactic

namespace Framed

variable {α : Type} {h n : Nat} {frames done todo : List (List α)}

/-- The frames whose first `h` elements are among the first `n` of the stream. -/
def arrived (h : Nat) : List (List α) → Nat → List (List α)
  | [], _ => []
  | f :: fs, n => if n < h then [] else f :: arrived h fs (n - f.length)

/-- Where the last frame ends that can be told. -/
def ends (h : Nat) (frames : List (List α)) (n : Nat) : Nat := (arrived h frames n).flatten.length

theorem arrived_of_lt (hn : n < h) : arrived h frames n = [] := by
  cases frames with
  | nil => rfl
  | cons f fs => exact if_pos hn

theorem arrived_cons_of_le {f : List α} (hn : h ≤ n) :
    arrived h (f :: frames) n = f :: arrived h frames (n - f.length) :=
  if_neg (Nat.not_lt.2 hn)

theorem arrived_isPrefix (h : Nat) : ∀ (frames : List (List α)) (n : Nat), arrived h frames n <+: frames
  | [], _ => List.nil_prefix
  | f :: fs, n => by
    unfold arrived
    split
    · exact List.nil_prefix
    · exact List.cons_prefix_cons.2 ⟨rfl, arrived_isPrefix h fs _⟩

theorem append_drop_arrived (h : Nat) (frames : List (List α)) (n : Nat) :
    arrived h frames n ++ frames.drop (arrived h frames n).length = frames :=
  (List.prefix_append_drop (arrived_isPrefix h frames n)).symm

/-- What has arrived does not reach beyond the head of the next frame. -/
theorem lt_ends (hpos : 0 < h) : ∀ {frames : List (List α)} {n : Nat}, n ≤ frames.flatten.length →
    n < ends h frames n + h
  | [], n, hn => by
    rw [List.flatten_nil, List.length_nil] at hn
    omega
  | f :: fs, n, hn => by
    unfold ends arrived
    rw [List.flatten_cons, List.length_append] at hn
    split
    · omega
    · have hlt : n - f.length < ends h fs (n - f.length) + h := lt_ends hpos (by omega)
      unfold ends at hlt
      rw [List.flatten_cons, List.length_append]
      omega

/-- Frames that can be told stay, and more come behind them. -/
theorem arrived_append : ∀ {done : List (List α)} {n : Nat}, (∀ f ∈ done, h ≤ f.length) → done.flatten.length + h ≤ n →
    arrived h (done ++ todo) n = done ++ arrived h todo (n - done.flatten.length)
  | [], n, _, _ => rfl
  | f :: done, n, hframes, hn => by
    rw [List.flatten_cons, List.length_append] at hn ⊢
    rw [List.cons_append, arrived_cons_of_le (by omega),
      arrived_append (fun g hg => hframes g (List.mem_cons_of_mem _ hg)) (by omega), List.cons_append,
      Nat.sub_sub]

/-- A frame that ends behind what has arrived is as far as frames can be told. -/
theorem ends_le (hpos : 0 < h) : ∀ {done : List (List α)} {n : Nat}, n ≤ done.flatten.length →
    ends h (done ++ todo) n ≤ done.flatten.length
  | [], n, hn => by
    rw [List.flatten_nil, List.length_nil] at hn
    unfold ends
    rw [arrived_of_lt (by omega)]
  | f :: done, n, hn => by
    rw [List.flatten_cons, List.length_append] at hn ⊢
    unfold ends
    rw [List.cons_append]
    unfold arrived
    split
    · exact Nat.zero_le _
    · have hle : ends h (done ++ todo) (n - f.length) ≤ done.flatten.length := ends_le hpos (by omega)
      unfold ends at hle
      rw [List.flatten_cons, List.length_append]
      omega

/-- Frames that fill the same part of a stream are the same. -/
theorem eq_of_length_flatten : ∀ {done done' : List (List α)} {todo todo' : List (List α)},
    (∀ f ∈ done ++ todo, f ≠ []) → done ++ todo = done' ++ todo' → done.flatten.length = done'.flatten.length →
    done = done' ∧ todo = todo'
  | [], [], todo, todo', _, heq, _ => ⟨rfl, heq⟩
  | [], g :: done', todo, todo', hne, heq, hlen => by
    have hg : g ≠ [] := hne g (by rw [heq]; exact List.mem_cons_self ..)
    have := List.length_pos_iff.2 hg
    rw [List.flatten_nil, List.flatten_cons, List.length_append, List.length_nil] at hlen
    omega
  | f :: done, [], todo, todo', hne, heq, hlen => by
    have := List.length_pos_iff.2 (hne f (List.mem_cons_self ..))
    rw [List.flatten_nil, List.flatten_cons, List.length_append, List.length_nil] at hlen
    omega
  | f :: done, g :: done', todo, todo', hne, heq, hlen => by
    obtain ⟨hfg, htail⟩ := List.cons.inj heq
    subst hfg
    rw [List.flatten_cons, List.flatten_cons, List.length_append, List.length_append] at hlen
    obtain ⟨hdone, htodo⟩ := eq_of_length_flatten (fun g hg => hne g (List.mem_cons_of_mem _ hg)) htail (by omega)
    exact ⟨congrArg (f :: ·) hdone, htodo⟩

/-- When everything has arrived, every frame can be told. -/
theorem arrived_all : ∀ {frames : List (List α)}, (∀ f ∈ frames, h ≤ f.length) →
    arrived h frames frames.flatten.length = frames
  | [], _ => rfl
  | f :: fs, hframes => by
    have hf := hframes f (List.mem_cons_self ..)
    rw [List.flatten_cons, List.length_append, arrived_cons_of_le (by omega), Nat.add_sub_cancel_left,
      arrived_all fun g hg => hframes g (List.mem_cons_of_mem _ hg)]

end Framed
