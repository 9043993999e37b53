/-
Dijkstra's algorithm on a graph whose edges have costs: a queue of vertices ordered by the costs of the ways found so
far, in which the oldest of equal cost is first. The search keeps for each vertex the cost and the number of hops of
such a way, and what was chosen for its first hop. If all edges are free, the queue is that of a breadth first search.
-/
import Olsrd.Lib.Keyed

namespace ShortestPath

variable {V L : Type}

/-! ## Graphs and ways -/

/-- The edges out of each vertex, with their costs. -/
abbrev Graph (V : Type) := V → List (V × Nat)

/-- A way from `r` along edges, with its cost and its number of hops. -/
inductive Walk (G : Graph V) (r : V) : V → Nat → Nat → Prop
  | nil : Walk G r r 0 0
  | snoc {u v : V} {c w k : Nat} : Walk G r u c k → (v, w) ∈ G u → Walk G r v (c + w) (k + 1)

theorem Walk.mem {G : Graph V} {r v : V} {c k : Nat} {vs : List V} (hr : r ∈ vs)
    (hG : ∀ u ∈ vs, ∀ v w, (v, w) ∈ G u → v ∈ vs) (h : Walk G r v c k) : v ∈ vs := by
  induction h with
  | nil => exact hr
  | snoc _ hmem ih => exact hG _ ih _ _ hmem

theorem Walk.cost_eq_zero {G : Graph V} (hfree : ∀ u v w, (v, w) ∈ G u → w = 0) {r v : V} {c k : Nat}
    (h : Walk G r v c k) : c = 0 := by
  induction h with
  | nil => rfl
  | snoc _ hmem ih => rw [ih, hfree _ _ _ hmem]

/-- The cost of a way to `v` is least. -/
def Least (G : Graph V) (r v : V) (c : Nat) : Prop := (∃ k, Walk G r v c k) ∧ ∀ c' k, Walk G r v c' k → c ≤ c'

/-! ## The search -/

structure Search (V L : Type) where
  cost : V → Option Nat
  hops : V → Nat
  via : V → Option L
  queue : List (Nat × V)
  settled : List V

def ltKey (a b : Nat) : Bool := a < b

namespace Search

/-- A way of cost `c` to `v` is better than what is known. -/
def Better (a : Search V L) (c : Nat) (v : V) : Prop := ∀ c', a.cost v = some c' → c < c'

instance (a : Search V L) (c : Nat) (v : V) : Decidable (a.Better c v) :=
  match h : a.cost v with
  | none => .isTrue fun c' hc => by rw [h] at hc; cases hc
  | some c' => decidable_of_iff (c < c') ⟨fun hlt d hd => by rw [h] at hd; cases hd; exact hlt, fun hb => hb c' h⟩

/-! ## The invariant -/

/-- Every label is that of a way, and the edges of the settled vertices have been explored. -/
structure Inv (G : Graph V) (r : V) (a : Search V L) : Prop where
  root : a.cost r = some 0
  rootHops : a.hops r = 0
  queueCost : ∀ c v, (c, v) ∈ a.queue → a.cost v = some c
  nodup : (a.queue.map Prod.snd ++ a.settled).Nodup
  labelled : ∀ v c, a.cost v = some c → (c, v) ∈ a.queue ∨ v ∈ a.settled
  settledCost : ∀ u ∈ a.settled, ∃ c, a.cost u = some c
  sorted : Keyed.Sorted ltKey a.queue
  behind : ∀ u ∈ a.settled, ∀ c, a.cost u = some c → ∀ c' v, (c', v) ∈ a.queue → c ≤ c'
  order : a.settled.Pairwise fun u v => ∀ c c', a.cost u = some c → a.cost v = some c' → c ≤ c'
  walk : ∀ v c, a.cost v = some c → Walk G r v c (a.hops v)
  closed : ∀ u ∈ a.settled, ∀ c, a.cost u = some c → ∀ v w, (v, w) ∈ G u → ∃ c', a.cost v = some c' ∧ c' ≤ c + w

/-- `u` is a cheapest vertex of the queue. -/
structure Front (u : V) (c : Nat) (a : Search V L) : Prop where
  mem : (c, u) ∈ a.queue
  least : ∀ c' v, (c', v) ∈ a.queue → c ≤ c'

section

variable {G : Graph V} {r u v : V} {c w : Nat} {a b : Search V L}

theorem front_of_queue (h : a.Inv G r) {q : List (Nat × V)} (hq : a.queue = (c, u) :: q) : a.Front u c := by
  refine ⟨by rw [hq]; exact List.mem_cons_self .., fun c' v hv => ?_⟩
  have hsorted := h.sorted
  rw [hq] at hsorted hv
  obtain hv | hv := List.mem_cons.1 hv
  · exact (Prod.mk.inj hv).1.ge
  · have hle := (List.pairwise_cons.1 hsorted).1 _ hv
    simpa [ltKey] using hle

/-- A vertex that the front makes better is neither settled nor the front itself. -/
theorem Better.fresh (h : a.Inv G r) (hf : a.Front u c) (hb : a.Better (c + w) v) : v ≠ u ∧ v ≠ r ∧ v ∉ a.settled := by
  refine ⟨?_, ?_, fun hv => ?_⟩
  · rintro rfl
    have hlt := hb c (h.queueCost _ _ hf.mem)
    omega
  · rintro rfl
    have hlt := hb 0 h.root
    omega
  · obtain ⟨c', hc'⟩ := h.settledCost v hv
    have hle := h.behind v hv c' hc' c u hf.mem
    have hlt := hb c' hc'
    omega

/-- What a finished search knows. -/
theorem Inv.walk_le (h : a.Inv G r) (hq : a.queue = []) {k : Nat} (hw : Walk G r v c k) :
    ∃ c', a.cost v = some c' ∧ c' ≤ c := by
  induction hw with
  | nil => exact ⟨0, h.root, le_rfl⟩
  | snoc _ hmem ih =>
    obtain ⟨c', hc', hle⟩ := ih
    obtain hin | hin := h.labelled _ c' hc'
    · rw [hq] at hin
      exact (List.not_mem_nil hin).elim
    · obtain ⟨d, hd, hle'⟩ := h.closed _ hin c' hc' _ _ hmem
      exact ⟨d, hd, by omega⟩

/-- The search ends with the least costs. -/
theorem Inv.cost_iff (h : a.Inv G r) (hq : a.queue = []) : a.cost v = some c ↔ Least G r v c := by
  constructor
  · intro hc
    refine ⟨⟨_, h.walk v c hc⟩, fun c' k hw => ?_⟩
    obtain ⟨d, hd, hle⟩ := h.walk_le hq hw
    obtain rfl := Option.some.inj (hc.symm.trans hd)
    exact hle
  · rintro ⟨⟨k, hw⟩, hleast⟩
    obtain ⟨d, hd, hle⟩ := h.walk_le hq hw
    have hge := hleast d _ (h.walk v d hd)
    rw [hd, le_antisymm hle hge]

theorem Inv.mem_settled_iff (h : a.Inv G r) (hq : a.queue = []) : v ∈ a.settled ↔ ∃ c k, Walk G r v c k := by
  constructor
  · intro hv
    obtain ⟨c, hc⟩ := h.settledCost v hv
    exact ⟨c, _, h.walk v c hc⟩
  · rintro ⟨c, k, hw⟩
    obtain ⟨d, hd, -⟩ := h.walk_le hq hw
    obtain hin | hin := h.labelled v d hd
    · rw [hq] at hin
      exact (List.not_mem_nil hin).elim
    · exact hin

/-- With free edges all labels are zero. -/
theorem Inv.free (h : a.Inv G r) (hfree : ∀ u v w, (v, w) ∈ G u → w = 0) (hc : a.cost v = some c) : c = 0 :=
  (h.walk v c hc).cost_eq_zero hfree

/-- The front of the queue has its least cost already. -/
theorem Inv.front_least (h : a.Inv G r) (hf : a.Front u c) : Least G r u c := by
  refine ⟨⟨_, h.walk u c (h.queueCost _ _ hf.mem)⟩, fun c' k hw => ?_⟩
  -- a way leaves the settled vertices at a vertex of the queue
  have hstep : ∀ {x d d'}, a.cost x = some d' → d' ≤ d →
      (x ∈ a.settled ∧ ∃ d', a.cost x = some d' ∧ d' ≤ d) ∨ c ≤ d := by
    intro x d d' hd' hle
    obtain hx | hx := h.labelled x d' hd'
    · exact .inr ((hf.least d' x hx).trans hle)
    · exact .inl ⟨hx, d', hd', hle⟩
  have hway : ∀ {x d k}, Walk G r x d k → (x ∈ a.settled ∧ ∃ d', a.cost x = some d' ∧ d' ≤ d) ∨ c ≤ d := by
    intro x d k hw
    induction hw with
    | nil => exact hstep h.root le_rfl
    | snoc _ hmem ih =>
      obtain ⟨hx, d', hd', hle⟩ | hle := ih
      · obtain ⟨e, he, hle'⟩ := h.closed _ hx d' hd' _ _ hmem
        exact hstep he (by omega)
      · exact .inr (by omega)
  obtain ⟨-, d', hd', hle⟩ | hle := hway hw
  · obtain rfl := Option.some.inj (hd'.symm.trans (h.queueCost _ _ hf.mem))
    exact hle
  · exact hle

end

/-! ## Exploring an edge -/

variable [DecidableEq V]

/-- The way to `v` over `u`, of cost `c`, is the best one so far. -/
def label (u v : V) (c : Nat) (a : Search V L) : Search V L :=
  { a with
    cost := Function.update a.cost v (some c)
    hops := Function.update a.hops v (a.hops u + 1)
    via := if (a.via u).isSome then Function.update a.via v (a.via u) else a.via
    queue := Keyed.insert ltKey c v (Keyed.erase v a.queue) }

/-- One edge of `u`, which costs `c`. -/
def relaxEdge (u : V) (c : Nat) (a : Search V L) (e : V × Nat) : Search V L :=
  if a.Better (c + e.2) e.1 then a.label u e.1 (c + e.2) else a

/-- The edges of `u` are explored, and `u` is settled. -/
def round (G : Graph V) (u : V) (c : Nat) (a : Search V L) : Search V L :=
  let a := (G u).foldl (relaxEdge u c) a
  { a with queue := Keyed.erase u a.queue, settled := a.settled ++ [u] }

def run (G : Graph V) : Nat → Search V L → Option (Search V L)
  | 0, _ => none
  | fuel + 1, a =>
    match a.queue with
    | [] => some a
    | (c, u) :: _ => run G fuel (a.round G u c)

def start (r : V) (via : V → Option L) : Search V L where
  cost := Function.update (fun _ => none) r (some 0)
  hops := fun _ => 0
  via := via
  queue := [(0, r)]
  settled := []

section

variable {G : Graph V} {r u v : V} {c w : Nat} {a b : Search V L}

theorem inv_start (G : Graph V) (r : V) (via : V → Option L) : (start r via).Inv G r := by
  have hlabels : (start r via).cost = Function.update (fun _ => none) r (some 0) := rfl
  have hroot : (start r via).cost r = some 0 := by rw [hlabels, Function.update_self]
  have hcost : ∀ v c, (start r via).cost v = some c → v = r ∧ c = 0 := by
    intro v c hc
    by_cases hv : v = r
    · subst hv
      exact ⟨rfl, Option.some.inj (hc.symm.trans hroot)⟩
    · rw [hlabels, Function.update_of_ne hv] at hc
      cases hc
  refine ⟨hroot, rfl, fun c v hv => ?_, List.nodup_singleton _, fun v c hc => ?_,
    fun u hu => (List.not_mem_nil hu).elim,
    List.pairwise_singleton _ _, fun u hu => (List.not_mem_nil hu).elim, List.Pairwise.nil, fun v c hc => ?_,
    fun u hu => (List.not_mem_nil hu).elim⟩
  · obtain ⟨rfl, rfl⟩ := Prod.mk.inj (List.mem_singleton.1 hv)
    exact hroot
  · obtain ⟨rfl, rfl⟩ := hcost v c hc
    exact .inl (List.mem_cons_self ..)
  · obtain ⟨rfl, rfl⟩ := hcost v c hc
    exact .nil

theorem mem_queue_label {x : Nat × V} : x ∈ (a.label u v c).queue ↔ x = (c, v) ∨ (x ∈ a.queue ∧ x.2 ≠ v) := by
  rw [label, Keyed.mem_insert, Keyed.mem_erase]

theorem cost_label_ne {x : V} (hx : x ≠ v) : (a.label u v c).cost x = a.cost x := Function.update_of_ne hx _ _

theorem cost_label_self : (a.label u v c).cost v = some c := Function.update_self ..

theorem cost_label_le (hb : a.Better c v) {x : V} {c' : Nat} (hc' : a.cost x = some c') :
    ∃ d, (a.label u v c).cost x = some d ∧ d ≤ c' := by
  by_cases hx : x = v
  · subst hx
    exact ⟨c, cost_label_self, (hb c' hc').le⟩
  · exact ⟨c', by rw [cost_label_ne hx, hc'], le_rfl⟩

theorem Inv.label (h : a.Inv G r) (hf : a.Front u c) (hmem : (v, w) ∈ G u) (hb : a.Better (c + w) v) :
    (a.label u v (c + w)).Inv G r ∧ (a.label u v (c + w)).Front u c := by
  obtain ⟨hu, hr, hs⟩ := Better.fresh h hf hb
  have hcu := h.queueCost _ _ hf.mem
  have hkeep : ∀ x ∈ a.settled, (a.label u v (c + w)).cost x = a.cost x := by
    intro x hx
    refine cost_label_ne ?_
    rintro rfl
    exact hs hx
  constructor
  · refine ⟨by rw [cost_label_ne hr.symm, h.root], (Function.update_of_ne hr.symm _ _).trans h.rootHops,
      fun c' x hx => ?_, ?_, fun x c' hx => ?_, fun x hx => ?_, ?_, fun x hx c' hc' d y hy => ?_, ?_,
      fun x c' hx => ?_, fun x hx c' hc' y w' hy => ?_⟩
    · obtain heq | ⟨hx, hne⟩ := mem_queue_label.1 hx
      · obtain ⟨rfl, rfl⟩ := Prod.mk.inj heq
        exact cost_label_self
      · rw [cost_label_ne hne, h.queueCost _ _ hx]
    · -- `v` is once in the new queue
      have hperm : ((a.label u v (c + w)).queue.map Prod.snd).Perm (v :: (Keyed.erase v a.queue).map Prod.snd) :=
        (Keyed.insert_perm _ _ _ _).map Prod.snd
      change ((a.label u v (c + w)).queue.map Prod.snd ++ a.settled).Nodup
      rw [(hperm.append_right a.settled).nodup_iff, List.cons_append, List.nodup_cons]
      refine ⟨fun hv => ?_, h.nodup.sublist ((List.filter_sublist.map Prod.snd).append_right _)⟩
      obtain hv | hv := List.mem_append.1 hv
      · obtain ⟨e, he, rfl⟩ := List.mem_map.1 hv
        exact (Keyed.mem_erase.1 he).2 rfl
      · exact hs hv
    · by_cases hxv : x = v
      · subst hxv
        rw [cost_label_self] at hx
        obtain rfl := Option.some.inj hx
        exact .inl (mem_queue_label.2 (.inl rfl))
      · rw [cost_label_ne hxv] at hx
        exact (h.labelled x c' hx).imp (fun hq => mem_queue_label.2 (.inr ⟨hq, hxv⟩)) id
    · rw [hkeep x hx]
      exact h.settledCost x hx
    · refine Keyed.Sorted.insert (fun x y hxy => ?_) (fun x y z hxy hzy => ?_) _ _ (h.sorted.erase v)
      · simp only [ltKey, decide_eq_true_eq, decide_eq_false_iff_not] at *
        omega
      · simp only [ltKey, decide_eq_true_eq, decide_eq_false_iff_not] at *
        omega
    · rw [hkeep x hx] at hc'
      obtain heq | ⟨hy, -⟩ := mem_queue_label.1 hy
      · obtain ⟨rfl, rfl⟩ := Prod.mk.inj heq
        exact le_trans (h.behind x hx c' hc' c u hf.mem) (Nat.le_add_right ..)
      · exact h.behind x hx c' hc' d y hy
    · refine h.order.imp_of_mem fun {x y} hx hy hxy c₁ c₂ h₁ h₂ => ?_
      rw [hkeep x hx] at h₁
      rw [hkeep y hy] at h₂
      exact hxy c₁ c₂ h₁ h₂
    · by_cases hxv : x = v
      · subst hxv
        rw [cost_label_self] at hx
        obtain rfl := Option.some.inj hx
        have hhops : (a.label u x (c + w)).hops x = a.hops u + 1 := Function.update_self ..
        rw [hhops]
        exact (h.walk u c hcu).snoc hmem
      · rw [cost_label_ne hxv] at hx
        have hhops : (a.label u v (c + w)).hops x = a.hops x := Function.update_of_ne hxv _ _
        rw [hhops]
        exact h.walk x c' hx
    · rw [hkeep x hx] at hc'
      obtain ⟨d, hd, hle⟩ := h.closed x hx c' hc' y w' hy
      obtain ⟨d', hd', hle'⟩ := cost_label_le (u := u) hb hd
      exact ⟨d', hd', hle'.trans hle⟩
  · refine ⟨mem_queue_label.2 (.inr ⟨hf.mem, hu.symm⟩), fun c' x hx => ?_⟩
    obtain heq | ⟨hx, -⟩ := mem_queue_label.1 hx
    · obtain ⟨rfl, rfl⟩ := Prod.mk.inj heq
      exact Nat.le_add_right ..
    · exact hf.least c' x hx

/-! ## A round -/

/-- Exploring edges of the front: the invariant is kept, no label gets worse, nothing is settled, and the ends of the
edges are labelled. -/
structure Explored (G : Graph V) (r u : V) (c : Nat) (l : List (V × Nat)) (a b : Search V L) : Prop where
  inv : b.Inv G r
  front : b.Front u c
  settled : b.settled = a.settled
  mono : ∀ x c', a.cost x = some c' → ∃ d, b.cost x = some d ∧ d ≤ c'
  covered : ∀ v w, (v, w) ∈ l → ∃ d, b.cost v = some d ∧ d ≤ c + w

theorem explored_edge (h : a.Inv G r) (hf : a.Front u c) {e : V × Nat} (hmem : e ∈ G u) :
    Explored G r u c [e] a (a.relaxEdge u c e) := by
  obtain ⟨v, w⟩ := e
  unfold relaxEdge
  dsimp only
  by_cases hb : a.Better (c + w) v
  · rw [if_pos hb]
    obtain ⟨hinv, hfront⟩ := h.label hf hmem hb
    refine ⟨hinv, hfront, rfl, fun x c' hx => cost_label_le hb hx, fun y w' hy => ?_⟩
    obtain ⟨rfl, rfl⟩ := Prod.mk.inj (List.mem_singleton.1 hy)
    exact ⟨_, cost_label_self, le_rfl⟩
  · rw [if_neg hb]
    refine ⟨h, hf, rfl, fun x c' hx => ⟨c', hx, le_rfl⟩, fun y w' hy => ?_⟩
    obtain ⟨rfl, rfl⟩ := Prod.mk.inj (List.mem_singleton.1 hy)
    simp only [Better, not_forall, not_lt] at hb
    obtain ⟨d, hd, hle⟩ := hb
    exact ⟨d, hd, hle⟩

theorem explored_edges : ∀ (l : List (V × Nat)) {a : Search V L}, (∀ e ∈ l, e ∈ G u) → a.Inv G r → a.Front u c →
    Explored G r u c l a (l.foldl (relaxEdge u c) a)
  | [], a, _, h, hf => ⟨h, hf, rfl, fun _ c' hx => ⟨c', hx, le_rfl⟩, fun _ _ hv => (List.not_mem_nil hv).elim⟩
  | e :: l, a, hl, h, hf => by
    have h₁ := explored_edge h hf (hl e (List.mem_cons_self ..))
    have h₂ := explored_edges l (fun e' he' => hl e' (List.mem_cons_of_mem _ he')) h₁.inv h₁.front
    refine ⟨h₂.inv, h₂.front, h₂.settled.trans h₁.settled, fun x c' hx => ?_, fun v w hv => ?_⟩
    · obtain ⟨d, hd, hle⟩ := h₁.mono x c' hx
      obtain ⟨d', hd', hle'⟩ := h₂.mono x d hd
      exact ⟨d', hd', hle'.trans hle⟩
    · obtain rfl | hv := List.mem_cons.1 hv
      · obtain ⟨d, hd, hle⟩ := h₁.covered v w (List.mem_singleton_self _)
        obtain ⟨d', hd', hle'⟩ := h₂.mono v d hd
        exact ⟨d', hd', hle'.trans hle⟩
      · exact h₂.covered v w hv

/-- The front is settled when its edges have been explored. -/
theorem Explored.settle (h : Explored G r u c (G u) a b) :
    { b with queue := Keyed.erase u b.queue, settled := b.settled ++ [u] }.Inv G r := by
  have hi := h.inv
  have hcu := hi.queueCost _ _ h.front.mem
  have hnodup := hi.nodup
  obtain ⟨hqueue, hsettled, hdisj⟩ := List.nodup_append.1 hnodup
  have hu : u ∉ b.settled := fun hmem => hdisj u (List.mem_map_of_mem (f := Prod.snd) h.front.mem) u hmem rfl
  refine ⟨hi.root, hi.rootHops, fun c' x hx => hi.queueCost _ _ (Keyed.mem_erase.1 hx).1, ?_, fun x c' hx => ?_,
    fun x hx => ?_, hi.sorted.erase u, fun x hx c' hc' d y hy => ?_, ?_, hi.walk, fun x hx c' hc' y w hy => ?_⟩
  · refine List.nodup_append.2 ⟨hqueue.sublist (List.filter_sublist.map Prod.snd), ?_, fun x hx y hy heq => ?_⟩
    · exact List.nodup_append.2 ⟨hsettled, List.nodup_singleton u, fun x hx y hy heq => by
        rw [List.mem_singleton.1 hy] at heq
        exact hu (heq ▸ hx)⟩
    · subst heq
      obtain ⟨e, he, rfl⟩ := List.mem_map.1 hx
      obtain ⟨he, hne⟩ := Keyed.mem_erase.1 he
      obtain hy | hy := List.mem_append.1 hy
      · exact hdisj e.2 (List.mem_map_of_mem (f := Prod.snd) he) e.2 hy rfl
      · exact hne (List.mem_singleton.1 hy)
  · by_cases hxu : x = u
    · exact .inr (List.mem_append_right _ (List.mem_singleton.2 hxu))
    · exact (hi.labelled x c' hx).imp (fun hq => Keyed.mem_erase.2 ⟨hq, hxu⟩) (List.mem_append_left _)
  · obtain hx | hx := List.mem_append.1 hx
    · exact hi.settledCost x hx
    · rw [List.mem_singleton.1 hx]
      exact ⟨c, hcu⟩
  · have hyq := (Keyed.mem_erase.1 hy).1
    obtain hx | hx := List.mem_append.1 hx
    · exact hi.behind x hx c' hc' d y hyq
    · obtain rfl := List.mem_singleton.1 hx
      obtain rfl := Option.some.inj (hcu.symm.trans hc')
      exact h.front.least d y hyq
  · refine List.pairwise_append.2 ⟨hi.order, List.pairwise_singleton _ _, fun x hx y hy c₁ c₂ h₁ h₂ => ?_⟩
    obtain rfl := List.mem_singleton.1 hy
    obtain rfl := Option.some.inj (hcu.symm.trans h₂)
    exact hi.behind x hx c₁ h₁ c y h.front.mem
  · obtain hx | hx := List.mem_append.1 hx
    · exact hi.closed x hx c' hc' y w hy
    · obtain rfl := List.mem_singleton.1 hx
      obtain rfl := Option.some.inj (hcu.symm.trans hc')
      exact h.covered y w hy

theorem Inv.round (h : a.Inv G r) (hf : a.Front u c) :
    (a.round G u c).Inv G r ∧ (a.round G u c).settled = a.settled ++ [u] := by
  have hex := explored_edges (G u) (fun _ he => he) h hf
  exact ⟨hex.settle, by rw [Search.round, hex.settled]⟩

/-! ## Runs -/

theorem Inv.run : ∀ {fuel : Nat} {a b : Search V L}, a.Inv G r → a.run G fuel = some b → b.Inv G r ∧ b.queue = []
  | fuel + 1, a, b, h, hrun => by
    rw [Search.run] at hrun
    split at hrun
    · next hq =>
      obtain rfl := Option.some.inj hrun
      exact ⟨h, hq⟩
    · next c u q hq => exact Inv.run (h.round (front_of_queue h hq)).1 hrun

/-- In a finite graph the search ends: every round settles one more vertex. -/
theorem run_total {vs : List V} (hr : r ∈ vs) (hG : ∀ u ∈ vs, ∀ v w, (v, w) ∈ G u → v ∈ vs) :
    ∀ (fuel : Nat) {a : Search V L}, a.Inv G r → vs.length < fuel + a.settled.length → ∃ b, a.run G fuel = some b := by
  have hmem : ∀ {a : Search V L}, a.Inv G r → ∀ v c, a.cost v = some c → v ∈ vs := fun h v c hc =>
    (h.walk v c hc).mem hr hG
  have hbound : ∀ {a : Search V L}, a.Inv G r → a.settled.length ≤ vs.length := by
    intro a h
    have hnodup := (List.nodup_append.1 h.nodup).2.1
    refine (hnodup.subperm fun v hv => ?_).length_le
    obtain ⟨c, hc⟩ := h.settledCost v hv
    exact hmem h v c hc
  intro fuel
  induction fuel with
  | zero =>
    intro a h hfuel
    have hle := hbound h
    omega
  | succ fuel ih =>
    intro a h hfuel
    rw [Search.run]
    split
    · exact ⟨a, rfl⟩
    · next c u q hq =>
      obtain ⟨hinv, hsettled⟩ := h.round (front_of_queue h hq)
      refine ih hinv ?_
      rw [hsettled, List.length_append, List.length_singleton]
      omega

end

/-! ## Free edges -/

/-- The queue of a breadth first search, with the vertex `u` in front. -/
structure Layers (G : Graph V) (u : V) (a : Search V L) : Prop where
  head : ∃ q, a.queue.map Prod.snd = u :: q
  ascending : (a.queue.map Prod.snd).Pairwise fun x y => a.hops x ≤ a.hops y
  near : ∀ y ∈ a.queue.map Prod.snd, a.hops y ≤ a.hops u + 1
  behind : ∀ x ∈ a.settled, a.hops x ≤ a.hops u

/-- The vertices at the end of the edges of a settled vertex are at most one hop further. -/
def HopsClosed (G : Graph V) (a : Search V L) : Prop :=
  ∀ x ∈ a.settled, ∀ v w, (v, w) ∈ G x → a.hops v ≤ a.hops x + 1

section

variable {G : Graph V} {r u v : V} {c w : Nat} {a b : Search V L}

/-- A vertex that is labelled for the first time goes to the end of the queue. -/
theorem label_free (h : a.Inv G r) (hfree : ∀ u v w, (v, w) ∈ G u → w = 0) (hb : a.Better 0 v) :
    a.cost v = none ∧ (a.label u v 0).queue = a.queue ++ [(0, v)] := by
  have hnone : a.cost v = none := by
    cases hc : a.cost v with
    | none => rfl
    | some c =>
      have hlt := hb c hc
      have hzero := h.free hfree hc
      omega
  refine ⟨hnone, ?_⟩
  have hkeys : ∀ e ∈ a.queue, e.1 = 0 ∧ e.2 ≠ v := by
    rintro ⟨c, x⟩ he
    have hc := h.queueCost c x he
    refine ⟨h.free hfree hc, ?_⟩
    rintro rfl
    rw [hnone] at hc
    cases hc
  have herase : Keyed.erase v a.queue = a.queue := List.filter_eq_self.2 fun e he => by simpa using (hkeys e he).2
  have hinsert : ∀ q : List (Nat × V), (∀ e ∈ q, e.1 = 0) → Keyed.insert ltKey 0 v q = q ++ [(0, v)] := by
    intro q hq
    induction q with
    | nil => rfl
    | cons e q ih =>
      have he := hq e (List.mem_cons_self ..)
      rw [Keyed.insert, he, if_neg (by simp [ltKey]), ih fun e' he' => hq e' (List.mem_cons_of_mem _ he')]
      rfl
  rw [label, herase]
  exact hinsert a.queue fun e he => (hkeys e he).1

theorem Layers.edge (h : a.Inv G r) (hfree : ∀ u v w, (v, w) ∈ G u → w = 0) (hl : a.Layers G u) (hc : a.HopsClosed G)
    (hf : a.Front u c) {e : V × Nat} (hmem : e ∈ G u) :
    (a.relaxEdge u c e).Layers G u ∧ (a.relaxEdge u c e).HopsClosed G := by
  obtain ⟨v, w⟩ := e
  obtain rfl := h.free hfree (h.queueCost _ _ hf.mem)
  obtain rfl := hfree u v w hmem
  unfold relaxEdge
  dsimp only
  by_cases hb : a.Better (0 + 0) v
  · rw [if_pos hb]
    obtain ⟨hnone, hqueue⟩ := label_free (u := u) h hfree hb
    obtain ⟨hu, -, hs⟩ := Better.fresh h hf hb
    have hhops : ∀ x, x ≠ v → (a.label u v (0 + 0)).hops x = a.hops x := fun x hx => Function.update_of_ne hx _ _
    have hself : (a.label u v (0 + 0)).hops v = a.hops u + 1 := Function.update_self ..
    have hmap : (a.label u v (0 + 0)).queue.map Prod.snd = a.queue.map Prod.snd ++ [v] := by
      rw [hqueue, List.map_append]
      rfl
    have hne : ∀ x ∈ a.queue.map Prod.snd, x ≠ v := by
      rintro x hx rfl
      obtain ⟨⟨c, y⟩, he, rfl⟩ := List.mem_map.1 hx
      rw [h.queueCost c y he] at hnone
      cases hnone
    have hsettled : ∀ x ∈ a.settled, x ≠ v := fun x hx heq => hs (heq ▸ hx)
    refine ⟨⟨?_, ?_, fun y hy => ?_, fun x hx => ?_⟩, fun x hx y w hy => ?_⟩
    · obtain ⟨q, hq⟩ := hl.head
      exact ⟨q ++ [v], by rw [hmap, hq]; rfl⟩
    · rw [hmap]
      refine List.pairwise_append.2 ⟨?_, List.pairwise_singleton _ _, fun x hx y hy => ?_⟩
      · refine hl.ascending.imp_of_mem fun {x y} hx hy hxy => ?_
        rwa [hhops x (hne x hx), hhops y (hne y hy)]
      · rw [List.mem_singleton.1 hy, hhops x (hne x hx), hself]
        exact hl.near x hx
    · rw [hmap] at hy
      rw [hhops u hu.symm]
      obtain hy | hy := List.mem_append.1 hy
      · rw [hhops y (hne y hy)]
        exact hl.near y hy
      · rw [List.mem_singleton.1 hy, hself]
    · rw [hhops x (hsettled x hx), hhops u hu.symm]
      exact hl.behind x hx
    · -- the end of the edge was labelled before
      have hyv : y ≠ v := by
        rintro rfl
        obtain ⟨c, hcx⟩ := h.settledCost x hx
        obtain ⟨d, hd, -⟩ := h.closed x hx c hcx y w hy
        rw [hd] at hnone
        cases hnone
      rw [hhops y hyv, hhops x (hsettled x hx)]
      exact hc x hx y w hy
  · rw [if_neg hb]
    exact ⟨hl, hc⟩

theorem Layers.edges (hfree : ∀ u v w, (v, w) ∈ G u → w = 0) : ∀ (l : List (V × Nat)) {a : Search V L},
    (∀ e ∈ l, e ∈ G u) → a.Inv G r → a.Front u c → a.Layers G u → a.HopsClosed G →
    (l.foldl (relaxEdge u c) a).Layers G u ∧ (l.foldl (relaxEdge u c) a).HopsClosed G
  | [], a, _, _, _, hl, hc => ⟨hl, hc⟩
  | e :: l, a, hsub, h, hf, hl, hc => by
    have hmem := hsub e (List.mem_cons_self ..)
    obtain ⟨hl₁, hc₁⟩ := hl.edge h hfree hc hf hmem
    have h₁ := explored_edge h hf hmem
    exact Layers.edges hfree l (fun e' he' => hsub e' (List.mem_cons_of_mem _ he')) h₁.inv h₁.front hl₁ hc₁

/-- The next vertex in front belongs to the same layer or to the next one. -/
theorem Layers.round (h : a.Inv G r) (hfree : ∀ u v w, (v, w) ∈ G u → w = 0) (hl : a.Layers G u) (hc : a.HopsClosed G)
    (hf : a.Front u c) : (a.round G u c).HopsClosed G ∧
      ∀ c' u' q, (a.round G u c).queue = (c', u') :: q → (a.round G u c).Layers G u' := by
  have hex := explored_edges (G u) (fun _ he => he) h hf
  obtain ⟨hl', hc'⟩ := Layers.edges hfree (G u) (fun _ he => he) h hf hl hc
  generalize hb : (G u).foldl (relaxEdge u c) a = b at hex hl' hc'
  have hround : a.round G u c = { b with queue := Keyed.erase u b.queue, settled := b.settled ++ [u] } := by
    rw [Search.round, hb]
  obtain ⟨rest, hrest⟩ := hl'.head
  have hnodup := (List.nodup_append.1 hex.inv.nodup).1
  rw [hrest, List.nodup_cons] at hnodup
  -- without the front the rest of the queue is left
  have herase : (Keyed.erase u b.queue).map Prod.snd = rest := by
    obtain ⟨⟨c₀, u₀⟩, q₀, hq₀, rfl, hmap⟩ := List.map_eq_cons_iff.1 hrest
    rw [hq₀, Keyed.erase, List.filter_cons_of_neg (by simp), List.filter_eq_self.2, hmap]
    intro e he
    have hne : e.2 ≠ u₀ := fun heq => hnodup.1 (by
      rw [← hmap, ← heq]
      exact (List.mem_map_of_mem he : e.2 ∈ q₀.map Prod.snd))
    simpa using hne
  have hasc := hl'.ascending
  have hnear := hl'.near
  rw [hrest] at hasc hnear
  obtain ⟨hfirst, hasc⟩ := List.pairwise_cons.1 hasc
  rw [hround]
  refine ⟨fun x hx v w hv => ?_, fun c' u' q hq => ?_⟩
  · obtain hx | hx := List.mem_append.1 hx
    · exact hc' x hx v w hv
    · obtain rfl := List.mem_singleton.1 hx
      obtain ⟨d, hd, -⟩ := hex.covered v w hv
      obtain hin | hin := hex.inv.labelled v d hd
      · exact hl'.near v (List.mem_map_of_mem (f := Prod.snd) hin)
      · exact (hl'.behind v hin).trans (Nat.le_succ _)
  · have hmem : u' ∈ rest := by
      rw [← herase, show Keyed.erase u b.queue = _ from hq]
      exact List.mem_cons_self ..
    refine ⟨⟨q.map Prod.snd, by rw [show Keyed.erase u b.queue = _ from hq]; rfl⟩, by rwa [herase], fun y hy => ?_,
      fun x hx => ?_⟩
    · rw [herase] at hy
      exact (hnear y (List.mem_cons_of_mem _ hy)).trans (Nat.add_le_add_right (hfirst u' hmem) 1)
    · obtain hx | hx := List.mem_append.1 hx
      · exact (hl'.behind x hx).trans (hfirst u' hmem)
      · rw [List.mem_singleton.1 hx]
        exact hfirst u' hmem

theorem HopsClosed.run (hfree : ∀ u v w, (v, w) ∈ G u → w = 0) : ∀ {fuel : Nat} {a b : Search V L}, a.Inv G r →
    a.HopsClosed G → (∀ c u q, a.queue = (c, u) :: q → a.Layers G u) → a.run G fuel = some b → b.HopsClosed G
  | fuel + 1, a, b, h, hc, hl, hrun => by
    rw [Search.run] at hrun
    split at hrun
    · obtain rfl := Option.some.inj hrun
      exact hc
    · next c u q hq =>
      have hf := front_of_queue h hq
      obtain ⟨hc', hl'⟩ := (hl c u q hq).round h hfree hc hf
      exact HopsClosed.run hfree (h.round hf).1 hc' hl' hrun

theorem layers_start (via : V → Option L) : (start r via).HopsClosed G ∧
    ∀ c u q, (start r via).queue = (c, u) :: q → (start r via).Layers G u := by
  refine ⟨fun x hx => (List.not_mem_nil hx).elim, fun c u q hq => ?_⟩
  obtain ⟨heq, -⟩ := List.cons.inj hq
  obtain ⟨rfl, rfl⟩ := Prod.mk.inj heq
  exact ⟨⟨[], rfl⟩, List.pairwise_singleton _ _, fun y _ => Nat.zero_le _, fun x hx => (List.not_mem_nil hx).elim⟩

/-- If all edges are free, the search ends with the least numbers of hops. -/
theorem hops_le_of_free (hfree : ∀ u v w, (v, w) ∈ G u → w = 0) {via : V → Option L} {fuel k : Nat}
    (hrun : (start r via).run G fuel = some b) (hw : Walk G r v c k) : b.hops v ≤ k := by
  obtain ⟨hc₀, hl₀⟩ := layers_start (G := G) (r := r) via
  have hclosed := HopsClosed.run hfree (inv_start G r via) hc₀ hl₀ hrun
  obtain ⟨hinv, hq⟩ := (inv_start G r via).run hrun
  induction hw with
  | nil => exact hinv.rootHops.le
  | snoc hway hmem ih =>
    have hsettled := (hinv.mem_settled_iff hq).2 ⟨_, _, hway⟩
    have hstep := hclosed _ hsettled _ _ hmem
    omega

end

/-! ## First hops -/

/-- A way from `r` that begins with the edge to `x`. -/
inductive WayOver (G : Graph V) (r x : V) : V → Nat → Prop
  | edge {w : Nat} : (x, w) ∈ G r → WayOver G r x x w
  | snoc {u v : V} {c w : Nat} : WayOver G r x u c → (v, w) ∈ G u → WayOver G r x v (c + w)

/-- Every labelled vertex has what was chosen for the first hop of a way of its cost. -/
structure Routed (G : Graph V) (r : V) (via : V → Option L) (a : Search V L) : Prop where
  root : a.via r = none
  settled : r ∈ a.settled
  hop : ∀ v c, v ≠ r → a.cost v = some c → ∃ x l, WayOver G r x v c ∧ via x = some l ∧ a.via v = some l

section

variable {G : Graph V} {r u v : V} {c w : Nat} {a b : Search V L} {via : V → Option L}

/-- The edges of `r` leave the choices for the first hops alone. -/
theorem rootEdges (hvia : via r = none) : ∀ (l : List (V × Nat)) {a : Search V L}, (∀ e ∈ l, e ∈ G r) → a.via = via →
    (∀ v c, v ≠ r → a.cost v = some c → (v, c) ∈ G r) →
    (l.foldl (relaxEdge r 0) a).via = via ∧
      ∀ v c, v ≠ r → (l.foldl (relaxEdge r 0) a).cost v = some c → (v, c) ∈ G r
  | [], a, _, hkeep, hlabels => ⟨hkeep, hlabels⟩
  | (x, w) :: l, a, hsub, hkeep, hlabels => by
    have hrest := fun e he => hsub e (List.mem_cons_of_mem _ he)
    have hnone : ¬ (a.via r).isSome = true := by rw [hkeep, hvia]; exact Bool.false_ne_true
    rw [List.foldl_cons]
    by_cases hb : a.Better (0 + w) x
    · have hedge : a.relaxEdge r 0 (x, w) = a.label r x (0 + w) := if_pos hb
      rw [hedge]
      refine rootEdges hvia l hrest ((if_neg hnone).trans hkeep) fun v c hv hc => ?_
      by_cases hvx : v = x
      · subst hvx
        rw [cost_label_self, Nat.zero_add] at hc
        rw [← Option.some.inj hc]
        exact hsub _ (List.mem_cons_self ..)
      · rw [cost_label_ne hvx] at hc
        exact hlabels v c hv hc
    · have hedge : a.relaxEdge r 0 (x, w) = a := if_neg hb
      rw [hedge]
      exact rootEdges hvia l hrest hkeep hlabels

theorem routed_firstRound (hvia : via r = none) (hpreset : ∀ x w, (x, w) ∈ G r → x ≠ r → ∃ l, via x = some l) :
    ((start r via).round G r 0).Routed G r via := by
  have hlabels : ∀ v c, v ≠ r → (start r via).cost v = some c → (v, c) ∈ G r := by
    intro v c hv hc
    rw [show (start r via).cost = Function.update (fun _ => none) r (some 0) from rfl, Function.update_of_ne hv] at hc
    cases hc
  obtain ⟨hkeep, hedges⟩ := rootEdges (G := G) hvia (G r) (a := start r via) (fun _ he => he) rfl hlabels
  refine ⟨(congrFun hkeep r).trans hvia, List.mem_append_right _ (List.mem_singleton.2 rfl), fun v c hv hc => ?_⟩
  have hmem := hedges v c hv hc
  obtain ⟨l, hl⟩ := hpreset v c hmem hv
  exact ⟨v, l, .edge hmem, hl, (congrFun hkeep v).trans hl⟩

theorem Routed.edge (h : a.Routed G r via) (hi : a.Inv G r) (hf : a.Front u c) {e : V × Nat} (hmem : e ∈ G u) :
    (a.relaxEdge u c e).Routed G r via := by
  obtain ⟨v, w⟩ := e
  unfold relaxEdge
  dsimp only
  by_cases hb : a.Better (c + w) v
  · rw [if_pos hb]
    obtain ⟨-, hr, -⟩ := Better.fresh hi hf hb
    have hcu := hi.queueCost _ _ hf.mem
    have hur : u ≠ r := by
      rintro rfl
      exact (List.nodup_append.1 hi.nodup).2.2 u (List.mem_map_of_mem (f := Prod.snd) hf.mem) u h.settled rfl
    -- the front has its first hop, which it hands on
    obtain ⟨x, l, hway, hl, hul⟩ := h.hop u c hur hcu
    have hvia : (a.label u v (c + w)).via = Function.update a.via v (some l) := by
      rw [label, if_pos (by rw [hul]; rfl), hul]
    refine ⟨by rw [hvia, Function.update_of_ne hr.symm, h.root], h.settled, fun y d hy hd => ?_⟩
    by_cases hyv : y = v
    · subst hyv
      rw [cost_label_self] at hd
      obtain rfl := Option.some.inj hd
      exact ⟨x, l, hway.snoc hmem, hl, by rw [hvia, Function.update_self]⟩
    · rw [cost_label_ne hyv] at hd
      rw [hvia, Function.update_of_ne hyv]
      exact h.hop y d hy hd
  · rw [if_neg hb]
    exact h

theorem Routed.edges : ∀ (l : List (V × Nat)) {a : Search V L}, (∀ e ∈ l, e ∈ G u) → a.Inv G r → a.Front u c →
    a.Routed G r via → (l.foldl (relaxEdge u c) a).Routed G r via
  | [], _, _, _, _, h => h
  | e :: l, a, hsub, hi, hf, h => by
    have hmem := hsub e (List.mem_cons_self ..)
    have h₁ := explored_edge hi hf hmem
    exact Routed.edges l (fun e' he' => hsub e' (List.mem_cons_of_mem _ he')) h₁.inv h₁.front (h.edge hi hf hmem)

theorem Routed.run : ∀ {fuel : Nat} {a b : Search V L}, a.Inv G r → a.Routed G r via → a.run G fuel = some b →
    b.Routed G r via
  | fuel + 1, a, b, hi, h, hrun => by
    rw [Search.run] at hrun
    split at hrun
    · obtain rfl := Option.some.inj hrun
      exact h
    · next c u q hq =>
      have hf := front_of_queue hi hq
      have hedges := Routed.edges (G u) (fun _ he => he) hi hf h
      refine Routed.run (hi.round hf).1 ⟨hedges.root, ?_, hedges.hop⟩ hrun
      exact List.mem_append_left _ hedges.settled

/-- The search ends with what was chosen for the first hop of a cheapest way. -/
theorem via_of_run (hvia : via r = none) (hpreset : ∀ x w, (x, w) ∈ G r → x ≠ r → ∃ l, via x = some l) {fuel : Nat}
    (hrun : (start r via).run G fuel = some b) (hv : v ≠ r) (hc : b.cost v = some c) :
    ∃ x l, WayOver G r x v c ∧ via x = some l ∧ b.via v = some l := by
  cases fuel with
  | zero => cases hrun
  | succ fuel =>
    have hinv := inv_start G r via
    have hnext := (hinv.round (front_of_queue hinv (q := []) rfl)).1
    have hrun' : ((start r via).round G r 0).run G fuel = some b := hrun
    exact (Routed.run hnext (routed_firstRound hvia hpreset) hrun').hop v c hv hc

end

end Search

end ShortestPath
