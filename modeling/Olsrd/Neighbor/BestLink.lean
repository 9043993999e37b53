/-
What `get_best_link_to_neighbor` returns. Symmetric and asymmetric links share one best value, so that a symmetric link
is only kept if it beats the links of both kinds that come before it in the list.
-/
import Olsrd.Neighbor.Hello

namespace Olsrd.Neighbor

variable {env : Env} {s : Nbh} {remote mainAddr : IpAddr} {start : Nat}

/-! ## The links that are compared -/

/-- What a link is compared by: its cost, or without link quality the metric of its interface. -/
def LinkEntry.value (env : Env) (l : LinkEntry) : Option Nat :=
  if env.cnf.lqLevel = 0 then (l.interface env).map Interface.intMetric else some l.linkcost.toNat

/-- The link leads to the neighbour with the main address. -/
def LinkEntry.leadsTo (s : Nbh) (mainAddr : IpAddr) (l : LinkEntry) : Bool :=
  (s.nbr l.neighbor).any fun e => e.mainAddr == mainAddr

/-- The links to a neighbour that have a value, in the order of the list. -/
def valued (env : Env) (s : Nbh) (mainAddr : IpAddr) (links : List LinkEntry) : List (LinkEntry × Nat) :=
  (links.filter (LinkEntry.leadsTo s mainAddr)).filterMap fun l => (l.value env).map (Prod.mk l)

/-- The links that `get_best_link_to_neighbor` compares for an address. -/
def offered (env : Env) (s : Nbh) (remote : IpAddr) : List (LinkEntry × Nat) :=
  valued env s (midMainAddr s.mid remote) s.links

/-- Only links with a lower value are usable. -/
def startValue (env : Env) : Nat := if env.cnf.lqLevel = 0 then maxIfMetric else linkCostBroken.toNat

/-- The links belong to neighbours that are there. -/
def LinksLive (s : Nbh) (links : List LinkEntry) : Prop := ∀ l ∈ links, (s.nbr l.neighbor).isSome

/-- The loop is a fold over the links of the neighbour. -/
theorem bestLinkLoop_eq : ∀ {links : List LinkEntry} (b : BestLink), LinksLive s links →
    bestLinkLoop env s remote mainAddr links b =
      some ((valued env s mainAddr links).foldl (fun b x => b.offer s remote x.1 x.2) b)
  | [], _, _ => rfl
  | l :: ls, b, hlive => by
    obtain ⟨e, he⟩ := Option.isSome_iff_exists.1 (hlive l (List.mem_cons_self ..))
    have hrest : LinksLive s ls := fun l' hl' => hlive l' (List.mem_cons_of_mem _ hl')
    unfold bestLinkLoop
    rw [he, Option.bind_eq_bind, Option.bind_some]
    by_cases hmain : e.mainAddr = mainAddr
    · have hcons : valued env s mainAddr (l :: ls) =
          ((l.value env).map (Prod.mk l)).toList ++ valued env s mainAddr ls := by
        unfold valued
        rw [List.filter_cons_of_pos (by simp [LinkEntry.leadsTo, he, hmain]), List.filterMap_cons]
        cases (l.value env).map (Prod.mk l) <;> rfl
      rw [if_neg (not_not.2 hmain), hcons, List.foldl_append]
      unfold LinkEntry.value
      by_cases hlq : env.cnf.lqLevel = 0
      · rw [if_pos hlq, if_pos hlq]
        cases l.interface env with
        | none => exact bestLinkLoop_eq b hrest
        | some ifc => exact bestLinkLoop_eq _ hrest
      · rw [if_neg hlq, if_neg hlq]
        exact bestLinkLoop_eq _ hrest
    · have hcons : valued env s mainAddr (l :: ls) = valued env s mainAddr ls := by
        unfold valued
        rw [List.filter_cons_of_neg (by simp [LinkEntry.leadsTo, he, hmain])]
      rw [if_pos hmain, hcons]
      exact bestLinkLoop_eq b hrest

theorem value_of_mem_valued {links : List LinkEntry} {x : LinkEntry × Nat} (h : x ∈ valued env s mainAddr links) :
    x.1.value env = some x.2 := by
  obtain ⟨l, -, hl⟩ := List.mem_filterMap.1 h
  obtain ⟨v, hv, rfl⟩ := Option.map_eq_some_iff.1 hl
  exact hv

/-! ## The fold -/

/-- The link takes the place of one with the value `v`. -/
def Beats (remote : IpAddr) (x : LinkEntry × Nat) (v : Nat) : Prop :=
  x.2 < v ∨ (x.2 = v ∧ x.1.localIfaceAddr = remote)

/-- A symmetric link that beats all links before it. -/
def Kept (s : Nbh) (remote : IpAddr) (start : Nat) (xs : List (LinkEntry × Nat)) (x : LinkEntry × Nat) : Prop :=
  lookupLinkStatus s x.1 = .sym ∧ Beats remote x start ∧
    ∃ before behind, xs = before ++ x :: behind ∧ ∀ y ∈ before, Beats remote x y.2

theorem Kept.mem {xs : List (LinkEntry × Nat)} {x : LinkEntry × Nat} (h : Kept s remote start xs x) : x ∈ xs := by
  obtain ⟨-, -, before, behind, rfl, -⟩ := h
  exact List.mem_append_right _ (List.mem_cons_self ..)

theorem kept_append {xs : List (LinkEntry × Nat)} {x y : LinkEntry × Nat} : Kept s remote start (xs ++ [y]) x ↔
    Kept s remote start xs x ∨
      x = y ∧ lookupLinkStatus s x.1 = .sym ∧ Beats remote x start ∧ ∀ z ∈ xs, Beats remote x z.2 := by
  constructor
  · rintro ⟨hsym, hstart, before, behind, hxs, hbeats⟩
    rcases List.eq_nil_or_concat behind with rfl | ⟨behind, z, rfl⟩
    · obtain ⟨rfl, hxy⟩ := List.append_inj' hxs rfl
      exact .inr ⟨(List.cons.inj hxy).1.symm, hsym, hstart, hbeats⟩
    · rw [List.concat_eq_append, ← List.cons_append, ← List.append_assoc] at hxs
      exact .inl ⟨hsym, hstart, before, behind, (List.append_inj' hxs rfl).1, hbeats⟩
  · rintro (⟨hsym, hstart, before, behind, rfl, hbeats⟩ | ⟨rfl, hsym, hstart, hbeats⟩)
    · exact ⟨hsym, hstart, before, behind ++ [y], by simp, hbeats⟩
    · exact ⟨hsym, hstart, xs, [], rfl, hbeats⟩

/-- The state of the loop after the links `xs`: the good link is the best that was kept. -/
structure Scanned (s : Nbh) (remote : IpAddr) (start : Nat) (xs : List (LinkEntry × Nat)) (b : BestLink) : Prop where
  le : b.curr ≤ start ∧ ∀ x ∈ xs, b.curr ≤ x.2
  attained : b.curr = start ∨ ∃ x ∈ xs, x.2 = b.curr
  good : ∀ l, b.goodLink = some l → ∃ v, Kept s remote start xs (l, v) ∧ ∀ x, Kept s remote start xs x → v ≤ x.2
  none : b.goodLink = none → ∀ x, ¬Kept s remote start xs x
  backup : ∀ l, b.backupLink = some l → lookupLinkStatus s l ≠ .sym

theorem Scanned.beats_iff {xs : List (LinkEntry × Nat)} {b : BestLink} (h : Scanned s remote start xs b)
    (y : LinkEntry × Nat) :
    Beats remote y b.curr ↔ Beats remote y start ∧ ∀ z ∈ xs, Beats remote y z.2 := by
  have hmono : ∀ {v : Nat}, b.curr ≤ v → Beats remote y b.curr → Beats remote y v := by
    rintro v hv (hlt | ⟨heq, haddr⟩)
    · exact .inl (hlt.trans_le hv)
    · exact (heq.trans_le hv).lt_or_eq.imp_right fun heq' => ⟨heq', haddr⟩
  constructor
  · exact fun hbeats => ⟨hmono h.le.1 hbeats, fun z hz => hmono (h.le.2 z hz) hbeats⟩
  · rintro ⟨hstart, hxs⟩
    rcases h.attained with heq | ⟨x, hx, heq⟩
    · exact heq ▸ hstart
    · exact heq ▸ hxs x hx

/-- One round of the loop. -/
theorem Scanned.offer {xs : List (LinkEntry × Nat)} {b : BestLink} (h : Scanned s remote start xs b)
    (y : LinkEntry × Nat) : Scanned s remote start (xs ++ [y]) (b.offer s remote y.1 y.2) := by
  have hbeats := h.beats_iff y
  unfold BestLink.offer
  by_cases hy : y.2 < b.curr ∨ (y.2 = b.curr ∧ y.1.localIfaceAddr = remote)
  · have hle : y.2 ≤ b.curr := hy.elim Nat.le_of_lt fun hy => hy.1.le
    have hall : ∀ x ∈ xs ++ [y], y.2 ≤ x.2 := by
      intro x hx
      rcases List.mem_append.1 hx with hx | hx
      · exact hle.trans (h.le.2 x hx)
      · exact (congrArg Prod.snd (List.mem_singleton.1 hx)).ge
    have hlast : y ∈ xs ++ [y] := List.mem_append_right _ (List.mem_singleton_self y)
    rw [if_pos hy]
    by_cases hsym : lookupLinkStatus s y.1 = .sym
    · rw [if_pos hsym]
      refine ⟨⟨hle.trans h.le.1, hall⟩, .inr ⟨y, hlast, rfl⟩, fun l hl => ?_, nofun, h.backup⟩
      obtain rfl := Option.some.inj hl
      exact ⟨y.2, kept_append.2 (.inr ⟨rfl, hsym, hbeats.1 hy⟩), fun x hx => hall x hx.mem⟩
    · rw [if_neg hsym]
      have hkept : ∀ x, Kept s remote start (xs ++ [y]) x ↔ Kept s remote start xs x := by
        intro x
        rw [kept_append, or_iff_left]
        rintro ⟨rfl, hsym', -⟩
        exact hsym hsym'
      refine ⟨⟨hle.trans h.le.1, hall⟩, .inr ⟨y, hlast, rfl⟩, fun l hl => ?_, fun hl x => ?_, fun l hl => ?_⟩
      · simp only [hkept]
        exact h.good l hl
      · rw [hkept]
        exact h.none hl x
      · obtain rfl := Option.some.inj hl
        exact hsym
  · rw [if_neg hy]
    have hkept : ∀ x, Kept s remote start (xs ++ [y]) x ↔ Kept s remote start xs x := by
      intro x
      rw [kept_append, or_iff_left]
      rintro ⟨rfl, -, hstart, hxs⟩
      exact hy (hbeats.2 ⟨hstart, hxs⟩)
    refine ⟨⟨h.le.1, fun x hx => ?_⟩, h.attained.imp_right fun ⟨x, hx, heq⟩ => ⟨x, List.mem_append_left _ hx, heq⟩,
      fun l hl => ?_, fun hl x => ?_, h.backup⟩
    · rcases List.mem_append.1 hx with hx | hx
      · exact h.le.2 x hx
      · obtain rfl := List.mem_singleton.1 hx
        exact Nat.le_of_not_lt fun hlt => hy (.inl hlt)
    · simp only [hkept]
      exact h.good l hl
    · rw [hkept]
      exact h.none hl x

theorem scanned_foldl (s : Nbh) (remote : IpAddr) (start : Nat) (xs : List (LinkEntry × Nat)) :
    Scanned s remote start xs (xs.foldl (fun b x => b.offer s remote x.1 x.2) ⟨start, none, none⟩) := by
  induction xs using List.reverseRecOn with
  | nil =>
    constructor
    · exact ⟨le_refl _, fun x hx => (List.not_mem_nil hx).elim⟩
    · exact .inl rfl
    · intro l hl
      cases hl
    · exact fun _ _ h => (List.not_mem_nil h.mem).elim
    · intro l hl
      cases hl
  | append_singleton xs y ih =>
    rw [List.foldl_append, List.foldl_cons, List.foldl_nil]
    exact ih.offer y

/-! ## The best link -/

/-- A symmetric link that no symmetric link of the neighbour beats. -/
def CheapestSym (s : Nbh) (xs : List (LinkEntry × Nat)) (x : LinkEntry × Nat) : Prop :=
  x ∈ xs ∧ lookupLinkStatus s x.1 = .sym ∧ ∀ y ∈ xs, lookupLinkStatus s y.1 = .sym → x.2 ≤ y.2

/-- The value of the cheapest symmetric links does not depend on the order of the list. -/
theorem CheapestSym.value_eq {xs ys : List (LinkEntry × Nat)} {x y : LinkEntry × Nat} (hx : CheapestSym s xs x)
    (hy : CheapestSym s ys y) (hperm : xs.Perm ys) : x.2 = y.2 :=
  le_antisymm (hx.2.2 y (hperm.mem_iff.2 hy.1) hy.2.1) (hy.2.2 x (hperm.mem_iff.1 hx.1) hx.2.1)

/-- A neighbour with a usable symmetric link gets a symmetric link of the lowest value. -/
def BestLinkChosen (env : Env) (s : Nbh) (remote : IpAddr) : Prop :=
  (∃ x ∈ offered env s remote, lookupLinkStatus s x.1 = .sym ∧ x.2 < startValue env) →
    ∃ l v, getBestLinkToNeighbor env s remote = some (some l) ∧ CheapestSym s (offered env s remote) (l, v)

/-- Every link of the neighbour that is listed before some cheapest symmetric one, whatever its status is, has a higher
value, or the same while that symmetric link has the requested address on this side. -/
def NotShadowed (env : Env) (s : Nbh) (remote : IpAddr) : Prop :=
  (∃ x ∈ offered env s remote, lookupLinkStatus s x.1 = .sym ∧ x.2 < startValue env) →
    ∃ before x behind, offered env s remote = before ++ x :: behind ∧ CheapestSym s (offered env s remote) x ∧
      ∀ y ∈ before, Beats remote x y.2

theorem getBestLink_scanned (hlive : LinksLive s s.links) : ∃ b,
    getBestLinkToNeighbor env s remote = some (b.goodLink.or b.backupLink) ∧
      Scanned s remote (startValue env) (offered env s remote) b := by
  refine ⟨_, ?_, scanned_foldl s remote (startValue env) (offered env s remote)⟩
  unfold getBestLinkToNeighbor
  dsimp only
  rw [bestLinkLoop_eq _ hlive]
  rfl

/-- The best link is the cheapest symmetric one exactly if no link shadows it. -/
theorem bestLinkChosen_iff (env : Env) (s : Nbh) (remote : IpAddr) (hlive : LinksLive s s.links) :
    BestLinkChosen env s remote ↔ NotShadowed env s remote := by
  obtain ⟨b, hb, hscan⟩ := @getBestLink_scanned env s remote hlive
  refine forall_congr' fun husable => ?_
  constructor
  · rintro ⟨l, v, hl, hcheap⟩
    rw [hb] at hl
    cases hgood : b.goodLink with
    | none =>
      rw [hgood, Option.none_or] at hl
      exact absurd hcheap.2.1 (hscan.backup l (Option.some.inj hl))
    | some g =>
      rw [hgood, Option.some_or] at hl
      obtain rfl := Option.some.inj (Option.some.inj hl)
      obtain ⟨w, ⟨hsym, -, before, behind, hxs, hbeats⟩, hmin⟩ := hscan.good g hgood
      have hmem : (g, w) ∈ offered env s remote := hxs ▸ List.mem_append_right _ (List.mem_cons_self ..)
      obtain rfl : w = v :=
        Option.some.inj ((value_of_mem_valued hmem).symm.trans (value_of_mem_valued hcheap.1))
      exact ⟨before, (g, w), behind, hxs, hcheap, hbeats⟩
  · rintro ⟨before, x, behind, hxs, hcheap, hbeats⟩
    have hkept : Kept s remote (startValue env) (offered env s remote) x := by
      obtain ⟨y, hy, hysym, hlt⟩ := husable
      exact ⟨hcheap.2.1, .inl ((hcheap.2.2 y hy hysym).trans_lt hlt), before, behind, hxs, hbeats⟩
    cases hgood : b.goodLink with
    | none => exact absurd hkept (hscan.none hgood x)
    | some g =>
      obtain ⟨v, hg, hmin⟩ := hscan.good g hgood
      refine ⟨g, v, by rw [hb, hgood, Option.some_or], hg.mem, hg.1, fun y hy hysym => ?_⟩
      exact (hmin x hkept).trans (hcheap.2.2 y hy hysym)

/-- A node without link quality that has a cable and a radio interface. -/
def cableAndRadio : Env where
  cnf := { ipVersion := .inet, mainAddr := [10, 0, 0, 1], lqLevel := 0, denyEntries := denyIpv4Defaults }
  ifnet := [⟨some "eth0", [10, 0, 0, 1], 1⟩, ⟨some "wlan0", [10, 0, 1, 1], 2⟩]
  tcRedundancy := 2

/-- A neighbourhood of one symmetric link. -/
def symmetricCable : Nbh :=
  { emptyNbh with
      nbr := fun p => if p = 1 then some (newNeighborEntry [10, 0, 0, 2]) else none
      links := [{ newLinkEntry 2 0 0 [10, 0, 0, 1] [10, 0, 0, 2] ⟨some "eth0", [10, 0, 0, 1], 1⟩ 1 6000 with
        linkSymTimer := some ⟨6000, 0⟩ }] }

theorem bestLinkChosen_symmetricCable : BestLinkChosen cableAndRadio symmetricCable [10, 0, 0, 2] := by
  have hlive : LinksLive symmetricCable symmetricCable.links := by
    intro l hl
    obtain rfl := List.mem_singleton.1 hl
    rfl
  refine (bestLinkChosen_iff cableAndRadio symmetricCable [10, 0, 0, 2] hlive).2 ?_
  rintro ⟨x, hx, hsym, -⟩
  have honly : ∃ y, offered cableAndRadio symmetricCable [10, 0, 0, 2] = [y] := ⟨_, rfl⟩
  obtain ⟨y, hy⟩ := honly
  obtain rfl : x = y := by
    rw [hy] at hx
    exact List.mem_singleton.1 hx
  refine ⟨[], x, [], hy, ⟨hx, hsym, fun z hz _ => ?_⟩, nofun⟩
  rw [hy] at hz
  rw [List.mem_singleton.1 hz]

/-- The neighbour 10.0.0.2 is heard over the cable, and hears the node over the radio. -/
def asymmetricCable : List HelloInput :=
  [helloFrom [10, 0, 0, 2] [10, 0, 0, 2] [],
    { helloFrom [10, 0, 1, 2] [10, 0, 0, 2] [⟨[10, 0, 1, 1], .sym, false, 0⟩] with
        inIf := ⟨some "wlan0", [10, 0, 1, 1], 2⟩ }]

theorem asymmetricCable_not_bestLinkChosen :
    ∃ s, Run.forEach (olsrHelloTap cableAndRadio) asymmetricCable emptyNbh = some s ∧ LinksLive s s.links ∧
      ¬BestLinkChosen cableAndRadio s [10, 0, 0, 2] := by
  have hrun : (Run.forEach (olsrHelloTap cableAndRadio) asymmetricCable emptyNbh).any (fun s =>
      s.links.all (fun l => (s.nbr l.neighbor).isSome) &&
        ((offered cableAndRadio s [10, 0, 0, 2]).any fun x =>
          lookupLinkStatus s x.1 == .sym && decide (x.2 < startValue cableAndRadio)) &&
        (getBestLinkToNeighbor cableAndRadio s [10, 0, 0, 2]).any fun o =>
          o.any fun l => lookupLinkStatus s l != .sym) = true := by
    decide +kernel
  obtain ⟨s, hs, hcheck⟩ := (Option.any_eq_true _ _).1 hrun
  simp only [Bool.and_eq_true, List.all_eq_true, List.any_eq_true, beq_iff_eq, decide_eq_true_eq] at hcheck
  obtain ⟨⟨hlive, husable⟩, hbest⟩ := hcheck
  refine ⟨s, hs, hlive, fun hchosen => ?_⟩
  obtain ⟨l, v, hl, -, hsym, -⟩ := hchosen husable
  rw [hl] at hbest
  simp only [Option.any_some, hsym] at hbest
  cases hbest

end Olsrd.Neighbor
