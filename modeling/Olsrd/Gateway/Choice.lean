/-
What the selection of a gateway changes: the tunnels follow the current gateways, and a family changes to a gateway
that the default handler takes for a candidate.
-/
import Olsrd.Gateway.Selection

namespace Olsrd.Gateway

open Olsrd.Spf (routeCostBroken)

variable {platform : Platform} {cnf : GwCnf} {s s' : GwState} {f : Family} {p : GwPtr}

/-! ## Tunnels -/

/-- The families whose tunnel has the target. -/
def users (c : Family → Option Target) (target : Target) : Nat :=
  (if c .v4 = some target then 1 else 0) + (if c .v6 = some target then 1 else 0)

/-- The tunnels are those to `c`, no target of a missing gateway was taken. -/
structure Linked (s : GwState) (c : Family → Option Target) : Prop where
  tunnel : s.tunnel = c
  usage : ∀ target, s.usage target = users c target
  nullTaken : s.nullTaken = false

/-- The target that belongs to a gateway. -/
def GwState.targetOf (s : GwState) (gw : Option GwPtr) : Option Target := gw.map fun p => some (s.mem p).originator

/-- The tunnels lead to the current gateways. -/
def TunnelsMatch (s : GwState) : Prop := Linked s fun f => s.targetOf (s.current f)

theorem users_update (c : Family → Option Target) (f : Family) (x : Option Target) (target : Target) :
    users (Function.update c f x) target + (if c f = some target then 1 else 0) =
      users c target + (if x = some target then 1 else 0) := by
  cases f <;> simp only [users, Function.update_self, Function.update_of_ne (show Family.v6 ≠ Family.v4 by decide),
    Function.update_of_ne (show Family.v4 ≠ Family.v6 by decide)] <;> omega

/-- Deleting the tunnel of a family takes one user from its target. -/
theorem olsrOsDelIpipTunnel_usage {c : Option Target} (target : Target)
    (h : (if c = some target then 1 else 0) ≤ s.usage target) :
    (olsrOsDelIpipTunnel s c).usage target + (if c = some target then 1 else 0) = s.usage target := by
  cases c with
  | none => simp [olsrOsDelIpipTunnel]
  | some old =>
    by_cases ht : target = old
    · subst ht
      simp [olsrOsDelIpipTunnel] at h ⊢
      omega
    · simp [olsrOsDelIpipTunnel, Function.update_of_ne ht, Ne.symm ht]

theorem openTunnel_usage (external : Bool) (target : Target) :
    (openTunnel external s f).usage target =
      s.usage target + (if (s.current f).map (fun p => (s.mem p).originator) = target then 1 else 0) := by
  by_cases ht : (s.current f).map (fun p => (s.mem p).originator) = target
  · subst ht
    simp [openTunnel, olsrOsAddIpipTunnel]
  · simp [openTunnel, olsrOsAddIpipTunnel, Function.update_of_ne (Ne.symm ht), ht]

theorem olsrOsDelIpipTunnel_frame (s : GwState) (t : Option Target) :
    (olsrOsDelIpipTunnel s t).tunnel = s.tunnel ∧ (olsrOsDelIpipTunnel s t).nullTaken = s.nullTaken := by
  cases t <;> exact ⟨rfl, rfl⟩

/-- A family whose gateway changed gets the tunnel to the new one. -/
theorem linked_switchTunnel {c : Family → Option Target} (h : Linked s c) (old : Option GwPtr)
    (hold : c f = s.targetOf old) (hcur : old ≠ none → s.current f ≠ none) (external : Bool) :
    Linked (switchTunnel old (c f) external s f) (Function.update c f (s.targetOf (s.current f))) := by
  unfold switchTunnel
  by_cases hsame : old = s.current f
  · rw [if_pos hsame, ← hsame, ← hold, Function.update_eq_self]
    exact h
  · obtain ⟨p, hp⟩ : ∃ p, s.current f = some p := by
      refine Option.ne_none_iff_exists'.1 fun hn => hsame ?_
      rw [hn]
      exact Classical.not_not.1 fun ho => hcur ho hn
    rw [if_neg hsame]
    dsimp only
    have hnull : (openTunnel external s f).nullTaken = false := by simp [openTunnel, hp, h.nullTaken]
    have htunnel : (openTunnel external s f).tunnel = Function.update c f (s.targetOf (s.current f)) := by
      simp only [openTunnel, h.tunnel, GwState.targetOf, hp, Option.map_some]
    have hopen : ∀ target, (openTunnel external s f).usage target =
        users (Function.update c f (s.targetOf (s.current f))) target + (if c f = some target then 1 else 0) := by
      intro target
      rw [openTunnel_usage, users_update, h.usage, GwState.targetOf, hp]
      simp
    by_cases hn : old ≠ none
    · rw [if_pos hn]
      obtain ⟨h1, h2⟩ := olsrOsDelIpipTunnel_frame (openTunnel external s f) (c f)
      refine ⟨h1.trans htunnel, fun target => ?_, h2.trans hnull⟩
      have hdel := olsrOsDelIpipTunnel_usage (s := openTunnel external s f) (c := c f) target (by rw [hopen]; omega)
      rw [hopen] at hdel
      omega
    · rw [if_neg hn]
      refine ⟨htunnel, fun target => ?_, hnull⟩
      obtain rfl := Classical.not_not.1 hn
      rw [hopen, hold]
      rfl

/-- A family that has no gateway any more. -/
theorem linked_dropCurrent {c : Family → Option Target} {gw : GwPtr} (h : Linked s c) (hcur : s.current f = some gw) :
    Linked (dropCurrent gw s f) (Function.update c f none) := by
  have hd : dropCurrent gw s f = { olsrOsDelIpipTunnel s (s.tunnel f) with
      current := Function.update (olsrOsDelIpipTunnel s (s.tunnel f)).current f none
      tunnel := Function.update (olsrOsDelIpipTunnel s (s.tunnel f)).tunnel f none } := if_pos hcur
  obtain ⟨h1, h2⟩ := olsrOsDelIpipTunnel_frame s (s.tunnel f)
  rw [hd]
  refine ⟨?_, fun target => ?_, h2.trans h.nullTaken⟩
  · dsimp only
    rw [h1, h.tunnel]
  · have husers := users_update c f none target
    have hdel := olsrOsDelIpipTunnel_usage (s := s) (c := s.tunnel f) target (by
      rw [h.usage, h.tunnel]
      simp at husers
      omega)
    rw [h.usage, h.tunnel] at hdel
    simp at husers
    simp only [h.tunnel]
    omega

/-- What the tunnels have no part in. -/
structure SameChoice (s s' : GwState) : Prop where
  tree : s'.tree = s.tree
  mem : s'.mem = s.mem
  current : s'.current = s.current
  finished : s'.finished = s.finished
  pathCost : s'.pathCost = s.pathCost

theorem SameChoice.refl (s : GwState) : SameChoice s s := ⟨rfl, rfl, rfl, rfl, rfl⟩

theorem SameChoice.trans {s₁ s₂ s₃ : GwState} (h : SameChoice s₁ s₂) (h' : SameChoice s₂ s₃) : SameChoice s₁ s₃ where
  tree := h'.tree.trans h.tree
  mem := h'.mem.trans h.mem
  current := h'.current.trans h.current
  finished := h'.finished.trans h.finished
  pathCost := h'.pathCost.trans h.pathCost

theorem olsrOsDelIpipTunnel_same (s : GwState) (t : Option Target) : SameChoice s (olsrOsDelIpipTunnel s t) := by
  cases t <;> exact ⟨rfl, rfl, rfl, rfl, rfl⟩

theorem switchTunnel_same (old : Option GwPtr) (oldTunnel : Option Target) (external : Bool) (s : GwState)
    (f : Family) : SameChoice s (switchTunnel old oldTunnel external s f) := by
  have hopen : SameChoice s (openTunnel external s f) := ⟨rfl, rfl, rfl, rfl, rfl⟩
  unfold switchTunnel
  by_cases hold : old = s.current f
  · rw [if_pos hold]
    exact SameChoice.refl s
  · rw [if_neg hold]
    dsimp only
    by_cases hn : old ≠ none
    · rw [if_pos hn]
      exact hopen.trans (olsrOsDelIpipTunnel_same _ _)
    · rw [if_neg hn]
      exact hopen

/-! ## `olsr_set_inet_gateway` -/

/-- The gateways `olsr_set_inet_gateway` leaves. -/
def setCurrent (cnf : GwCnf) (s : GwState) (originator : IpAddr) (want : Family → Bool) (f : Family) : Option GwPtr :=
  if want f && cnf.serves f then (olsrFindGatewayEntry s originator).filter fun p => (s.mem p).valid cnf f
  else s.current f

theorem setPointers_eq (originator : IpAddr) (want : Family → Bool) :
    setPointers cnf s originator (fun f => want f && cnf.serves f) =
      { s with current := setCurrent cnf s originator want } := by
  have hfind : ∀ c, olsrFindGatewayEntry { s with current := c } originator = olsrFindGatewayEntry s originator :=
    fun _ => rfl
  dsimp only [setPointers]
  rw [hfind]
  cases hgw : olsrFindGatewayEntry s originator with
  | none =>
    refine congrArg (fun c => { s with current := c }) (funext fun f => ?_)
    rw [setCurrent, hgw, Option.filter_none]
  | some p =>
    refine congrArg (fun c => { s with current := c }) (funext fun f => ?_)
    rw [setCurrent, hgw]
    by_cases hw : (want f && cnf.serves f) = true <;> by_cases hv : (s.mem p).valid cnf f = true <;>
      simp [hw, hv, Option.filter]

theorem olsrSetInetGateway_eq (originator : IpAddr) (want : Family → Bool) (external : Bool) :
    olsrSetInetGateway cnf s originator want external =
      switchTunnel (s.current .v6) (s.tunnel .v6) external
        (switchTunnel (s.current .v4) (s.tunnel .v4) external
          { s with current := setCurrent cnf s originator want } .v4) .v6 := by
  rw [← setPointers_eq]
  rfl

variable (cnf s) in
theorem olsrSetInetGateway_same (originator : IpAddr) (want : Family → Bool) (external : Bool) :
    SameChoice { s with current := setCurrent cnf s originator want }
      (olsrSetInetGateway cnf s originator want external) := by
  rw [olsrSetInetGateway_eq]
  exact (switchTunnel_same _ _ _ _ _).trans (switchTunnel_same _ _ _ _ _)

theorem targetOf_congr (h : s'.mem = s.mem) : s'.targetOf = s.targetOf := by
  funext gw
  rw [GwState.targetOf, GwState.targetOf, h]

/-- The tunnels follow the gateways, as long as no family loses its gateway. -/
theorem olsrSetInetGateway_tunnels {originator : IpAddr} {want : Family → Bool} (h : TunnelsMatch s)
    (hkeep : ∀ f, s.current f ≠ none → setCurrent cnf s originator want f ≠ none) (external : Bool) :
    TunnelsMatch (olsrSetInetGateway cnf s originator want external) := by
  have hsame := olsrSetInetGateway_same cnf s originator want external
  obtain ⟨s₀, hs₀⟩ : ∃ s₀, s₀ = { s with current := setCurrent cnf s originator want } := ⟨_, rfl⟩
  have h₀ : Linked s₀ fun f => s.targetOf (s.current f) := by
    rw [hs₀]
    exact ⟨h.tunnel, h.usage, h.nullTaken⟩
  have hcur₀ : s₀.current = setCurrent cnf s originator want := by rw [hs₀]
  have htarget : s₀.targetOf = s.targetOf := targetOf_congr (by rw [hs₀])
  have h₁ := linked_switchTunnel (f := .v4) h₀ (s.current .v4) (by rw [htarget])
    (by rw [hcur₀]; exact hkeep .v4) external
  have hsame₁ := switchTunnel_same (s.current .v4) (s.targetOf (s.current .v4)) external s₀ .v4
  have h₂ := linked_switchTunnel (f := .v6) h₁ (s.current .v6)
    (by rw [targetOf_congr hsame₁.mem, htarget]; rfl) (by rw [hsame₁.current, hcur₀]; exact hkeep .v6) external
  rw [olsrSetInetGateway_eq, ← hs₀, congrFun h.tunnel .v4, congrFun h.tunnel .v6]
  have hsame₂ := switchTunnel_same (s.current .v6) (s.targetOf (s.current .v6)) external
    (switchTunnel (s.current .v4) (s.targetOf (s.current .v4)) external s₀ .v4) .v6
  refine Eq.mp (congrArg (Linked _) ?_) h₂
  funext f
  rw [targetOf_congr (hsame₂.mem.trans hsame₁.mem), hsame₂.current, hsame₁.current, targetOf_congr hsame₁.mem]
  cases f <;> rfl

/-! ## The default handler -/

theorem chooseStep_ne_none {best : Option GwPtr × Nat} (h : best.1 ≠ none) (e : IpAddr × GwPtr) :
    (chooseStep cnf s f best e).1 ≠ none := by
  unfold chooseStep
  split
  · exact h
  · split
    · exact Option.some_ne_none _
    · exact h

theorem foldl_chooseStep_ne_none : ∀ (l : List (IpAddr × GwPtr)) {best : Option GwPtr × Nat}, best.1 ≠ none →
    (l.foldl (chooseStep cnf s f) best).1 ≠ none
  | [], _, h => h
  | e :: l, _, h => foldl_chooseStep_ne_none l (chooseStep_ne_none h e)

/-- A gateway the default handler can change to. -/
structure Eligible (cnf : GwCnf) (s : GwState) (f : Family) (p : GwPtr) : Prop where
  mem : p ∈ s.tree.map Prod.snd
  candidate : (s.mem p).candidate cnf f = true
  cost : ∃ cost, s.pathCost (s.mem p).originator = some cost ∧ cost < routeCostBroken

theorem foldl_chooseStep_some {Q : GwPtr → Prop} : ∀ (l : List (IpAddr × GwPtr)) {best : Option GwPtr × Nat},
    (∀ p, best.1 = some p → Q p) → (∀ e ∈ l, s.finished f = false → (s.mem e.2).candidate cnf f = true → Q e.2) →
    ∀ p, (l.foldl (chooseStep cnf s f) best).1 = some p → Q p
  | [], _, hbest, _, p, h => hbest p h
  | e :: l, best, hbest, hl, p, h => by
    refine foldl_chooseStep_some l ?_ (fun e' he' => hl e' (List.mem_cons_of_mem _ he')) p h
    intro q hq
    unfold chooseStep at hq
    split at hq
    · exact hbest q hq
    · split at hq
      · rename_i hc
        obtain rfl := Option.some.inj hq
        simp only [Bool.and_eq_true, Bool.not_eq_true'] at hc
        exact hl e (List.mem_cons_self ..) hc.1.1 hc.1.2
      · exact hbest q hq

theorem inetGateway_some (h : inetGateway cnf s f = some p) :
    s.finished f = false ∧ p ∈ s.tree.map Prod.snd ∧ (s.mem p).candidate cnf f = true :=
  foldl_chooseStep_some (Q := fun p => s.finished f = false ∧ p ∈ s.tree.map Prod.snd ∧
    (s.mem p).candidate cnf f = true) s.tree (fun _ h => absurd h.symm (Option.some_ne_none _))
    (fun _ he hf hc => ⟨hf, List.mem_map_of_mem he, hc⟩) p h

/-- An unfinished family finds a gateway if there is an eligible one. -/
theorem inetGateway_ne_none (hf : s.finished f = false) (h : Eligible cnf s f p) : inetGateway cnf s f ≠ none := by
  obtain ⟨e, he, rfl⟩ := List.mem_map.1 h.mem
  obtain ⟨cost, hcost, hlt⟩ := h.cost
  -- as long as nothing is found, the bound is the cost of a broken route
  have hfold : ∀ (l : List (IpAddr × GwPtr)) (best : Option GwPtr × Nat), e ∈ l →
      (best.1 = none → best.2 = routeCostBroken) → (l.foldl (chooseStep cnf s f) best).1 ≠ none := by
    intro l
    induction l with
    | nil => exact fun _ he => nomatch he
    | cons x l ih =>
      intro best hmem hbest
      by_cases hb : best.1 = none
      · rcases List.mem_cons.1 hmem with rfl | hmem
        · refine foldl_chooseStep_ne_none l ?_
          have hlt' : cost < best.2 := (hbest hb).symm ▸ hlt
          simp [chooseStep, hcost, hf, h.candidate, hlt']
        · refine ih _ hmem fun hn => ?_
          unfold chooseStep at hn ⊢
          split
          · exact hbest hb
          · split
            · rename_i hc
              simp_all
            · exact hbest hb
      · exact foldl_chooseStep_ne_none l (chooseStep_ne_none hb x)
  exact hfold s.tree _ he fun _ => rfl

theorem candidate_valid {gw : GatewayEntry} (h : gw.candidate cnf f = true) : gw.valid cnf f = true := by
  cases f with
  | v4 =>
    simp only [GatewayEntry.candidate, Bool.and_eq_true, beq_iff_eq] at h
    simp [GatewayEntry.valid, h.1, h.2]
  | v6 => exact h

/-- Every entry is found under its originator. -/
def Findable (s : GwState) : Prop := ∀ p ∈ s.tree.map Prod.snd, olsrFindGatewayEntry s (s.mem p).originator = some p

/-- The default handler left the gateways as they were or changed them to candidates. -/
structure Chosen (cnf : GwCnf) (s s' : GwState) : Prop where
  tree : s'.tree = s.tree
  mem : s'.mem = s.mem
  pathCost : s'.pathCost = s.pathCost
  current : ∀ f, s'.current f = s.current f ∨
    ∃ p, s'.current f = some p ∧ p ∈ s.tree.map Prod.snd ∧ (s.mem p).candidate cnf f = true ∧ cnf.serves f = true
  tunnels : TunnelsMatch s → TunnelsMatch s'

theorem Chosen.trans {s₁ s₂ s₃ : GwState} (h : Chosen cnf s₁ s₂) (h' : Chosen cnf s₂ s₃) : Chosen cnf s₁ s₃ where
  tree := h'.tree.trans h.tree
  mem := h'.mem.trans h.mem
  pathCost := h'.pathCost.trans h.pathCost
  current f := by
    rcases h'.current f with hf | hf
    · rw [hf]
      exact h.current f
    · rw [h.tree, h.mem] at hf
      exact .inr hf
  tunnels ht := h'.tunnels (h.tunnels ht)

theorem Findable.congr (h : Findable s) (htree : s'.tree = s.tree) (hmem : s'.mem = s.mem) : Findable s' := by
  intro p hp
  rw [htree] at hp
  rw [olsrFindGatewayEntry, htree, hmem]
  exact h p hp

/-- `finished` has no part in the tunnels. -/
theorem chosen_finished (finished : Family → Bool) : Chosen cnf s { s with finished := finished } :=
  ⟨rfl, rfl, rfl, fun _ => .inl rfl, fun h => ⟨h.tunnel, h.usage, h.nullTaken⟩⟩

variable (cnf) in
/-- `olsr_set_inet_gateway` for a candidate of all the families it is called for. -/
theorem olsrSetInetGateway_chosen (want : Family → Bool) (hfind : Findable s) {a : IpAddr}
    (ha : (s.mem p).originator = a) (hp : p ∈ s.tree.map Prod.snd)
    (hcand : ∀ f, want f = true → (s.mem p).candidate cnf f = true) (external : Bool) :
    Chosen cnf s (olsrSetInetGateway cnf s a want external) ∧
      ∀ f, (olsrSetInetGateway cnf s a want external).current f =
        if want f && cnf.serves f then some p else s.current f := by
  subst ha
  have hset : ∀ f, setCurrent cnf s (s.mem p).originator want f = if want f && cnf.serves f then some p
      else s.current f := by
    intro f
    unfold setCurrent
    split
    · rename_i hw
      rw [hfind p hp, Option.filter_some, if_pos (candidate_valid (hcand f (Bool.and_eq_true_iff.1 hw).1))]
    · rfl
  obtain ⟨htree, hmem, hcur, -, hcost⟩ := olsrSetInetGateway_same cnf s (s.mem p).originator want external
  have hcur' : ∀ f, (olsrSetInetGateway cnf s (s.mem p).originator want external).current f =
      if want f && cnf.serves f then some p else s.current f := fun f => (congrFun hcur f).trans (hset f)
  refine ⟨⟨htree, hmem, hcost, fun f => ?_, fun ht => ?_⟩, hcur'⟩
  · rw [hcur']
    split
    · rename_i hw
      obtain ⟨hw, hs⟩ := Bool.and_eq_true_iff.1 hw
      exact .inr ⟨p, rfl, hp, hcand f hw, hs⟩
    · exact .inl rfl
  · refine olsrSetInetGateway_tunnels ht (fun f hf => ?_) external
    rw [hset]
    split
    · exact Option.some_ne_none p
    · exact hf

variable (cnf) in
/-- `gw_default_choose_gateway` changes every family with a best gateway to it. -/
theorem gwDefaultChooseGateway_spec (hfind : Findable s) :
    Chosen cnf s (gwDefaultChooseGateway cnf s) ∧ ∀ f p, inetGateway cnf s f = some p → cnf.serves f = true →
      (gwDefaultChooseGateway cnf s).current f = some p := by
  obtain ⟨s₁, hs₁⟩ : ∃ s₁, s₁ = { s with finished := fun f => s.finished f || (inetGateway cnf s f).isSome } := ⟨_, rfl⟩
  have h₁ : Chosen cnf s s₁ := hs₁ ▸ chosen_finished _
  have hfind₁ : Findable s₁ := hfind.congr h₁.tree h₁.mem
  have hbest : ∀ {s₂ : GwState}, s₂.tree = s.tree → s₂.mem = s.mem → ∀ {f p}, inetGateway cnf s f = some p →
      p ∈ s₂.tree.map Prod.snd ∧ (s₂.mem p).candidate cnf f = true := by
    intro s₂ ht hm f p h
    rw [ht, hm]
    exact (inetGateway_some h).2
  dsimp only [gwDefaultChooseGateway]
  rw [← hs₁]
  cases h4 : inetGateway cnf s .v4 with
  | none =>
    cases h6 : inetGateway cnf s .v6 with
    | none =>
      refine ⟨h₁, fun f p hf => ?_⟩
      cases f <;> simp_all
    | some q =>
      obtain ⟨hq, hcand⟩ := hbest h₁.tree h₁.mem h6
      obtain ⟨hc, hcur⟩ := olsrSetInetGateway_chosen cnf (a := (s₁.mem q).originator)
        (families false true) hfind₁ rfl hq
        (fun f hf => by cases f with | v4 => nomatch hf | v6 => exact hcand) false
      refine ⟨h₁.trans hc, fun f p hf hs => ?_⟩
      cases f with
      | v4 => rw [h4] at hf; nomatch hf
      | v6 =>
        rw [h6] at hf
        refine (hcur .v6).trans ?_
        rw [hs]
        exact hf
  | some p4 =>
    obtain ⟨hp4, hcand4⟩ := hbest h₁.tree h₁.mem h4
    by_cases hdual : inetGateway cnf s .v6 = some p4
    · obtain ⟨-, hcand6⟩ := hbest h₁.tree h₁.mem hdual
      obtain ⟨hc, hcur⟩ := olsrSetInetGateway_chosen cnf (a := (s.mem p4).originator)
        (families true true) hfind₁ (by rw [h₁.mem]) hp4
        (fun f _ => by cases f with | v4 => exact hcand4 | v6 => exact hcand6) false
      simp only [hdual, beq_self_eq_true, if_true]
      refine ⟨h₁.trans hc, fun f p hf hs => ?_⟩
      cases f with
      | v4 =>
        rw [h4] at hf
        refine (hcur .v4).trans ?_
        rw [hs]
        exact hf
      | v6 =>
        rw [hdual] at hf
        refine (hcur .v6).trans ?_
        rw [hs]
        exact hf
    · have hd : (some p4 == inetGateway cnf s .v6) = false := beq_eq_false_iff_ne.2 (Ne.symm hdual)
      obtain ⟨hc, hcur⟩ := olsrSetInetGateway_chosen cnf (a := (s.mem p4).originator)
        (families true false) hfind₁ (by rw [h₁.mem]) hp4
        (fun f hf => by cases f with | v4 => exact hcand4 | v6 => nomatch hf) false
      simp only [hd]
      cases h6 : inetGateway cnf s .v6 with
      | none =>
        refine ⟨h₁.trans hc, fun f p hf hs => ?_⟩
        cases f with
        | v4 =>
          rw [h4] at hf
          refine (hcur .v4).trans ?_
          rw [hs]
          exact hf
        | v6 => rw [h6] at hf; nomatch hf
      | some q =>
        have h₂ := h₁.trans hc
        obtain ⟨hq, hcand⟩ := hbest h₂.tree h₂.mem h6
        obtain ⟨hc', hcur'⟩ := olsrSetInetGateway_chosen cnf (families false true)
          (hfind.congr h₂.tree h₂.mem) rfl hq (fun f hf => by cases f with | v4 => nomatch hf | v6 => exact hcand) false
        refine ⟨h₂.trans hc', fun f p hf hs => ?_⟩
        cases f with
        | v4 =>
          rw [h4] at hf
          refine (hcur' .v4).trans ((hcur .v4).trans ?_)
          rw [hs]
          exact hf
        | v6 =>
          rw [h6] at hf
          refine (hcur' .v6).trans ?_
          rw [hs]
          exact hf

/-! ## Handlers -/

theorem unserved_eq (f : Family) : unserved cnf f = !cnf.serves f := by
  cases f <;> cases hv : cnf.ipVersion <;> simp [unserved, GwCnf.serves, hv]

/-- A family for which there is a gateway to change to gets one. -/
def Replaced (cnf : GwCnf) (s s' : GwState) (f : Family) : Prop :=
  (∃ p, Eligible cnf s f p) → ∃ p, s'.current f = some p ∧ p ∈ s.tree.map Prod.snd ∧ (s.mem p).candidate cnf f = true

variable (cnf) in
theorem olsrGwDefaultLookupGateway_spec (hfind : Findable s) (want : Family → Bool) :
    Chosen cnf s (olsrGwDefaultLookupGateway cnf s want) ∧ ∀ f, want f = true → cnf.serves f = true →
      Replaced cnf s (olsrGwDefaultLookupGateway cnf s want) f := by
  obtain ⟨s₁, hs₁⟩ : ∃ s₁, s₁ = { s with finished := fun f => if want f then unserved cnf f else s.finished f } :=
    ⟨_, rfl⟩
  have h₁ : Chosen cnf s s₁ := hs₁ ▸ chosen_finished _
  have hlookup : olsrGwDefaultLookupGateway cnf s want =
      if !(s₁.finished .v4 && s₁.finished .v6) then gwDefaultChooseGateway cnf s₁ else s₁ := by rw [hs₁]; rfl
  rw [hlookup]
  have hfin : ∀ f, want f = true → cnf.serves f = true → s₁.finished f = false := by
    intro f hw hs
    rw [hs₁]
    simp [hw, unserved_eq, hs]
  by_cases hdone : (!(s₁.finished .v4 && s₁.finished .v6)) = true
  · rw [if_pos hdone]
    obtain ⟨hc, hbest⟩ := gwDefaultChooseGateway_spec cnf (hfind.congr h₁.tree h₁.mem)
    refine ⟨h₁.trans hc, ?_⟩
    rintro f hw hs ⟨p, hp⟩
    have hp₁ : Eligible cnf s₁ f p := by
      rw [hs₁]
      exact ⟨hp.mem, hp.candidate, hp.cost⟩
    obtain ⟨q, hq⟩ := Option.ne_none_iff_exists'.1 (inetGateway_ne_none (hfin f hw hs) hp₁)
    obtain ⟨-, hmem, hcand⟩ := inetGateway_some hq
    rw [h₁.tree] at hmem
    rw [h₁.mem] at hcand
    exact ⟨q, hbest f q hq hs, hmem, hcand⟩
  · rw [if_neg hdone]
    refine ⟨h₁, fun f hw hs => ?_⟩
    -- a family that is looked for is not finished
    have hf := hfin f hw hs
    cases f <;> simp [hf] at hdone

variable (cnf) in
theorem gwDefaultUpdateHandler_spec (hfind : Findable s) (gw : GwPtr) :
    Chosen cnf s (gwDefaultUpdateHandler cnf s gw) ∧ ∀ f, s.current f = some gw → (s.mem gw).valid cnf f = false →
      cnf.serves f = true → Replaced cnf s (gwDefaultUpdateHandler cnf s gw) f := by
  obtain ⟨changed, hchanged⟩ : ∃ changed : Family → Bool, changed = fun f => s.current f == some gw &&
    !(s.mem gw).valid cnf f := ⟨_, rfl⟩
  have hupdate : gwDefaultUpdateHandler cnf s gw =
      if changed .v4 || changed .v6 then olsrGwDefaultLookupGateway cnf s changed else s := by rw [hchanged]; rfl
  rw [hupdate]
  have hlost : ∀ f, s.current f = some gw → (s.mem gw).valid cnf f = false → changed f = true := by
    intro f hf hv
    rw [hchanged]
    simp [hf, hv]
  by_cases hany : (changed .v4 || changed .v6) = true
  · rw [if_pos hany]
    obtain ⟨hc, hrep⟩ := olsrGwDefaultLookupGateway_spec cnf hfind changed
    exact ⟨hc, fun f hf hv => hrep f (hlost f hf hv)⟩
  · rw [if_neg hany]
    refine ⟨chosen_finished s.finished, fun f hf hv => ?_⟩
    have hl := hlost f hf hv
    cases f <;> simp [hl] at hany

theorem gwDefaultDeleteHandler_chosen (hfind : Findable s) (gw : GwPtr) :
    Chosen cnf s (gwDefaultDeleteHandler cnf s gw) := by
  unfold gwDefaultDeleteHandler
  dsimp only
  split
  · exact (olsrGwDefaultLookupGateway_spec cnf hfind _).1
  · exact chosen_finished s.finished

variable (cnf) in
theorem gwDefaultChoosegwHandler_chosen (hfind : Findable s) (want : Family → Bool) :
    Chosen cnf s (gwDefaultChoosegwHandler cnf s want) := by
  have hl : Chosen cnf s (olsrGwDefaultLookupGateway cnf s want) := (olsrGwDefaultLookupGateway_spec cnf hfind want).1
  unfold gwDefaultChoosegwHandler
  dsimp only
  split
  · exact hl.trans (chosen_finished _)
  · exact hl

end Olsrd.Gateway
