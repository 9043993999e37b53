/-
The election of the best path. Paths are ordered by cost, hops and originator, where the path to the current internet
gateway counts with a reduced cost, and the election of a default route sets this gateway for the next one.
-/
import Mathlib.Data.Prod.Lex
import Mathlib.Data.Rat.Floor
import Olsrd.Routing.BestPath
import Olsrd.Topology.Borders

namespace Olsrd.Routing

open Keyed

variable {env : Env} {s s' s₁ : Rib} {e p q : Ptr} {x z : RtPath} {y : RtEntry} {inetgw : Option Ptr}

/-! ## The order -/

/-- The cost of a path in an election. -/
def scaledCost (env : Env) (inetgw : Option Ptr) (p : Ptr) (x : RtPath) : UInt32 :=
  if inetgw = some p then env.natThresh x.metric.cost else x.metric.cost

/-- What paths are ordered by: cost, hops and originator. -/
def rank (env : Env) (inetgw : Option Ptr) (p : Ptr) (x : RtPath) : Nat ×ₗ Nat ×ₗ Nat :=
  toLex ((scaledCost env inetgw p x).toNat, toLex (x.metric.hops.toNat, bigEndian x.originator))

theorem rank_lt_iff {a b : Nat ×ₗ Nat ×ₗ Nat} : a < b ↔ (ofLex a).1 < (ofLex b).1 ∨ (ofLex a).1 = (ofLex b).1 ∧
    ((ofLex (ofLex a).2).1 < (ofLex (ofLex b).2).1 ∨
      (ofLex (ofLex a).2).1 = (ofLex (ofLex b).2).1 ∧ (ofLex (ofLex a).2).2 < (ofLex (ofLex b).2).2) := by
  rw [Prod.Lex.lt_iff, Prod.Lex.lt_iff]

/-- The comparison of two paths is the lexicographic order. -/
theorem olsrCmpRtp_iff : olsrCmpRtp env inetgw p x q z = true ↔ rank env inetgw p x < rank env inetgw q z := by
  rw [rank_lt_iff]
  unfold olsrCmpRtp
  change (if scaledCost env inetgw p x < scaledCost env inetgw q z then true
    else if scaledCost env inetgw p x > scaledCost env inetgw q z then false else _) = true ↔
      (scaledCost env inetgw p x).toNat < (scaledCost env inetgw q z).toNat ∨
        (scaledCost env inetgw p x).toNat = (scaledCost env inetgw q z).toNat ∧
          (x.metric.hops.toNat < z.metric.hops.toNat ∨ x.metric.hops.toNat = z.metric.hops.toNat ∧
            bigEndian x.originator < bigEndian z.originator)
  simp only [gt_iff_lt, UInt32.lt_iff_toNat_lt]
  split
  · simp_all
  · split
    · simp only [Bool.false_eq_true, false_iff]
      omega
    · split
      · simp only [true_iff]
        omega
      · split
        · simp only [Bool.false_eq_true, false_iff]
          omega
        · simp only [decide_eq_true_eq]
          omega

/-- A path whose cost counts more, or as much, ranks no better. -/
theorem rank_le_of_cost {inetgw' : Option Ptr} (h : scaledCost env inetgw p x ≤ scaledCost env inetgw' p x) :
    rank env inetgw p x ≤ rank env inetgw' p x := by
  rw [← not_lt, rank_lt_iff]
  have hle := UInt32.le_iff_toNat_le.1 h
  simp only [rank, ofLex_toLex]
  omega

/-! ## The election -/

/-- No path of the list ranks better. -/
def Unbeaten (env : Env) (s : Rib) (ps : List Ptr) (b : Ptr) : Prop :=
  b ∈ ps ∧ ∃ x, s.path b = some x ∧
    ∀ p ∈ ps, ∀ z, s.path p = some z → rank env s.currentInetgw b x ≤ rank env s.currentInetgw p z

/-- The loop ends with a path that none of the others beats. -/
theorem electBest_unbeaten : ∀ (ps : List Ptr) (b : Ptr), (∀ p ∈ b :: ps, ∃ x, s.path p = some x) →
    ∃ c, electBest env s ps b = some c ∧ Unbeaten env s (b :: ps) c
  | [], b, hpaths => by
    obtain ⟨x, hx⟩ := hpaths b (List.mem_cons_self ..)
    refine ⟨b, rfl, List.mem_cons_self .., x, hx, fun p hp z hz => ?_⟩
    obtain rfl := List.mem_singleton.1 hp
    rw [Option.some.inj (hz.symm.trans hx)]
  | p :: ps, b, hpaths => by
    obtain ⟨x, hx⟩ := hpaths b (List.mem_cons_self ..)
    obtain ⟨z, hz⟩ := hpaths p (List.mem_cons_of_mem _ (List.mem_cons_self ..))
    obtain ⟨d, hd⟩ : ∃ d, d = if olsrCmpRtp env s.currentInetgw p z b x then p else b := ⟨_, rfl⟩
    have hstep : electBest env s (p :: ps) b = electBest env s ps d := by
      rw [electBest, hz, hx, hd]
      rfl
    -- the better one of the two
    have hbest : (d = p ∨ d = b) ∧ ∀ w, s.path d = some w →
        rank env s.currentInetgw d w ≤ rank env s.currentInetgw p z ∧
          rank env s.currentInetgw d w ≤ rank env s.currentInetgw b x := by
      by_cases hcmp : olsrCmpRtp env s.currentInetgw p z b x = true
      · rw [if_pos hcmp] at hd
        subst hd
        refine ⟨.inl rfl, fun w hw => ?_⟩
        obtain rfl := Option.some.inj (hw.symm.trans hz)
        exact ⟨le_refl _, (olsrCmpRtp_iff.1 hcmp).le⟩
      · rw [if_neg hcmp] at hd
        subst hd
        refine ⟨.inr rfl, fun w hw => ?_⟩
        obtain rfl := Option.some.inj (hw.symm.trans hx)
        exact ⟨not_lt.1 fun hlt => hcmp (olsrCmpRtp_iff.2 hlt), le_refl _⟩
    obtain ⟨hmem, hle⟩ := hbest
    obtain ⟨c, hc, hcmem, w, hw, hmin⟩ := electBest_unbeaten ps d fun r hr => by
      rcases List.mem_cons.1 hr with rfl | hr
      · rcases hmem with rfl | rfl
        · exact ⟨z, hz⟩
        · exact ⟨x, hx⟩
      · exact hpaths r (List.mem_cons_of_mem _ (List.mem_cons_of_mem _ hr))
    obtain ⟨v, hv⟩ : ∃ v, s.path d = some v := by
      rcases hmem with rfl | rfl
      · exact ⟨z, hz⟩
      · exact ⟨x, hx⟩
    have hdmin := hmin d (List.mem_cons_self ..) v hv
    refine ⟨c, hstep.trans hc, ?_, w, hw, fun r hr u hu => ?_⟩
    · rcases List.mem_cons.1 hcmem with rfl | hcmem
      · rcases hmem with rfl | rfl
        · exact List.mem_cons_of_mem _ (List.mem_cons_self ..)
        · exact List.mem_cons_self ..
      · exact List.mem_cons_of_mem _ (List.mem_cons_of_mem _ hcmem)
    · rcases List.mem_cons.1 hr with rfl | hr
      · obtain rfl := Option.some.inj (hu.symm.trans hx)
        exact hdmin.trans (hle v hv).2
      · rcases List.mem_cons.1 hr with rfl | hr
        · obtain rfl := Option.some.inj (hu.symm.trans hz)
          exact hdmin.trans (hle v hv).1
        · exact hmin r (List.mem_cons_of_mem _ hr) u hu

/-- The tree holds one path for each of its originators, whose addresses have one length. -/
structure PathsOf (env : Env) (s : Rib) (t : List (IpAddr × Ptr)) : Prop where
  keys : (t.map Prod.fst).Nodup
  paths : ∀ a p, (a, p) ∈ t → ∃ x, s.path p = some x ∧ x.originator = a
  lengths : ∀ a p, (a, p) ∈ t → a.length = env.cnf.ipsize

theorem RibWf.pathsOf (hw : RibWf s) (hy : s.entry e = some y)
    (hlen : ∀ a p, (a, p) ∈ y.pathTree → a.length = env.cnf.ipsize) : PathsOf env s y.pathTree where
  keys := (hw.pathTree e y hy).keys
  paths a p hp := by
    obtain ⟨x, hx, -, ha⟩ := ((hw.pathTree e y hy).mem a p).1 hp
    exact ⟨x, hx, ha⟩
  lengths := hlen

section
variable {t : List (IpAddr × Ptr)} {b c : Ptr}

theorem PathsOf.exists_path (h : PathsOf env s t) (hp : p ∈ t.map Prod.snd) : ∃ x, s.path p = some x := by
  obtain ⟨e, he, rfl⟩ := List.mem_map.1 hp
  obtain ⟨x, hx, -⟩ := h.paths e.1 e.2 he
  exact ⟨x, hx⟩

/-- Paths of one tree rank apart, for they have originators of their own. -/
theorem PathsOf.rank_ne (h : PathsOf env s t) (hp : p ∈ t.map Prod.snd) (hq : q ∈ t.map Prod.snd) (hne : p ≠ q)
    (hx : s.path p = some x) (hz : s.path q = some z) : rank env inetgw p x ≠ rank env inetgw q z := by
  intro heq
  obtain ⟨⟨a, p⟩, hap, rfl⟩ := List.mem_map.1 hp
  obtain ⟨⟨c, q⟩, hcq, rfl⟩ := List.mem_map.1 hq
  obtain ⟨x', hx', ha⟩ := h.paths a p hap
  obtain ⟨z', hz', hc⟩ := h.paths c q hcq
  obtain rfl := Option.some.inj (hx.symm.trans hx')
  obtain rfl := Option.some.inj (hz.symm.trans hz')
  have horig : bigEndian x.originator = bigEndian z.originator :=
    congrArg (fun r : Nat ×ₗ Nat ×ₗ Nat => (ofLex (ofLex r).2).2) heq
  rw [ha, hc] at horig
  obtain rfl := Topology.bigEndian_inj ((h.lengths a p hap).trans (h.lengths c q hcq).symm) horig
  exact hne (congrArg Prod.snd (List.inj_on_of_nodup_map h.keys hap hcq rfl))

/-- Every other path of the tree ranks behind. -/
def Elected (env : Env) (s : Rib) (t : List (IpAddr × Ptr)) (b : Ptr) : Prop :=
  b ∈ t.map Prod.snd ∧ ∃ x, s.path b = some x ∧ ∀ p ∈ t.map Prod.snd, p ≠ b → ∀ z, s.path p = some z →
    rank env s.currentInetgw b x < rank env s.currentInetgw p z

theorem Elected.unique (hb : Elected env s t b) (hc : Elected env s t c) : c = b := by
  obtain ⟨hbmem, x, hx, hbmin⟩ := hb
  obtain ⟨hcmem, z, hz, hcmin⟩ := hc
  by_contra hne
  exact lt_asymm (hbmin c hcmem hne z hz) (hcmin b hbmem (Ne.symm hne) x hx)

theorem PathsOf.elected (h : PathsOf env s t) (hb : Unbeaten env s (t.map Prod.snd) b) : Elected env s t b := by
  obtain ⟨hmem, x, hx, hmin⟩ := hb
  exact ⟨hmem, x, hx, fun p hp hne z hz => lt_of_le_of_ne (hmin p hp z hz) (h.rank_ne hmem hp hne.symm hx hz)⟩

/-- The state after the election of the path `b`. -/
def electedState (s : Rib) (e : Ptr) (y : RtEntry) (b : Ptr) : Rib :=
  let s' := s.setEntry e { y with best := some b }
  if y.dst.prefixLen = 0 then { s' with currentInetgw := some b } else s'

theorem entry_electedState (s : Rib) (e : Ptr) (y : RtEntry) (b : Ptr) :
    (electedState s e y b).entry e = some { y with best := some b } := by
  unfold electedState
  split <;> simp [Rib.setEntry]

theorem path_electedState (s : Rib) (e : Ptr) (y : RtEntry) (b : Ptr) : (electedState s e y b).path = s.path := by
  unfold electedState
  split <;> rfl

theorem currentInetgw_electedState (s : Rib) (e : Ptr) (b : Ptr) (h : y.dst.prefixLen = 0) :
    (electedState s e y b).currentInetgw = some b := by
  unfold electedState
  rw [if_pos h]

theorem olsrRtBest_spec (hy : s.entry e = some y) (h : PathsOf env s y.pathTree) (hne : y.pathTree ≠ []) :
    ∃ b, Elected env s y.pathTree b ∧ olsrRtBest env s e = some (electedState s e y b) := by
  obtain ⟨⟨a, p⟩, rest, htree⟩ := List.exists_cons_of_ne_nil hne
  have hmap : y.pathTree.map Prod.snd = p :: rest.map Prod.snd := by rw [htree, List.map_cons]
  obtain ⟨b, hb, hunbeaten⟩ := @electBest_unbeaten env s (rest.map Prod.snd) p
    fun q hq => h.exists_path (hmap ▸ hq)
  refine ⟨b, h.elected (hmap ▸ hunbeaten), ?_⟩
  obtain ⟨dst, best, nexthop, metric, tree⟩ := y
  obtain rfl : tree = (a, p) :: rest := htree
  unfold olsrRtBest
  rw [hy]
  simp only [Option.bind_eq_bind, Option.bind_some, hb, Option.pure_def]
  rfl

/-! ## Elections in a row -/

/-- The paths of the tree have the metrics and the originators they had. -/
def SameMetrics (t : List (IpAddr × Ptr)) (s s₁ : Rib) : Prop :=
  ∀ p ∈ t.map Prod.snd, (s₁.path p).map (fun x => (x.metric, x.originator)) =
    (s.path p).map fun x => (x.metric, x.originator)

theorem SameMetrics.exists_path (h : SameMetrics t s s₁) (hp : p ∈ t.map Prod.snd) (hz : s₁.path p = some z) :
    ∃ x, s.path p = some x ∧ x.metric = z.metric ∧ x.originator = z.originator := by
  have hmap := h p hp
  rw [hz, Option.map_some, eq_comm, Option.map_eq_some_iff] at hmap
  obtain ⟨x, hx, heq⟩ := hmap
  exact ⟨x, hx, Prod.mk.inj heq⟩

theorem SameMetrics.symm (h : SameMetrics t s s₁) : SameMetrics t s₁ s := fun p hp => (h p hp).symm

theorem PathsOf.same (h : PathsOf env s t) (hsame : SameMetrics t s s₁) : PathsOf env s₁ t where
  keys := h.keys
  paths a p hp := by
    obtain ⟨x, hx, ha⟩ := h.paths a p hp
    obtain ⟨z, hz, -, horig⟩ := hsame.symm.exists_path (List.mem_map_of_mem hp) hx
    exact ⟨z, hz, horig.trans ha⟩
  lengths := h.lengths

/-- The reduced cost of the current internet gateway is no higher than its cost. -/
def Reduces (env : Env) : Prop := ∀ c, env.natThresh c ≤ c

theorem reduces_of_thresh {r : ℚ} (hr : r ≤ 1) (h : ∀ c, (env.natThresh c).toNat = ⌊r * c.toNat⌋₊) : Reduces env := by
  intro c
  rw [UInt32.le_iff_toNat_le, h c]
  exact Nat.floor_le_of_le (mul_le_of_le_one_left (Nat.cast_nonneg _) hr)

/-- The elected path stays elected when it has become the current internet gateway. -/
theorem Elected.again (hred : Reduces env) (h : Elected env s t b) (hsame : SameMetrics t s s₁)
    (hgw : s₁.currentInetgw = some b) : Elected env s₁ t b := by
  obtain ⟨hmem, x, hx, hmin⟩ := h
  obtain ⟨x₁, hx₁, hmetric, horig⟩ := hsame.symm.exists_path hmem hx
  refine ⟨hmem, x₁, hx₁, fun p hp hne z₁ hz₁ => ?_⟩
  obtain ⟨z, hz, hzmetric, hzorig⟩ := hsame.exists_path hp hz₁
  have hb : rank env s₁.currentInetgw b x ≤ rank env s.currentInetgw b x := by
    refine rank_le_of_cost ?_
    unfold scaledCost
    rw [if_pos hgw]
    split
    · exact UInt32.le_refl _
    · exact hred _
  have hpz : rank env s.currentInetgw p z ≤ rank env s₁.currentInetgw p z := by
    refine rank_le_of_cost ?_
    unfold scaledCost
    rw [hgw, if_neg fun heq => hne (Option.some.inj heq).symm]
    split
    · exact hred _
    · exact UInt32.le_refl _
  have hlt := hb.trans_lt ((hmin p hp hne z hz).trans_le hpz)
  unfold rank scaledCost at hlt ⊢
  rwa [hmetric, horig, ← hzmetric, ← hzorig]

/-- `olsr_rt_best` elects the path that ranks before all others. Elections of a default route that follow without a
change of the metrics elect it again. -/
theorem olsrRtBest_elects (env : Env) (s : Rib) (e : Ptr) (y : RtEntry) (hy : s.entry e = some y)
    (hpaths : PathsOf env s y.pathTree) (hne : y.pathTree ≠ []) : ∃ s' b, olsrRtBest env s e = some s' ∧
      s'.entry e = some { y with best := some b } ∧ (y.dst.prefixLen = 0 → s'.currentInetgw = some b) ∧
      Elected env s y.pathTree b ∧ (∀ c, Elected env s y.pathTree c → c = b) ∧
      ∀ r : ℚ, r ≤ 1 → (∀ c, (env.natThresh c).toNat = ⌊r * c.toNat⌋₊) → y.dst.prefixLen = 0 →
        ∀ s₁ y₁, s₁.entry e = some y₁ → y₁.dst = y.dst → y₁.pathTree = y.pathTree →
          SameMetrics y.pathTree s' s₁ → s₁.currentInetgw = s'.currentInetgw →
            ∃ s₂, olsrRtBest env s₁ e = some s₂ ∧ s₂.entry e = some { y₁ with best := some b } ∧
              s₂.currentInetgw = some b := by
  obtain ⟨b, hb, helect⟩ := olsrRtBest_spec hy hpaths hne
  refine ⟨_, b, helect, entry_electedState s e y b, currentInetgw_electedState s e b, hb,
    fun c hc => hb.unique hc, ?_⟩
  intro r hr hthresh hdst s₁ y₁ hy₁ hdst₁ htree₁ hsame hgw
  have hsame' : SameMetrics y.pathTree s s₁ := fun p hp => by
    rw [hsame p hp, path_electedState]
  have hpaths₁ : PathsOf env s₁ y₁.pathTree := htree₁ ▸ hpaths.same hsame'
  obtain ⟨c, hc, helect₁⟩ := olsrRtBest_spec hy₁ hpaths₁ (htree₁ ▸ hne)
  have hagain := hb.again (reduces_of_thresh hr hthresh) hsame' (hgw.trans (currentInetgw_electedState s e b hdst))
  rw [htree₁] at hc
  obtain rfl := hagain.unique hc
  exact ⟨_, helect₁, entry_electedState s₁ e y₁ c, currentInetgw_electedState s₁ e c (by rw [hdst₁, hdst])⟩

end

/-- The path to the current internet gateway counts half. -/
def natRouter : Env := { linuxRouter with natThresh := fun c => c / 2 }

def defaultPath (a : IpAddr) (cost : UInt32) : RtPath where
  rt := some 0
  tc := a
  nexthop := ⟨a, 1⟩
  metric := ⟨cost, 1⟩
  originator := a
  dst := ⟨[0, 0, 0, 0], 0⟩
  version := 0
  origin := 0

/-- A default route with two paths, the dearer one being that of the current internet gateway. -/
def twoGateways : Rib :=
  { emptyRib with
      path := fun p =>
        if p = 1 then some (defaultPath [10, 0, 0, 2] 2000)
        else if p = 2 then some (defaultPath [10, 0, 0, 3] 1500) else none
      entry := fun e => if e = 0 then
        some ⟨⟨[0, 0, 0, 0], 0⟩, some 1, ⟨[10, 0, 0, 2], 1⟩, ⟨2000, 1⟩, [([10, 0, 0, 2], 1), ([10, 0, 0, 3], 2)]⟩
          else none
      currentInetgw := some 1 }

theorem olsrRtBest_elects_twoGateways : ∃ s' b s₂, olsrRtBest natRouter twoGateways 0 = some s' ∧
    olsrRtBest natRouter s' 0 = some s₂ ∧ s'.currentInetgw = some b ∧ s₂.currentInetgw = some b := by
  obtain ⟨y, hy⟩ : ∃ y, twoGateways.entry 0 = some y := ⟨_, rfl⟩
  have htree : y.pathTree = [([10, 0, 0, 2], 1), ([10, 0, 0, 3], 2)] := by rw [← Option.some.inj hy]
  have hdst : y.dst.prefixLen = 0 := by rw [← Option.some.inj hy]
  have hpaths : PathsOf natRouter twoGateways y.pathTree := by
    rw [htree]
    refine ⟨by decide, fun a p hp => ?_, fun a p hp => ?_⟩
    · simp only [List.mem_cons, Prod.mk.injEq, List.not_mem_nil, or_false] at hp
      rcases hp with ⟨rfl, rfl⟩ | ⟨rfl, rfl⟩
      · exact ⟨_, rfl, rfl⟩
      · exact ⟨_, rfl, rfl⟩
    · simp only [List.mem_cons, Prod.mk.injEq, List.not_mem_nil, or_false] at hp
      rcases hp with ⟨rfl, -⟩ | ⟨rfl, -⟩ <;> rfl
  have hthresh : ∀ c, (natRouter.natThresh c).toNat = ⌊(1 / 2 : ℚ) * c.toNat⌋₊ := by
    intro c
    rw [one_div, inv_mul_eq_div]
    exact (UInt32.toNat_div c 2).trans (Rat.natFloor_natCast_div_natCast c.toNat 2).symm
  obtain ⟨s', b, hs', hentry, hgw, -, -, hagain⟩ :=
    olsrRtBest_elects natRouter twoGateways 0 y hy hpaths (by rw [htree]; exact List.cons_ne_nil _ _)
  obtain ⟨s₂, hs₂, -, hgw₂⟩ :=
    hagain (1 / 2) (by norm_num) hthresh hdst s' _ hentry rfl rfl (fun _ _ => rfl) rfl
  exact ⟨s', b, s₂, hs', hs₂, hgw hdst, hgw₂⟩

end Olsrd.Routing
