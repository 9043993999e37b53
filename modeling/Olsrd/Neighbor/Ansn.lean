/-
The ANSN tells receivers that a TC advertises other neighbours than the one before. It is increased when
`link_changes` is seen by the main loop, so that changes that set the flag count only once the loop has
seen it, and changes that set no flag do not count at all.
-/
import Olsrd.Neighbor.Advertised

namespace Olsrd.Neighbor

variable {env : Env}

/-! ## Runs -/

theorem stepNode_neighborhood {n n' : Node} {ev : Event} (h : stepNode env n (.neighborhood ev) = some n') :
    ∃ s, stepNbh env n.nbh ev = some s ∧ n' = { n with nbh := s } := by
  obtain ⟨s, hs, rfl⟩ := Option.map_eq_some_iff.1 h
  exact ⟨s, hs, rfl⟩

theorem stepNode_outputLqTc {n n' : Node} {x : TcInput} (h : stepNode env n (.outputLqTc x) = some n') :
    ∃ m, createLqTc env n.nbh n.ansn x = some m ∧ n' = { n with generated := (n.ansnSteps, m) :: n.generated } := by
  obtain ⟨m, hm, rfl⟩ := Option.map_eq_some_iff.1 h
  exact ⟨m, hm, rfl⟩

/-- TCs are built while no change is pending, and changes that are not signalled come while one is pending. -/
def AnsnOk (env : Env) (n : Node) : Action → Prop
  | .neighborhood ev => n.nbh.linkChanges = true ∨ Quiet env n.nbh ev
  | .outputLqTc _ => n.nbh.linkChanges = false ∧ ForeignNames n.nbh
  | .signalLinkChanges | .proceed => True

/-- A message was built after as many steps of the ANSN as its number says; messages of one number advertise the
same, and as long as no change is pending, what a message of the current number would advertise. -/
structure History (n : Node) : Prop where
  table : TableWf n.nbh
  links : LinksWf false n.nbh
  ansn : n.ansn = UInt16.ofNat n.ansnSteps
  numbers : ∀ t ∈ n.generated, t.1 ≤ n.ansnSteps ∧ t.2.ansn = UInt16.ofNat t.1
  current : n.nbh.linkChanges = false → ∀ t ∈ n.generated, t.1 = n.ansnSteps →
    ∀ a, t.2.Advertises a ↔ Advertised n.nbh a
  agree : n.generated.Pairwise fun later earlier => earlier.1 ≤ later.1 ∧
    (earlier.1 = later.1 → ∀ a, later.2.Advertises a ↔ earlier.2.Advertises a)

namespace History

variable {n : Node}

theorem neighborhood (h : History n) (htc : env.tcRedundancy = 2) {ev : Event} (hen : ev.Enabled n.nbh)
    (hok : n.nbh.linkChanges = true ∨ Quiet env n.nbh ev) {s : Nbh} (hstep : stepNbh env n.nbh ev = some s) :
    History { n with nbh := s } := by
  have hlinks : LinksWf n.nbh.linkChanges n.nbh := ⟨h.links.nodup, h.links.ids, h.links.neighbors, id⟩
  have hnext : TableWf s ∧ LinksWf n.nbh.linkChanges s := by
    rcases stepNbh_cases hstep with ⟨id, cost, -, rfl⟩ | hstep
    · have hupdated : LinksWf n.nbh.linkChanges (setLinkcost n.nbh id cost) := hlinks.updateLink id fun _ => rfl
      exact ⟨h.table.same (sameKeys_of_eq rfl rfl (le_refl _)), hupdated.of_refs rfl (le_refl _) fun _ => rfl⟩
    · exact ⟨h.table.step hstep, hlinks.step h.table hstep⟩
  obtain ⟨htable, hlinks'⟩ := hnext
  refine ⟨htable, ⟨hlinks'.nodup, hlinks'.ids, hlinks'.neighbors, by simp⟩, h.ansn, h.numbers, ?_, h.agree⟩
  intro hclear t ht hnow a
  have hbefore : n.nbh.linkChanges = false := by
    by_contra hset
    rw [hlinks'.pending (by simpa using hset)] at hclear
    cases hclear
  rcases hok with hset | hquiet
  · rw [hbefore] at hset; cases hset
  · rcases Noticed.step htc h.table h.links hen hquiet hstep with hflag | hsame
    · rw [hflag] at hclear; cases hclear
    · exact (h.current hbefore t ht hnow a).trans (hsame a).symm

theorem outputLqTc (h : History n) (htc : env.tcRedundancy = 2) (hlq : 0 < env.cnf.lqLevel)
    (hclear : n.nbh.linkChanges = false) (hforeign : ForeignNames n.nbh) {x : TcInput} {m : LqTcMessage}
    (hm : createLqTc env n.nbh n.ansn x = some m) :
    History { n with generated := (n.ansnSteps, m) :: n.generated } := by
  have hadv := createLqTc_advertises htc hlq h.table hforeign hm
  have hansn : m.ansn = n.ansn := by
    obtain ⟨ns, -, hm⟩ := Option.bind_eq_some_iff.1 hm
    obtain rfl := Option.some.inj hm
    rfl
  refine ⟨h.table, h.links, h.ansn, ?_, ?_, ?_⟩
  · intro t ht
    rcases List.mem_cons.1 ht with rfl | ht
    · exact ⟨le_refl _, hansn.trans h.ansn⟩
    · exact h.numbers t ht
  · intro _ t ht hnow
    rcases List.mem_cons.1 ht with rfl | ht
    · exact hadv
    · exact h.current hclear t ht hnow
  · refine List.pairwise_cons.2 ⟨fun t ht => ⟨(h.numbers t ht).1, fun hnow a => ?_⟩, h.agree⟩
    exact (hadv a).trans (h.current hclear t ht hnow a).symm

theorem checkLinkChanges (h : History n) : History (checkLinkChanges n) := by
  unfold Neighbor.checkLinkChanges
  split
  · refine ⟨h.table.same (sameKeys_of_eq rfl rfl (le_refl _)), ⟨h.links.nodup, h.links.ids, h.links.neighbors, by simp⟩,
      ?_, ?_, ?_, h.agree⟩
    · show n.ansn + 1 = UInt16.ofNat (n.ansnSteps + 1)
      rw [h.ansn, UInt16.ofNat_add]
      rfl
    · intro t ht
      exact ⟨Nat.le_succ_of_le (h.numbers t ht).1, (h.numbers t ht).2⟩
    · -- no message has the new number yet
      intro _ t ht hnow
      have hle := (h.numbers t ht).1
      rw [hnow] at hle
      exact absurd hle (Nat.not_succ_le_self _)
  · exact h

theorem step (h : History n) (htc : env.tcRedundancy = 2) {act : Action} (hen : act.Enabled env n)
    (hok : AnsnOk env n act) {n' : Node} (hstep : stepNode env n act = some n') : History n' := by
  cases act with
  | neighborhood ev =>
    obtain ⟨s, hs, rfl⟩ := stepNode_neighborhood hstep
    exact h.neighborhood htc hen.1 hok hs
  | signalLinkChanges =>
    obtain rfl := Option.some.inj hstep
    refine ⟨h.table.same (sameKeys_of_eq rfl rfl (le_refl _)), ⟨h.links.nodup, h.links.ids, h.links.neighbors, by simp⟩,
      h.ansn, h.numbers, ?_, h.agree⟩
    rintro ⟨⟩
  | outputLqTc x =>
    obtain ⟨m, hm, rfl⟩ := stepNode_outputLqTc hstep
    exact h.outputLqTc htc hen.2 hok.1 hok.2 hm
  | proceed =>
    obtain rfl := Option.some.inj hstep
    have hphase : ∀ {n : Node} (phase : Phase), History n → History { n with phase := phase } :=
      fun _ h => ⟨h.table, h.links, h.ansn, h.numbers, h.current, h.agree⟩
    unfold nextPhase
    split
    · exact hphase _ h
    · exact hphase _ h.checkLinkChanges
    · exact hphase _ h

end History

theorem history_startNode : History startNode where
  table := keyed_emptyNbh.toTableWf
  links := ⟨by simp [refs, startNode, emptyNbh], by simp [refs, startNode, emptyNbh], by simp [refs,
    startNode, emptyNbh], by simp⟩
  ansn := rfl
  numbers := by simp [startNode]
  current := by simp [startNode]
  agree := List.Pairwise.nil

theorem seqnoGreaterThan_ofNat {i j : Nat} (h : i < j) (hdist : j - i < 2 ^ 15) :
    UInt16.ofNat j ≠ UInt16.ofNat i ∧ Topology.seqnoGreaterThan (UInt16.ofNat j) (UInt16.ofNat i) = true := by
  have hi : (UInt16.ofNat i).toNat = i % 65536 := UInt16.toNat_ofNat'
  have hj : (UInt16.ofNat j).toNat = j % 65536 := UInt16.toNat_ofNat'
  have hhalf : (32767 : UInt16).toNat = 32767 := rfl
  -- the wire values are as far apart as the numbers, or the later one has wrapped
  have hcases : j % 65536 = i % 65536 + (j - i) ∨ j % 65536 + 65536 = i % 65536 + (j - i) := by omega
  constructor
  · intro heq
    rw [heq, hi] at hj
    omega
  · unfold Topology.seqnoGreaterThan
    simp only [Bool.or_eq_true, Bool.and_eq_true, decide_eq_true_eq, gt_iff_lt, UInt16.lt_iff_toNat_lt,
      UInt16.le_iff_toNat_le]
    rcases hcases with hc | hc
    · have hle : UInt16.ofNat i ≤ UInt16.ofNat j := by rw [UInt16.le_iff_toNat_le, hi, hj]; omega
      rw [UInt16.toNat_sub_of_le _ _ hle, hi, hj]
      omega
    · have hle : UInt16.ofNat j ≤ UInt16.ofNat i := by rw [UInt16.le_iff_toNat_le, hi, hj]; omega
      rw [UInt16.toNat_sub_of_le _ _ hle, hi, hj]
      omega

/-- As long as TCs are built while no change is pending, and changes that are not signalled come while one is
pending, TCs that advertise different neighbours carry different ANSNs, and the later one's is newer. -/
theorem reachable_ansn {n : Node} (htc : env.tcRedundancy = 2) (h : NodeReachable env (AnsnOk env) n) :
    n.generated.Pairwise fun later earlier => (∃ a, ¬ (later.2.Advertises a ↔ earlier.2.Advertises a)) →
      later.1 - earlier.1 < 2 ^ 15 →
      later.2.ansn ≠ earlier.2.ansn ∧ Topology.seqnoGreaterThan later.2.ansn earlier.2.ansn = true := by
  have hhistory : History n := by
    refine Run.Reaches.invariant (P := History) ?_ ?_ h
    · rintro _ rfl
      exact history_startNode
    · rintro n act n' hn ⟨hen, hok⟩ hstep
      exact hn.step htc hen hok hstep
  refine hhistory.agree.imp_of_mem fun {later earlier} hlater hearlier hagree => ?_
  obtain ⟨hle, hsame⟩ := hagree
  rintro ⟨a, ha⟩ hdist
  have hlt : earlier.1 < later.1 := lt_of_le_of_ne hle fun heq => ha (hsame heq a)
  rw [(hhistory.numbers later hlater).2, (hhistory.numbers earlier hearlier).2]
  exact seqnoGreaterThan_ofNat hlt hdist

/-! ## Two runs -/

def plainTcInput : TcInput where
  platform := { littleEndian := true, sizeofPtr := 8 }
  lqFish := 0
  valtimesTc := 0
  ttlIndex := 0
  isMpr := fun _ => false
  lookupMprsSet := fun _ => false
  copylq := fun _ => [255, 255, 0, 0]

/-- The neighbour 10.0.0.2 says what it hears of this node. -/
def hearsUs (link : LinkStatus) : HelloInput :=
  helloFrom [10, 0, 0, 2] [10, 0, 0, 2] [⟨[10, 0, 0, 1], link, false, 0⟩]

theorem reachable_actions {ok : Node → Action → Prop} {acts : List Action} {n : Node}
    (hrounds : Run.Rounds (fun n a => a.Enabled env n ∧ ok n a) (stepNode env) acts startNode)
    (h : Run.forEach (stepNode env) acts startNode = some n) : NodeReachable env ok n :=
  Run.reaches_forEach (.init rfl) hrounds h

/-- A neighbour is found, and the ANSN increased before the next TC. -/
def foundNeighbor : List Action :=
  [.proceed, .outputLqTc plainTcInput, .proceed, .neighborhood (.helloLink (hearsUs .sym)),
    .neighborhood (.setLinkcost 0 1024), .proceed, .proceed, .proceed, .proceed, .proceed, .outputLqTc plainTcInput]

/-- The neighbour of this run is not called by the address of the interface it is heard on. -/
theorem foreignNames_symHello {s : Nbh} (h : step oneInterface emptyNbh (.helloLink (hearsUs .sym)) = some s) :
    ForeignNames s := by
  have hrun : ((step oneInterface emptyNbh (.helloLink (hearsUs .sym))).any fun s => s.fresh == 2 &&
      (faceOf s 0 == none && faceOf s 1 == some ([10, 0, 0, 2], true)) &&
      s.links.all fun l => l.localIfaceAddr == [10, 0, 0, 1]) = true := by decide +kernel
  rw [h, Option.any_some] at hrun
  simp only [Bool.and_eq_true, beq_iff_eq, List.all_eq_true] at hrun
  obtain ⟨⟨hfresh, hzero, hone⟩, hlinks⟩ := hrun
  have htable : TableWf s := keyed_emptyNbh.toTableWf.step h
  rintro a ⟨p, hp⟩ l hl rfl
  have hlt : p < 2 := by
    by_contra hge
    have hkey := htable.fresh p (hfresh ▸ not_lt.1 hge)
    obtain ⟨e, he, -⟩ := Option.map_eq_some_iff.1 hp
    rw [keyOf_eq he] at hkey
    cases hkey
  rw [hlinks l hl] at hp
  obtain rfl | rfl := Nat.le_one_iff_eq_zero_or_eq_one.1 (Nat.lt_succ_iff.1 hlt)
  · rw [hzero] at hp; cases hp
  · rw [hone] at hp
    simp at hp

theorem reachable_ansn_foundNeighbor : ∃ n : Node, ∃ later earlier, n.generated = [later, earlier] ∧
    later.2.neigh.map Prod.fst = [[10, 0, 0, 2]] ∧ earlier.2.neigh.map Prod.fst = [] ∧
    later.2.ansn ≠ earlier.2.ansn ∧ Topology.seqnoGreaterThan later.2.ansn earlier.2.ansn = true := by
  have hrun : ((Run.forEach (stepNode oneInterface) foundNeighbor startNode).any fun n =>
      n.generated.map (fun t => (t.1, t.2.neigh.map Prod.fst)) == [(1, [[10, 0, 0, 2]]), (0, [])]) = true := by
    decide +kernel
  obtain ⟨n, hn, hgen⟩ := (Option.any_eq_true _ _).1 hrun
  have hrounds : Run.Rounds (fun n a => a.Enabled oneInterface n ∧ AnsnOk oneInterface n a) (stepNode oneInterface)
      foundNeighbor startNode := by
    refine ⟨⟨trivial, trivial⟩, fun n₁ h₁ => ?_⟩
    obtain rfl := Option.some.inj h₁
    have hforeign : ForeignNames emptyNbh := fun a _ l hl => absurd hl (List.not_mem_nil)
    refine ⟨⟨⟨rfl, by decide⟩, rfl, hforeign⟩, fun n₂ h₂ => ?_⟩
    obtain ⟨m, -, rfl⟩ := stepNode_outputLqTc h₂
    refine ⟨⟨trivial, trivial⟩, fun n₃ h₃ => ?_⟩
    obtain rfl := Option.some.inj h₃
    have hquiet : Quiet oneInterface emptyNbh (.helloLink (hearsUs .sym)) := by
      rintro p e ⟨⟨l, hl, -⟩, -⟩
      cases hl
    refine ⟨⟨⟨trivial, nofun⟩, .inr hquiet⟩, fun n₄ h₄ => ?_⟩
    obtain ⟨s₁, hs₁, rfl⟩ := stepNode_neighborhood h₄
    refine ⟨⟨⟨trivial, trivial⟩, .inr trivial⟩, fun n₅ h₅ => ?_⟩
    obtain ⟨s₂, hs₂, rfl⟩ := stepNode_neighborhood h₅
    obtain rfl := Option.some.inj hs₂
    refine ⟨⟨trivial, trivial⟩, fun n₆ h₆ => ⟨⟨trivial, trivial⟩, fun n₇ h₇ => ⟨⟨trivial, trivial⟩, fun n₈ h₈ =>
      ⟨⟨trivial, trivial⟩, fun n₉ h₉ => ⟨⟨trivial, trivial⟩, fun n₁₀ h₁₀ => ?_⟩⟩⟩⟩⟩
    obtain rfl := Option.some.inj h₆
    obtain rfl := Option.some.inj h₇
    obtain rfl := Option.some.inj h₈
    obtain rfl := Option.some.inj h₉
    obtain rfl := Option.some.inj h₁₀
    refine ⟨⟨⟨rfl, by decide⟩, rfl, ?_⟩, fun _ _ => trivial⟩
    rintro a ⟨p, hp⟩ l hl
    obtain ⟨l', hl', rfl⟩ := List.mem_map.1 hl
    have hlocal := foreignNames_symHello hs₁ a ⟨p, hp⟩ l' hl'
    split
    · exact hlocal
    · exact hlocal
  have hpair := reachable_ansn rfl (reachable_actions hrounds hn)
  obtain ⟨later, l, hlist, hlater, hl⟩ := List.map_eq_cons_iff.1 (beq_iff_eq.1 hgen)
  obtain ⟨earlier, l', rfl, hearlier, hnil⟩ := List.map_eq_cons_iff.1 hl
  obtain rfl := List.map_eq_nil_iff.1 hnil
  simp only [Prod.mk.injEq] at hlater hearlier
  rw [hlist] at hpair
  refine ⟨n, later, earlier, hlist, hlater.2, hearlier.2, ?_⟩
  exact (List.pairwise_cons.1 hpair).1 earlier (List.mem_cons_self ..)
    ⟨[10, 0, 0, 2], by simp [LqTcMessage.Advertises, hlater.2, hearlier.2]⟩ (by rw [hlater.1]; omega)

/-- The neighbour is lost when a packet is read, and the TC that the next timer builds has the ANSN of the one
that still advertised it. -/
def lostNeighbor : List Action :=
  [.neighborhood (.helloLink (hearsUs .sym)), .neighborhood (.setLinkcost 0 1024), .proceed, .proceed,
    .proceed, .proceed,
    .outputLqTc plainTcInput, .proceed, .neighborhood (.helloLink (hearsUs .lost)), .proceed, .proceed,
    .outputLqTc plainTcInput]

theorem lostNeighbor_ansn : ∃ n, NodeReachable oneInterface (fun _ _ => True) n ∧
    ¬ n.generated.Pairwise fun later earlier => (∃ a, ¬ (later.2.Advertises a ↔ earlier.2.Advertises a)) →
      later.1 - earlier.1 < 2 ^ 15 →
      later.2.ansn ≠ earlier.2.ansn ∧ Topology.seqnoGreaterThan later.2.ansn earlier.2.ansn = true := by
  have hrun : ((Run.forEach (stepNode oneInterface) lostNeighbor startNode).any fun n =>
      n.generated.map (fun t => (t.1, t.2.ansn, t.2.neigh.map Prod.fst)) ==
        [(1, 1, []), (1, 1, [[10, 0, 0, 2]])]) = true := by decide +kernel
  obtain ⟨n, hn, hgen⟩ := (Option.any_eq_true _ _).1 hrun
  refine ⟨n, reachable_actions ?_ hn, fun hpair => ?_⟩
  · refine ⟨⟨⟨trivial, nofun⟩, trivial⟩, fun n₁ h₁ => ⟨⟨⟨trivial, trivial⟩, trivial⟩, fun n₂ h₂ => ?_⟩⟩
    obtain ⟨s₁, -, rfl⟩ := stepNode_neighborhood h₁
    obtain ⟨s₂, -, rfl⟩ := stepNode_neighborhood h₂
    refine ⟨⟨trivial, trivial⟩, fun n₃ h₃ => ⟨⟨trivial, trivial⟩, fun n₄ h₄ => ⟨⟨trivial, trivial⟩, fun n₅ h₅ =>
      ⟨⟨trivial, trivial⟩, fun n₆ h₆ => ?_⟩⟩⟩⟩
    obtain rfl := Option.some.inj h₃
    obtain rfl := Option.some.inj h₄
    obtain rfl := Option.some.inj h₅
    obtain rfl := Option.some.inj h₆
    refine ⟨⟨⟨rfl, by decide⟩, trivial⟩, fun n₇ h₇ => ?_⟩
    obtain ⟨m, -, rfl⟩ := stepNode_outputLqTc h₇
    refine ⟨⟨trivial, trivial⟩, fun n₈ h₈ => ?_⟩
    obtain rfl := Option.some.inj h₈
    refine ⟨⟨⟨trivial, nofun⟩, trivial⟩, fun n₉ h₉ => ?_⟩
    obtain ⟨s₃, -, rfl⟩ := stepNode_neighborhood h₉
    refine ⟨⟨trivial, trivial⟩, fun n₁₀ h₁₀ => ⟨⟨trivial, trivial⟩, fun n₁₁ h₁₁ => ?_⟩⟩
    obtain rfl := Option.some.inj h₁₀
    obtain rfl := Option.some.inj h₁₁
    exact ⟨⟨⟨rfl, by decide⟩, trivial⟩, fun _ _ => trivial⟩
  · obtain ⟨later, l, hlist, hlater, hl⟩ := List.map_eq_cons_iff.1 (beq_iff_eq.1 hgen)
    obtain ⟨earlier, l', rfl, hearlier, -⟩ := List.map_eq_cons_iff.1 hl
    simp only [Prod.mk.injEq] at hlater hearlier
    rw [hlist] at hpair
    obtain ⟨hne, -⟩ := (List.pairwise_cons.1 hpair).1 earlier (List.mem_cons_self ..)
      ⟨[10, 0, 0, 2], by simp [LqTcMessage.Advertises, hlater.2.2, hearlier.2.2]⟩ (by rw [hlater.1]; omega)
    exact hne (hlater.2.1.trans hearlier.2.1.symm)

end Olsrd.Neighbor
