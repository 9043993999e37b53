/-
The status of a neighbour is a summary of its links that is made anew on some events only, from the links
that are found under the addresses of the node. Link hysteresis is off.
-/
import Olsrd.Neighbor.LinkCount

namespace Olsrd.Neighbor

variable {env : Env} {s s' : Nbh}

/-! ## The summary -/

/-- What a link contributes to the status of its neighbour. -/
structure Mark where
  id : Ptr
  neighbor : Ptr
  sym : Bool
  hysteresis : Option LinkStatus

def LinkEntry.mark (l : LinkEntry) : Mark := ⟨l.id, l.neighbor, l.linkSymTimer.isSome, l.hysteresis⟩

def marks (s : Nbh) : List Mark := s.links.map LinkEntry.mark

def symOf (s : Nbh) (p : Ptr) : Option Bool := (s.nbr p).map NeighborEntry.sym

theorem symOf_eq {p : Ptr} {e : NeighborEntry} (he : s.nbr p = some e) : symOf s p = some e.sym := by
  unfold symOf; rw [he]; rfl

theorem mem_marks {l : LinkEntry} (hl : l ∈ s.links) : l.mark ∈ marks s := List.mem_map_of_mem hl

/-- Some link to `p` is symmetric. -/
def HasSym (r : List Mark) (p : Ptr) : Prop := ∃ m ∈ r, m.neighbor = p ∧ m.sym = true

/-- Links have names of their own, and no hysteresis. -/
structure MarksWf (s : Nbh) : Prop where
  plain : ∀ m ∈ marks s, m.hysteresis = none
  nodup : ((marks s).map Mark.id).Nodup
  idFresh : ∀ m ∈ marks s, m.id < s.fresh
  nbrFresh : ∀ m ∈ marks s, m.neighbor < s.fresh

/-- The status of every neighbour agrees with its links. -/
structure Summarised (s : Nbh) : Prop extends MarksWf s where
  agrees : ∀ p b, symOf s p = some b → (b = true ↔ HasSym (marks s) p)

structure SameStatus (s s' : Nbh) : Prop where
  syms : ∀ p, symOf s' p = symOf s p
  marks : Neighbor.marks s' = Neighbor.marks s
  fresh : s.fresh ≤ s'.fresh

namespace SameStatus

theorem trans {s'' : Nbh} (h : SameStatus s s') (h' : SameStatus s' s'') : SameStatus s s'' :=
  ⟨fun p => (h'.syms p).trans (h.syms p), h'.marks.trans h.marks, h.fresh.trans h'.fresh⟩

theorem of_eq (hnbr : s'.nbr = s.nbr) (hlinks : s'.links = s.links) (hfresh : s.fresh ≤ s'.fresh) : SameStatus s s' :=
  ⟨fun p => by unfold symOf; rw [hnbr], by unfold Neighbor.marks; rw [hlinks], hfresh⟩

theorem setNbr {p : Ptr} {e f : NeighborEntry} (he : s.nbr p = some e) (hsym : f.sym = e.sym) :
    SameStatus s (s.setNbr p f) := by
  refine ⟨fun q => ?_, rfl, le_refl _⟩
  unfold symOf Nbh.setNbr
  by_cases hq : q = p
  · subst hq; simp [he, hsym]
  · simp [Function.update_of_ne hq]

theorem updateLink (s : Nbh) (id : Ptr) {f : LinkEntry → LinkEntry} (hf : ∀ l, (f l).mark = l.mark) :
    SameStatus s (s.updateLink id f) := by
  refine ⟨fun _ => rfl, ?_, le_refl _⟩
  unfold Neighbor.marks Nbh.updateLink
  rw [List.map_map]
  refine List.map_congr_left fun l _ => ?_
  show LinkEntry.mark (if l.id = id then f l else l) = l.mark
  split
  · exact hf l
  · rfl

end SameStatus

theorem TwoHopOnly.sameStatus (h : TwoHopOnly s s') : SameStatus s s' := by
  refine ⟨fun p => ?_, by unfold marks; rw [h.links], h.fresh⟩
  have hp := congrArg (Option.map fun c => c.2.1) (h.nbr p)
  rw [Option.map_map, Option.map_map] at hp
  exact hp

theorem MarksWf.same (h : MarksWf s) (hmarks : marks s' = marks s) (hfresh : s.fresh ≤ s'.fresh) : MarksWf s' where
  plain := by rw [hmarks]; exact h.plain
  nodup := by rw [hmarks]; exact h.nodup
  idFresh := by rw [hmarks]; exact fun m hm => (h.idFresh m hm).trans_le hfresh
  nbrFresh := by rw [hmarks]; exact fun m hm => (h.nbrFresh m hm).trans_le hfresh

theorem Summarised.same (h : Summarised s) (h' : SameStatus s s') : Summarised s' where
  toMarksWf := h.toMarksWf.same h'.marks h'.fresh
  agrees p b hb := by
    rw [h'.syms] at hb
    rw [h'.marks]
    exact h.agrees p b hb

theorem MarksWf.id_inj (h : MarksWf s) {l l' : LinkEntry} (hl : l ∈ s.links) (hl' : l' ∈ s.links) (hid : l.id = l'.id) :
    l = l' := by
  have hnodup := h.nodup
  unfold marks at hnodup
  rw [List.map_map] at hnodup
  exact List.inj_on_of_nodup_map hnodup hl hl' hid

theorem hasSym_iff {p : Ptr} : HasSym (marks s) p ↔ ∃ l ∈ s.links, l.neighbor = p ∧ l.linkSymTimer.isSome = true := by
  constructor
  · rintro ⟨m, hm, hp, hsym⟩
    obtain ⟨l, hl, rfl⟩ := List.mem_map.1 hm
    exact ⟨l, hl, hp, hsym⟩
  · rintro ⟨l, hl, hp, hsym⟩
    exact ⟨l.mark, mem_marks hl, hp, hsym⟩

theorem MarksWf.lookupLinkStatus (h : MarksWf s) {l : LinkEntry} (hl : l ∈ s.links) :
    lookupLinkStatus s l = .sym ↔ l.linkSymTimer.isSome = true := by
  have hplain : l.hysteresis = none := h.plain _ (mem_marks hl)
  unfold Neighbor.lookupLinkStatus
  rw [hplain]
  dsimp only
  split
  · simp [*]
  · split <;> simp [*]

/-- The status of neighbours in the terms of the source. -/
theorem Summarised.status_iff (h : Summarised s) {p : Ptr} {e : NeighborEntry} (he : s.nbr p = some e) :
    e.sym = true ↔ ∃ l ∈ s.links, l.neighbor = p ∧ Neighbor.lookupLinkStatus s l = .sym := by
  rw [h.agrees p e.sym (symOf_eq he), hasSym_iff]
  refine exists_congr fun l => and_congr_right fun hl => and_congr_right fun _ => ?_
  exact (h.lookupLinkStatus hl).symm

/-! ## Links found by address -/

/-- The addresses of a node that is known by `a`. -/
def family (mid : MidSet) (a : IpAddr) : List IpAddr := midMainAddr mid a :: midLookupAliases mid (midMainAddr mid a)

/-- The link is one that `get_neighbor_status` looks at for the address `a`. -/
def Found (env : Env) (s : Nbh) (a : IpAddr) (l : LinkEntry) : Prop :=
  ∃ ifc ∈ env.ifnet, ∃ x ∈ family s.mid a, findLink s x ifc = some l

theorem Found.mem {a : IpAddr} {l : LinkEntry} (h : Found env s a l) : l ∈ s.links := by
  obtain ⟨ifc, -, x, -, hl⟩ := h
  exact List.mem_of_find?_eq_some hl

theorem getNeighborStatus_iff {a : IpAddr} :
    getNeighborStatus env s a = .sym ↔ ∃ l, Found env s a l ∧ lookupLinkStatus s l = .sym := by
  unfold getNeighborStatus
  dsimp only
  split
  · rename_i hany
    refine iff_of_true rfl ?_
    obtain ⟨ifc, hifc, hany⟩ := List.any_eq_true.1 hany
    obtain ⟨x, hx, hsym⟩ := List.any_eq_true.1 hany
    obtain ⟨l, hl, hsym⟩ := (Option.any_eq_true _ _).1 hsym
    exact ⟨l, ⟨ifc, hifc, x, hx, hl⟩, beq_iff_eq.1 hsym⟩
  · rename_i hany
    refine iff_of_false (by decide) ?_
    rintro ⟨l, ⟨ifc, hifc, x, hx, hl⟩, hsym⟩
    refine hany (List.any_eq_true.2 ⟨ifc, hifc, List.any_eq_true.2 ⟨x, hx, ?_⟩⟩)
    exact (Option.any_eq_true _ _).2 ⟨l, hl, beq_iff_eq.2 hsym⟩

/-- The fields by which links are found. -/
def LinkEntry.place (l : LinkEntry) : Ptr × Ptr × IpAddr × Option String × IpAddr :=
  (l.id, l.neighbor, l.neighborIfaceAddr, l.ifName, l.localIfaceAddr)

theorem findLink_updateLink (id : Ptr) {f : LinkEntry → LinkEntry} (hf : ∀ l, (f l).place = l.place) (a : IpAddr)
    (ifc : Interface) :
    findLink (s.updateLink id f) a ifc = (findLink s a ifc).map fun l => if l.id = id then f l else l := by
  unfold findLink Nbh.updateLink
  rw [List.find?_map]
  congr 2
  funext l
  show ((if l.id = id then f l else l).neighborIfaceAddr == a && (if l.id = id then f l else l).onInterface ifc) = _
  split
  · have hplace := hf l
    unfold LinkEntry.place at hplace
    unfold LinkEntry.onInterface
    simp only [Prod.mk.injEq] at hplace
    rw [hplace.2.2.1, hplace.2.2.2.1, hplace.2.2.2.2]
  · rfl

theorem found_updateLink (id : Ptr) {f : LinkEntry → LinkEntry} (hf : ∀ l, (f l).place = l.place) {a : IpAddr}
    {l : LinkEntry} :
    Found env (s.updateLink id f) a l ↔ ∃ l₁, Found env s a l₁ ∧ l = if l₁.id = id then f l₁ else l₁ := by
  unfold Found
  constructor
  · rintro ⟨ifc, hifc, x, hx, hl⟩
    rw [findLink_updateLink id hf] at hl
    obtain ⟨l₁, hl₁, rfl⟩ := Option.map_eq_some_iff.1 hl
    exact ⟨l₁, ⟨ifc, hifc, x, hx, hl₁⟩, rfl⟩
  · rintro ⟨l₁, ⟨ifc, hifc, x, hx, hl₁⟩, rfl⟩
    exact ⟨ifc, hifc, x, hx, by rw [findLink_updateLink id hf, hl₁]; rfl⟩

/-! ## The status made anew -/

/-- Some link to the neighbour `p` other than `id` is symmetric. -/
def OtherSym (s : Nbh) (id p : Option Ptr) : Prop :=
  ∃ l ∈ s.links, some l.id ≠ id ∧ some l.neighbor = p ∧ l.linkSymTimer.isSome = true

/-- Some link other than `id` that is found for the address `a` is symmetric. -/
def OtherFound (env : Env) (s : Nbh) (a : IpAddr) (id : Option Ptr) : Prop :=
  ∃ l, Found env s a l ∧ some l.id ≠ id ∧ l.linkSymTimer.isSome = true

theorem marks_updateLink (id : Ptr) {f : LinkEntry → LinkEntry} {b : Bool}
    (hf : ∀ l ∈ s.links, l.id = id → (f l).mark = ⟨l.id, l.neighbor, b, none⟩) :
    marks (s.updateLink id f) = (marks s).map fun m => if m.id = id then ⟨m.id, m.neighbor, b, none⟩ else m := by
  unfold marks Nbh.updateLink
  rw [List.map_map, List.map_map]
  refine List.map_congr_left fun l hl => ?_
  show LinkEntry.mark (if l.id = id then f l else l) = if l.id = id then _ else l.mark
  split
  · exact hf l hl ‹_›
  · rfl

theorem MarksWf.updateLink (h : MarksWf s) (id : Ptr) {f : LinkEntry → LinkEntry} {b : Bool}
    (hf : ∀ l ∈ s.links, l.id = id → (f l).mark = ⟨l.id, l.neighbor, b, none⟩) : MarksWf (s.updateLink id f) := by
  have hcases : ∀ m' ∈ marks (s.updateLink id f), ∃ m ∈ marks s, m'.id = m.id ∧ m'.neighbor = m.neighbor ∧
      m'.hysteresis = none := by
    rw [marks_updateLink id hf]
    intro m' hm'
    obtain ⟨m, hm, rfl⟩ := List.mem_map.1 hm'
    refine ⟨m, hm, ?_⟩
    split
    · exact ⟨rfl, rfl, rfl⟩
    · exact ⟨rfl, rfl, h.plain m hm⟩
  refine ⟨fun m' hm' => ?_, ?_, fun m' hm' => ?_, fun m' hm' => ?_⟩
  · obtain ⟨m, -, -, -, hnone⟩ := hcases m' hm'
    exact hnone
  · rw [marks_updateLink id hf, List.map_map]
    have hids : (Mark.id ∘ fun m : Mark => if m.id = id then ⟨m.id, m.neighbor, b, none⟩ else m) = Mark.id := by
      funext m
      show Mark.id (if m.id = id then _ else m) = m.id
      split
      · rfl
      · rfl
    rw [hids]
    exact h.nodup
  · obtain ⟨m, hm, hid, -⟩ := hcases m' hm'
    rw [hid]
    exact h.idFresh m hm
  · obtain ⟨m, hm, -, hnbr, -⟩ := hcases m' hm'
    rw [hnbr]
    exact h.nbrFresh m hm

/-- After a change of the link `l`, a neighbour has a symmetric link if it has another one, or has this one and it is
symmetric now. -/
theorem MarksWf.hasSym_updateLink (h : MarksWf s) {l : LinkEntry} (hl : l ∈ s.links)
    {f : LinkEntry → LinkEntry} {b : Bool}
    (hf : ∀ l' ∈ s.links, l'.id = l.id → (f l').mark = ⟨l'.id, l'.neighbor, b, none⟩) (p : Ptr) :
    HasSym (marks (s.updateLink l.id f)) p ↔ OtherSym s (some l.id) (some p) ∨ (l.neighbor = p ∧ b = true) := by
  rw [marks_updateLink l.id hf]
  constructor
  · rintro ⟨m', hm', hp, hsym⟩
    obtain ⟨m, hm, rfl⟩ := List.mem_map.1 hm'
    obtain ⟨l', hl', rfl⟩ := List.mem_map.1 hm
    by_cases hid : l'.id = l.id
    · obtain rfl := h.id_inj hl' hl hid
      rw [if_pos (show l'.mark.id = l'.id from rfl)] at hp hsym
      exact .inr ⟨hp, hsym⟩
    · rw [if_neg (show ¬ l'.mark.id = l.id from hid)] at hp hsym
      exact .inl ⟨l', hl', fun heq => hid (Option.some.inj heq), congrArg some hp, hsym⟩
  · rintro (⟨l', hl', hid, hp, hsym⟩ | ⟨hp, hb⟩)
    · refine ⟨l'.mark, List.mem_map.2 ⟨l'.mark, mem_marks hl', ?_⟩, Option.some.inj hp, hsym⟩
      exact if_neg fun heq => hid (congrArg some heq)
    · exact ⟨⟨l.id, l.neighbor, b, none⟩, List.mem_map.2 ⟨l.mark, mem_marks hl, if_pos rfl⟩, hp, hb⟩

/-- For other neighbours nothing changes. -/
theorem MarksWf.hasSym_other (h : MarksWf s) {l : LinkEntry} (hl : l ∈ s.links) {p : Ptr} (hp : l.neighbor ≠ p) :
    OtherSym s (some l.id) (some p) ↔ HasSym (marks s) p := by
  rw [hasSym_iff]
  constructor
  · rintro ⟨l', hl', -, hp', hsym⟩
    exact ⟨l', hl', Option.some.inj hp', hsym⟩
  · rintro ⟨l', hl', hp', hsym⟩
    refine ⟨l', hl', fun hid => hp ?_, congrArg some hp', hsym⟩
    rw [← hp', h.id_inj hl' hl (Option.some.inj hid)]

theorem MarksWf.foundSym_updateLink (h : MarksWf s) {l : LinkEntry} (hl : l ∈ s.links)
    {f : LinkEntry → LinkEntry} {b : Bool}
    (hf : ∀ l' ∈ s.links, l'.id = l.id → (f l').mark = ⟨l'.id, l'.neighbor, b, none⟩)
    (hplace : ∀ l', (f l').place = l'.place) (a : IpAddr) :
    (∃ l', Found env (s.updateLink l.id f) a l' ∧ l'.linkSymTimer.isSome = true) ↔
      OtherFound env s a (some l.id) ∨ (Found env s a l ∧ b = true) := by
  constructor
  · rintro ⟨l', hfound, hsym⟩
    obtain ⟨l₁, hl₁, rfl⟩ := (found_updateLink l.id hplace).1 hfound
    by_cases hid : l₁.id = l.id
    · obtain rfl := h.id_inj hl₁.mem hl hid
      rw [if_pos rfl] at hsym
      exact .inr ⟨hl₁, (congrArg Mark.sym (hf l₁ hl rfl)).symm.trans hsym⟩
    · rw [if_neg hid] at hsym
      exact .inl ⟨l₁, hl₁, fun heq => hid (Option.some.inj heq), hsym⟩
  · rintro (⟨l₁, hl₁, hid, hsym⟩ | ⟨hfound, hb⟩)
    · refine ⟨l₁, (found_updateLink l.id hplace).2 ⟨l₁, hl₁, ?_⟩, hsym⟩
      rw [if_neg fun heq => hid (congrArg some heq)]
    · refine ⟨f l, (found_updateLink l.id hplace).2 ⟨l, hfound, (if_pos rfl).symm⟩, ?_⟩
      exact (congrArg Mark.sym (hf l hl rfl)).trans hb

/-- A neighbour whose status is made anew, while the others keep theirs. -/
theorem MarksWf.recompute (h : MarksWf s) {p : Ptr} {a : IpAddr}
    (hothers : ∀ q b, q ≠ p → symOf s q = some b → (b = true ↔ HasSym (marks s) q))
    (hself : (∃ l, Found env s a l ∧ l.linkSymTimer.isSome = true) ↔ HasSym (marks s) p)
    (hs : updateNeighborStatus env s p (getNeighborStatus env s a) = some s') : Summarised s' := by
  obtain ⟨s₁, e, e₁, h₁, -, he₁, rfl⟩ := updateNeighborStatus_cases hs
  have hsame := h₁.sameStatus
  have hstatus : getNeighborStatus env s a = .sym ↔ HasSym (marks s) p := by
    rw [getNeighborStatus_iff, ← hself]
    exact exists_congr fun l => and_congr_right fun hl => h.lookupLinkStatus hl.mem
  refine ⟨h.same hsame.marks hsame.fresh, fun q b hq => ?_⟩
  show b = true ↔ HasSym (marks s₁) q
  rw [hsame.marks]
  by_cases hqp : q = p
  · subst hqp
    have hb : b = decide (getNeighborStatus env s a = .sym) := by
      simpa [symOf, Nbh.setNbr] using hq.symm
    rw [hb, decide_eq_true_iff]
    exact hstatus
  · refine hothers q b hqp ?_
    rw [← hsame.syms]
    simpa [symOf, Nbh.setNbr, hqp] using hq

/-! ## HELLO messages -/

/-- The link of a HELLO message is symmetric afterwards; `o` is the link before, if there is one. -/
def symAfter (h : HelloInput) (o : Option LinkEntry) : Bool :=
  match checkLinkStatus h.inIf .unspec h.message.neighbors with
  | .lost => false
  | .sym | .asym => h.message.vtime != 0
  | _ => o.any fun l => l.linkSymTimer.isSome

theorem place_sensedLink (now random : Nat) (message : HelloMessage) (ifc : Interface) (hyst : Option LinkStatus)
    (l : LinkEntry) : (sensedLink now random message ifc hyst l).place = l.place := by
  unfold sensedLink
  dsimp only
  cases checkLinkStatus ifc .unspec message.neighbors <;> (dsimp only; split <;> [split; skip]) <;> rfl

theorem isSome_olsrSetTimer {now random : Nat} {timer : Option Timer} {relTime jitterPct : Nat} :
    (olsrSetTimer now random timer relTime jitterPct).isSome = (relTime != 0) := by
  rw [Bool.eq_iff_iff, Option.isSome_iff_ne_none, bne_iff_ne, Ne, olsrSetTimer_eq_none_iff]

theorem mark_sensedLink (now random : Nat) (h : HelloInput) (hh : h.hyst = none) (l : LinkEntry) :
    (sensedLink now random h.message h.inIf h.hyst l).mark = ⟨l.id, l.neighbor, symAfter h (some l), none⟩ := by
  unfold sensedLink symAfter
  rw [hh]
  dsimp only
  cases checkLinkStatus h.inIf .unspec h.message.neighbors <;> (dsimp only; split <;> [split; skip]) <;>
    simp [LinkEntry.mark, olsrSetLinkTimer, isSome_olsrSetTimer]

/-- The neighbour entry that a HELLO message is about, if there is one. -/
def helloNeighbor (s : Nbh) (h : HelloInput) : Option Ptr :=
  match findLink s h.fromAddr h.inIf with
  | some l => some l.neighbor
  | none => (olsrLookupNeighborTable s h.message.sourceAddr).or (olsrLookupNeighborTableAlias s h.message.sourceAddr)

/-- The status that a HELLO message leads to is that of the links of its neighbour: its link is symmetric and found
under the sender's addresses, or it is not and the others are symmetric and found together. -/
def HelloSummary (env : Env) (s : Nbh) (h : HelloInput) : Prop :=
  let id := (findLink s h.fromAddr h.inIf).map LinkEntry.id
  h.hyst = none ∧
    (symAfter h (findLink s h.fromAddr h.inIf) = true →
      (h.inIf ∈ env.ifnet ∧ h.fromAddr ∈ family s.mid h.fromAddr) ∨ OtherFound env s h.fromAddr id) ∧
    (symAfter h (findLink s h.fromAddr h.inIf) = false →
      (OtherSym s id (helloNeighbor s h) ↔ OtherFound env s h.fromAddr id))

/-- The link of a HELLO message among the others: `s₁` is the state with the link. -/
theorem Summarised.sense {s₁ : Nbh} {h : HelloInput} {l : LinkEntry} {b : Bool} (hw : MarksWf s₁)
    (hothers : ∀ q c, q ≠ l.neighbor → symOf s₁ q = some c → (c = true ↔ OtherSym s₁ (some l.id) (some q)))
    (hl : l ∈ s₁.links) (hh : h.hyst = none) (hb : symAfter h (some l) = b)
    (htrue : b = true → Found env s₁ h.fromAddr l ∨ OtherFound env s₁ h.fromAddr (some l.id))
    (hfalse : b = false → (OtherSym s₁ (some l.id) (some l.neighbor) ↔ OtherFound env s₁ h.fromAddr (some l.id)))
    (hs : updateNeighborStatus env (s₁.updateLink l.id (sensedLink s₁.now (h.random 0) h.message h.inIf h.hyst))
      l.neighbor
      (getNeighborStatus env (s₁.updateLink l.id (sensedLink s₁.now (h.random 0) h.message h.inIf h.hyst)) h.fromAddr) =
        some s') : Summarised s' := by
  have hf : ∀ l' ∈ s₁.links, l'.id = l.id →
      (sensedLink s₁.now (h.random 0) h.message h.inIf h.hyst l').mark = ⟨l'.id, l'.neighbor, b, none⟩ := by
    intro l' hl' hid
    rw [mark_sensedLink _ _ h hh, hw.id_inj hl' hl hid, hb]
  refine (hw.updateLink l.id hf).recompute (fun q c hq hc => ?_) ?_ hs
  · rw [hw.hasSym_updateLink hl hf, hothers q c hq hc]
    exact ⟨.inl, fun hor => hor.resolve_right fun hnbr => hq hnbr.1.symm⟩
  · rw [hw.foundSym_updateLink hl hf (place_sensedLink _ _ _ _ _), hw.hasSym_updateLink hl hf]
    cases hcase : b with
    | true =>
      refine iff_of_true ?_ (.inr ⟨rfl, rfl⟩)
      rcases htrue hcase with hfound | hother
      · exact .inr ⟨hfound, rfl⟩
      · exact .inl hother
    | false => simp [hfalse hcase]

/-- The sender of a HELLO message over a link that is known. -/
theorem Summarised.senseKnown (hsum : Summarised s) {s₁ : Nbh} {h : HelloInput} {l : LinkEntry}
    (hok : HelloSummary env s h) (hfind : findLink s h.fromAddr h.inIf = some l) (hsame : SameStatus s s₁)
    (hlinks : s₁.links = s.links) (hmid : s₁.mid = s.mid)
    (hs : updateNeighborStatus env (s₁.updateLink l.id (sensedLink s₁.now (h.random 0) h.message h.inIf h.hyst))
      l.neighbor
      (getNeighborStatus env (s₁.updateLink l.id (sensedLink s₁.now (h.random 0) h.message h.inIf h.hyst)) h.fromAddr) =
        some s') : Summarised s' := by
  obtain ⟨hh, htrue, hfalse⟩ := hok
  have hl : l ∈ s.links := List.mem_of_find?_eq_some hfind
  have hneighbor : helloNeighbor s h = some l.neighbor := by unfold helloNeighbor; rw [hfind]
  rw [hfind] at htrue hfalse
  rw [hneighbor] at hfalse
  have hfound : ∀ l', Found env s₁ h.fromAddr l' ↔ Found env s h.fromAddr l' := by
    intro l'
    unfold Found findLink
    rw [hlinks, hmid]
  have hother : OtherFound env s₁ h.fromAddr (some l.id) ↔ OtherFound env s h.fromAddr (some l.id) :=
    exists_congr fun l' => and_congr_left fun _ => hfound l'
  have hsym : ∀ q, OtherSym s₁ (some l.id) (some q) ↔ OtherSym s (some l.id) (some q) := by
    intro q
    unfold OtherSym
    rw [hlinks]
  refine Summarised.sense (hsum.toMarksWf.same hsame.marks hsame.fresh) (fun q c hq hc => ?_) (hlinks ▸ hl) hh rfl
    (fun hb => ?_) (fun hb => ?_) hs
  · rw [hsame.syms] at hc
    rw [hsym, hsum.hasSym_other hl hq.symm]
    exact hsum.agrees q c hc
  · rw [hfound, hother]
    refine (htrue hb).imp_left fun hin => ?_
    exact ⟨h.inIf, hin.1, h.fromAddr, hin.2, hfind⟩
  · rw [hother, hsym]
    exact hfalse hb

theorem neighborFor_helloNeighbor {h : HelloInput} (hnone : findLink s h.fromAddr h.inIf = none) :
    (∃ p, helloNeighbor s h = some p ∧ neighborFor s.allocated h.message.sourceAddr = (s.allocated, p)) ∨
      (helloNeighbor s h = none ∧
        neighborFor s.allocated h.message.sourceAddr =
        (inserted s.allocated h.message.sourceAddr, s.allocated.fresh)) := by
  unfold helloNeighbor neighborFor
  rw [hnone]
  dsimp only
  have htable : ∀ a, olsrLookupNeighborTable s.allocated a = olsrLookupNeighborTable s a := fun _ => rfl
  rw [htable]
  cases hp : olsrLookupNeighborTable s h.message.sourceAddr with
  | some p => exact .inl ⟨p, rfl, rfl⟩
  | none =>
    rcases insertNeighborTable_cases s.allocated h.message.sourceAddr with ⟨p, hp', heq⟩ | ⟨hp', heq⟩
    · exact .inl ⟨p, hp', heq⟩
    · exact .inr ⟨hp', heq⟩

/-! ### One more link -/

/-- A new link, which is not symmetric yet. -/
theorem MarksWf.append (hw : MarksWf s) {s₁ : Nbh} {p : Ptr}
    (hmarks : marks s₁ = marks s ++ [⟨s.fresh, p, false, none⟩]) (hfresh : s.fresh < s₁.fresh) (hp : p < s₁.fresh) :
    MarksWf s₁ := by
  refine ⟨?_, ?_, ?_, ?_⟩
  · rw [hmarks]
    intro m hm
    rcases List.mem_append.1 hm with hm | hm
    · exact hw.plain m hm
    · rw [List.mem_singleton.1 hm]
  · rw [hmarks, List.map_append, List.nodup_append]
    refine ⟨hw.nodup, List.nodup_singleton _, ?_⟩
    rintro a ha b hb rfl
    obtain ⟨m, hm, rfl⟩ := List.mem_map.1 ha
    have hlt := hw.idFresh m hm
    rw [List.mem_singleton.1 hb] at hlt
    exact lt_irrefl _ hlt
  · rw [hmarks]
    intro m hm
    rcases List.mem_append.1 hm with hm | hm
    · exact (hw.idFresh m hm).trans hfresh
    · rw [List.mem_singleton.1 hm]; exact hfresh
  · rw [hmarks]
    intro m hm
    rcases List.mem_append.1 hm with hm | hm
    · exact (hw.nbrFresh m hm).trans hfresh
    · rw [List.mem_singleton.1 hm]; exact hp

section

variable {s₁ : Nbh} {l : LinkEntry}

theorem findLink_append (hlinks : s₁.links = s.links ++ [l]) (x : IpAddr) (ifc : Interface) :
    findLink s₁ x ifc = (findLink s x ifc).or
      ([l].find? fun l => l.neighborIfaceAddr == x && l.onInterface ifc) := by
  unfold findLink
  rw [hlinks, List.find?_append]

theorem otherSym_append (hlinks : s₁.links = s.links ++ [l]) (hold : ∀ l' ∈ s.links, some l'.id ≠ some l.id)
    (q : Ptr) : OtherSym s₁ (some l.id) (some q) ↔ HasSym (marks s) q := by
  rw [hasSym_iff]
  constructor
  · rintro ⟨l', hl', hne, hq, htimer⟩
    rw [hlinks, List.mem_append, List.mem_singleton] at hl'
    rcases hl' with hl' | rfl
    · exact ⟨l', hl', Option.some.inj hq, htimer⟩
    · exact absurd rfl hne
  · rintro ⟨l', hl', hq, htimer⟩
    exact ⟨l', by rw [hlinks]; exact List.mem_append_left _ hl', hold l' hl', congrArg some hq, htimer⟩

/-- A new link hides none that are found already. -/
theorem otherFound_append {a : IpAddr} (hlinks : s₁.links = s.links ++ [l]) (hmid : s₁.mid = s.mid)
    (hold : ∀ l' ∈ s.links, some l'.id ≠ some l.id) :
    OtherFound env s₁ a (some l.id) ↔ OtherFound env s a none := by
  constructor
  · rintro ⟨l', ⟨ifc, hifc, x, hx, hl'⟩, hne, htimer⟩
    rw [hmid] at hx
    rw [findLink_append hlinks] at hl'
    cases hcase : findLink s x ifc with
    | some l'' =>
      rw [hcase, Option.some_or] at hl'
      obtain rfl := Option.some.inj hl'
      exact ⟨l'', ⟨ifc, hifc, x, hx, hcase⟩, by simp, htimer⟩
    | none =>
      rw [hcase, Option.none_or] at hl'
      have hmem := List.mem_of_find?_eq_some hl'
      rw [List.mem_singleton.1 hmem] at hne
      exact absurd rfl hne
  · rintro ⟨l', ⟨ifc, hifc, x, hx, hl'⟩, -, htimer⟩
    have hmem := List.mem_of_find?_eq_some hl'
    exact ⟨l', ⟨ifc, hifc, x, hmid ▸ hx, by rw [findLink_append hlinks, hl', Option.some_or]⟩, hold l' hmem, htimer⟩

end

/-- The link of a new neighbour, or a new link of one that is known. -/
theorem Summarised.senseNew (hsum : Summarised s) {s₁ : Nbh} {h : HelloInput} {l : LinkEntry} {p : Ptr}
    (hok : HelloSummary env s h) (hnone : findLink s h.fromAddr h.inIf = none)
    (hl : l = newLinkEntry s.fresh s.now (h.random 0) h.inIf.ipAddr h.fromAddr h.inIf p h.message.vtime)
    (hlinks : s₁.links = s.links ++ [l]) (hmid : s₁.mid = s.mid) (hfresh : s.fresh < s₁.fresh) (hp : p < s₁.fresh)
    (hneighbor : helloNeighbor s h = some p ∨ (helloNeighbor s h = none ∧ s.fresh ≤ p))
    (hsyms : ∀ q, q ≠ p → symOf s₁ q = symOf s q)
    (hs : updateNeighborStatus env (s₁.updateLink l.id (sensedLink s₁.now (h.random 0) h.message h.inIf h.hyst))
      l.neighbor
      (getNeighborStatus env (s₁.updateLink l.id (sensedLink s₁.now (h.random 0) h.message h.inIf h.hyst)) h.fromAddr) =
        some s') : Summarised s' := by
  obtain ⟨hh, htrue, hfalse⟩ := hok
  rw [hnone, Option.map_none] at htrue hfalse
  have hid : l.id = s.fresh := by rw [hl]; rfl
  have hnbr : l.neighbor = p := by rw [hl]; rfl
  have hmark : l.mark = ⟨s.fresh, p, false, none⟩ := by rw [hl]; rfl
  have hold : ∀ l' ∈ s.links, some l'.id ≠ some l.id := by
    intro l' hl' heq
    have hlt := hsum.idFresh _ (mem_marks hl')
    rw [← hid, ← Option.some.inj heq] at hlt
    exact lt_irrefl _ hlt
  have hmarks : marks s₁ = marks s ++ [⟨s.fresh, p, false, none⟩] := by
    unfold marks
    rw [hlinks, List.map_append, List.map_singleton, hmark]
  have hsym := otherSym_append hlinks hold
  have hother := @otherFound_append env s s₁ l h.fromAddr hlinks hmid hold
  have hlast : l ∈ s₁.links := by rw [hlinks]; exact List.mem_append_right _ (List.mem_singleton.2 rfl)
  have hafter : symAfter h (some l) = symAfter h none := by
    unfold symAfter
    rw [hl]
    cases checkLinkStatus h.inIf .unspec h.message.neighbors <;> rfl
  refine Summarised.sense (hsum.toMarksWf.append hmarks hfresh hp) (fun q c hq hc => ?_) hlast hh hafter
    (fun hb => ?_) (fun hb => ?_) hs
  · rw [hnbr] at hq
    rw [hsyms q hq] at hc
    rw [hsym]
    exact hsum.agrees q c hc
  · rw [hother]
    refine (htrue hb).imp_left fun hin => ?_
    refine ⟨h.inIf, hin.1, h.fromAddr, hmid ▸ hin.2, ?_⟩
    rw [findLink_append hlinks, hnone, Option.none_or, hl]
    unfold newLinkEntry olsrSetLinkTimer LinkEntry.onInterface
    cases hname : h.inIf.intName with
    | none => simp
    | some name => simp
  · rw [hother, ← hfalse hb, hnbr, hsym, hasSym_iff]
    rcases hneighbor with heq | ⟨heq, hge⟩
    · rw [heq]
      constructor
      · rintro ⟨l', hl', hq, htimer⟩
        exact ⟨l', hl', by simp, congrArg some hq, htimer⟩
      · rintro ⟨l', hl', -, hq, htimer⟩
        exact ⟨l', hl', Option.some.inj hq, htimer⟩
    · rw [heq]
      refine iff_of_false ?_ ?_
      · rintro ⟨l', hl', rfl, -⟩
        exact absurd hge (Nat.not_le_of_lt (hsum.nbrFresh _ (mem_marks hl')))
      · rintro ⟨l', -, -, hq, -⟩
        cases hq

theorem Summarised.helloLink (hsum : Summarised s) (hw : TableWf s) {h : HelloInput} {x : Nbh × Ptr}
    (hok : HelloSummary env s h) (hs : helloLink env s h = some x) : Summarised x.1 := by
  obtain ⟨s₁, l, h₁, h₂, -⟩ := helloLink_cases hs
  rcases addLinkEntry_cases h₁ with hl | ⟨hnone, s₀, p, e, heq, he, rfl, rfl⟩
  · obtain ⟨hfind, ⟨rfl, -⟩ | ⟨l', e, hl', he, -, rfl⟩⟩ := lookupLinkEntry_cases hl
    · exact hsum.senseKnown hok hfind.symm (.of_eq rfl rfl (le_refl _)) rfl rfl h₂
    · have hset : SameStatus s (s.setNbr l'.neighbor { e with mainAddr := h.message.sourceAddr }) := .setNbr he rfl
      have hsame : SameStatus s (rekeyed s l'.neighbor e h.message.sourceAddr) :=
        hset.trans (.of_eq rfl rfl (le_refl _))
      exact hsum.senseKnown hok hfind.symm hsame rfl rfl h₂
  · rcases neighborFor_helloNeighbor hnone with ⟨q, hq, heq'⟩ | ⟨hq, heq'⟩
    · obtain ⟨rfl, rfl⟩ := Prod.mk.inj (heq'.symm.trans heq)
      have hlt : q < s.fresh := by
        refine Nat.lt_of_not_le fun hle => ?_
        have hkey := hw.fresh q hle
        rw [keyOf_eq (s := s) he] at hkey
        cases hkey
      refine hsum.senseNew hok hnone rfl (by rfl) (by rfl) ?_ ?_ (.inl hq) (fun r hr => ?_) h₂
      · exact Nat.lt_succ_self _
      · exact hlt.trans (Nat.lt_succ_self _)
      · simp [symOf, Nbh.setNbr, hr, Nbh.allocated]
    · obtain ⟨rfl, rfl⟩ := Prod.mk.inj (heq'.symm.trans heq)
      refine hsum.senseNew hok hnone rfl (by rfl) (by rfl) ?_ ?_ (.inr ⟨hq, Nat.le_succ _⟩) (fun r hr => ?_) h₂
      · exact Nat.lt_succ_of_lt (Nat.lt_succ_self _)
      · exact Nat.lt_succ_self _
      · simp [symOf, Nbh.setNbr, inserted, hr, Nbh.allocated]

/-! ## Timers and deletions -/

/-- When the timer of a link goes off, the neighbour is looked at again and its other links are symmetric and found
together, or another link of it is symmetric. -/
def ExpirySummary (env : Env) (s : Nbh) (l : LinkEntry) : Prop :=
  (l.prevStatus = .sym →
    (OtherSym s (some l.id) (some l.neighbor) ↔ OtherFound env s l.neighborIfaceAddr (some l.id))) ∧
  (l.prevStatus ≠ .sym → (s.nbr l.neighbor).isSome → OtherSym s (some l.id) (some l.neighbor))

/-- A symmetric link goes with its neighbour, or leaves it another symmetric link. -/
def DeletionSummary (s : Nbh) (l : LinkEntry) : Prop :=
  l.linkSymTimer.isSome = true →
    (∃ e, s.nbr l.neighbor = some e ∧ e.linkcount = 1 ∧ olsrLookupNeighborTableAlias s e.mainAddr = some l.neighbor) ∨
      OtherSym s (some l.id) (some l.neighbor)

theorem updateLink_updateLink (s : Nbh) (id : Ptr) {f g : LinkEntry → LinkEntry} (hf : ∀ l, (f l).id = l.id) :
    (s.updateLink id f).updateLink id g = s.updateLink id fun l => g (f l) := by
  unfold Nbh.updateLink
  rw [List.map_map]
  congr 1
  refine List.map_congr_left fun l _ => ?_
  show (if (if l.id = id then f l else l).id = id then g (if l.id = id then f l else l) else
    (if l.id = id then f l else l)) = _
  by_cases hid : l.id = id
  · simp [hid, hf]
  · simp [hid]

/-- What the expiry of a timer makes of its link. -/
def Cleared (f : LinkEntry → LinkEntry) : Prop :=
  ∀ l, (f l).place = l.place ∧ (f l).linkSymTimer = none ∧ (f l).hysteresis = l.hysteresis

theorem Cleared.mark {f : LinkEntry → LinkEntry} (hf : Cleared f) (h : MarksWf s) (id : Ptr) :
    ∀ l ∈ s.links, l.id = id → (f l).mark = ⟨l.id, l.neighbor, false, none⟩ := by
  intro l hl _
  obtain ⟨hplace, htimer, hhyst⟩ := hf l
  unfold LinkEntry.place at hplace
  simp only [Prod.mk.injEq] at hplace
  have hplain : l.hysteresis = none := h.plain _ (mem_marks hl)
  unfold LinkEntry.mark
  rw [hplace.1, hplace.2.1, htimer, hhyst, hplain]
  rfl

theorem Summarised.expireLinkSym (hsum : Summarised s) {l : LinkEntry} (hl : l ∈ s.links)
    (htimer : l.linkSymTimer.isSome = true) (hok : ExpirySummary env s l)
    (hs : olsrExpireLinkSymTimer env s l = some s') : Summarised s' := by
  have hw := hsum.toMarksWf
  rcases expireLinkSym_cases hs with ⟨hprev, rfl⟩ | ⟨hprev, s₁, s₂, rfl, h₂, rfl⟩
  · have hcleared : Cleared fun l => { l with linkSymTimer := none } := fun _ => ⟨rfl, rfl, rfl⟩
    have hf := hcleared.mark hw l.id
    refine ⟨hw.updateLink l.id hf, fun p b hb => ?_⟩
    rw [hw.hasSym_updateLink hl hf]
    change symOf s p = some b at hb
    by_cases hp : l.neighbor = p
    · subst hp
      have hsome : (s.nbr l.neighbor).isSome := by
        obtain ⟨e, he, -⟩ := Option.map_eq_some_iff.1 hb
        rw [he]; rfl
      refine iff_of_true ((hsum.agrees _ b hb).2 (hasSym_iff.2 ⟨l, hl, rfl, htimer⟩)) (.inl (hok.2 hprev hsome))
    · rw [hsum.agrees p b hb, ← hw.hasSym_other hl hp]
      simp
  · rw [updateLink_updateLink s l.id (by intro; rfl)] at h₂
    have hcleared : Cleared fun l' => { ({ l' with linkSymTimer := none } : LinkEntry) with
      prevStatus := lookupLinkStatus (s.updateLink l.id fun l => { l with linkSymTimer := none })
        { l' with linkSymTimer := none } } := fun _ => ⟨rfl, rfl, rfl⟩
    have hf := hcleared.mark hw l.id
    have hrecomputed : Summarised s₂ := by
      refine (hw.updateLink l.id hf).recompute (fun q c hq hc => ?_) ?_ h₂
      · rw [hw.hasSym_updateLink hl hf, hsum.agrees q c hc, ← hw.hasSym_other hl hq.symm]
        simp
      · rw [hw.foundSym_updateLink hl hf fun l' => (hcleared l').1, hw.hasSym_updateLink hl hf, hok.1 hprev]
        simp
    exact hrecomputed.same (.of_eq rfl rfl (le_refl _))

/-- A link goes, and perhaps an entry. -/
theorem Summarised.dropLink (hsum : Summarised s) {s₁ : Nbh} {l : LinkEntry} {b : Bool} (hl : l ∈ s.links)
    (hlinks : s₁.links = s.links) (hfresh : s.fresh ≤ s₁.fresh)
    (hsyms : ∀ q c, symOf s₁ q = some c → symOf s q = some c)
    (hself : l.linkSymTimer.isSome = true → symOf s₁ l.neighbor ≠ none → OtherSym s (some l.id) (some l.neighbor)) :
    Summarised { s₁ with links := s₁.links.filter (fun l' => l'.id != l.id), changesNeighborhood := b } := by
  have hmem : ∀ l', l' ∈ s₁.links.filter (fun l' => l'.id != l.id) ↔ l' ∈ s.links ∧ l'.id ≠ l.id := by
    intro l'
    rw [hlinks, List.mem_filter, bne_iff_ne]
  have hmarks : ∀ m ∈ marks { s₁ with links := s₁.links.filter (fun l' => l'.id != l.id), changesNeighborhood := b },
      m ∈ marks s := by
    intro m hm
    obtain ⟨l', hl', rfl⟩ := List.mem_map.1 hm
    exact mem_marks ((hmem l').1 hl').1
  refine ⟨⟨fun m hm => hsum.plain m (hmarks m hm), ?_, fun m hm => (hsum.idFresh m (hmarks m hm)).trans_le hfresh,
    fun m hm => (hsum.nbrFresh m (hmarks m hm)).trans_le hfresh⟩, fun p c hc => ?_⟩
  · unfold marks
    rw [hlinks]
    exact hsum.nodup.sublist ((List.filter_sublist.map _).map _)
  · have hc' := hsyms p c hc
    have hleft :
        HasSym (marks { s₁ with links := s₁.links.filter (fun l' => l'.id != l.id), changesNeighborhood := b }) p ↔
          OtherSym s (some l.id) (some p) := by
      rw [hasSym_iff]
      constructor
      · rintro ⟨l', hl', hp, htimer⟩
        obtain ⟨hl', hne⟩ := (hmem l').1 hl'
        exact ⟨l', hl', fun heq => hne (Option.some.inj heq), congrArg some hp, htimer⟩
      · rintro ⟨l', hl', hne, hp, htimer⟩
        exact ⟨l', (hmem l').2 ⟨hl', fun heq => hne (congrArg some heq)⟩, Option.some.inj hp, htimer⟩
    rw [hleft, hsum.agrees p c hc']
    by_cases hp : l.neighbor = p
    · subst hp
      constructor
      · intro hhas
        obtain ⟨l', hl', hp', htimer⟩ := hasSym_iff.1 hhas
        by_cases hid : l'.id = l.id
        · obtain rfl := hsum.id_inj hl' hl hid
          refine hself htimer ?_
          rw [show symOf s₁ l'.neighbor = some c from hc]
          simp
        · exact ⟨l', hl', fun heq => hid (Option.some.inj heq), congrArg some hp', htimer⟩
      · rintro ⟨l', hl', -, hp', htimer⟩
        exact hasSym_iff.2 ⟨l', hl', Option.some.inj hp', htimer⟩
    · exact (hsum.toMarksWf.hasSym_other hl hp).symm

theorem symOf_freeNbr (s : Nbh) (p q : Ptr) : symOf (s.freeNbr p) q = if q = p then none else symOf s q := by
  unfold symOf Nbh.freeNbr
  by_cases hq : q = p
  · subst hq; simp
  · simp [hq]

theorem Summarised.deleteLinkEntry (hsum : Summarised s) {l : LinkEntry} (hl : l ∈ s.links) (hok : DeletionSummary s l)
    (hs : olsrDeleteLinkEntry s l = some s') : Summarised s' := by
  obtain ⟨e, s₁, he, rfl, ⟨hone, h₁⟩ | ⟨hne, rfl⟩⟩ := deleteLinkEntry_cases hs
  · rcases deleteNeighborTable_cases h₁ with ⟨hno, rfl⟩ | ⟨p, s₂, hp, h₂, rfl⟩
    · refine hsum.dropLink hl rfl (le_refl _) (fun _ _ hc => hc) fun htimer _ => ?_
      rcases hok htimer with ⟨e', he', -, hlookup⟩ | hother
      · obtain rfl := Option.some.inj (he.symm.trans he')
        rw [hno] at hlookup; cases hlookup
      · exact hother
    · have hsyms : ∀ q, symOf { s₂.freeNbr p with changesNeighborhood := true } q = if q = p then none
        else symOf s q := by
        intro q
        rw [← h₂.sameStatus.syms q]
        exact symOf_freeNbr s₂ p q
      refine hsum.dropLink hl h₂.links h₂.fresh (fun q c hc => ?_) fun htimer hlive => ?_
      · rw [hsyms] at hc
        split at hc
        · cases hc
        · exact hc
      · rcases hok htimer with ⟨e', he', -, hlookup⟩ | hother
        · obtain rfl := Option.some.inj (he.symm.trans he')
          obtain rfl := Option.some.inj (hp.symm.trans hlookup)
          rw [hsyms, if_pos rfl] at hlive
          exact absurd rfl hlive
        · exact hother
  · have hset : SameStatus s (s.setNbr l.neighbor { e with linkcount := e.linkcount - 1 }) := .setNbr he rfl
    refine hsum.dropLink hl rfl (le_refl _) (fun q c hc => hset.syms q ▸ hc) fun htimer _ => ?_
    rcases hok htimer with ⟨e', he', hone, -⟩ | hother
    · obtain rfl := Option.some.inj (he.symm.trans he')
      exact absurd hone hne
    · exact hother

/-! ## Runs -/

/-- Events after which the status of neighbours is that of their links, without hysteresis. Aliases keep entries
apart. -/
def StatusKept (env : Env) (s : Nbh) : Event → Prop
  | .helloLink h => HelloSummary env s h
  | .expireLinkSym l => ExpirySummary env s l
  | .deleteLink l => DeletionSummary s l
  | .insertMidAlias _ m a _ => KeepsApart env s m a
  | .expireLinkHello _ _ => False
  | _ => True

theorem otherFound_iff (env : Env) (s : Nbh) (a : IpAddr) (id : Option Ptr) :
    (∃ ifc ∈ env.ifnet, ∃ x ∈ family s.mid a, ∃ l ∈ findLink s x ifc, some l.id ≠ id ∧ l.linkSymTimer.isSome = true) ↔
      OtherFound env s a id := by
  constructor
  · rintro ⟨ifc, hifc, x, hx, l, hl, h⟩
    exact ⟨l, ⟨ifc, hifc, x, hx, hl⟩, h⟩
  · rintro ⟨l, ⟨ifc, hifc, x, hx, hl⟩, h⟩
    exact ⟨ifc, hifc, x, hx, l, hl, h⟩

instance decidableOtherFound (env : Env) (s : Nbh) (a : IpAddr) (id : Option Ptr) : Decidable (OtherFound env s a id) :=
  decidable_of_iff _ (otherFound_iff env s a id)

instance decidableOtherSym (s : Nbh) (id p : Option Ptr) : Decidable (OtherSym s id p) :=
  inferInstanceAs (Decidable (∃ l ∈ s.links, _ ∧ _ ∧ _))

instance decidableStatusKept (env : Env) (s : Nbh) : ∀ ev : Event, Decidable (StatusKept env s ev)
  | .helloLink _ => inferInstanceAs (Decidable (_ ∧ (_ → _ ∨ _) ∧ (_ → (_ ↔ _))))
  | .expireLinkSym _ => inferInstanceAs (Decidable ((_ → (_ ↔ _)) ∧ (_ → _ → _)))
  | .deleteLink l => inferInstanceAs (Decidable (_ → (∃ e ∈ s.nbr l.neighbor, _ ∧ _) ∨ _))
  | .insertMidAlias _ m a _ => decidableKeepsApart env s m a
  | .expireLinkHello .. => .isFalse id
  | .tick _ | .lookupLink .. | .setLinkcost .. | .setWillingness .. | .processMessageNeighbors .. | .expireNbr2List _
  | .insertNeighbor _ | .deleteNeighbor _ | .deleteTwoHop _ | .changeMid _ => .isTrue trivial

theorem summarised_emptyNbh : Summarised emptyNbh where
  plain := by simp [marks, emptyNbh]
  nodup := by simp [marks, emptyNbh]
  idFresh := by simp [marks, emptyNbh]
  nbrFresh := by simp [marks, emptyNbh]
  agrees := by simp [symOf, emptyNbh]

theorem Summarised.insertNeighbor (hsum : Summarised s) (a : IpAddr) : Summarised (olsrInsertNeighborTable s a).1 := by
  rcases insertNeighborTable_cases s a with ⟨p, -, heq⟩ | ⟨-, heq⟩
  · rw [heq]; exact hsum
  · rw [heq]
    refine ⟨hsum.toMarksWf.same rfl (Nat.le_succ _), fun p b hb => ?_⟩
    show b = true ↔ HasSym (marks s) p
    by_cases hp : p = s.fresh
    · subst hp
      have hb' : b = false := by simpa [symOf, inserted, newNeighborEntry] using hb.symm
      refine iff_of_false (by simp [hb']) ?_
      rintro ⟨m, hm, hm', -⟩
      exact absurd hm' (Nat.ne_of_lt (hsum.nbrFresh m hm))
    · exact hsum.agrees p b (by simpa [symOf, inserted, hp] using hb)

theorem Summarised.deleteNeighbor (hsum : Summarised s) {a : IpAddr} (hs : olsrDeleteNeighborTable s a = some s') :
    Summarised s' := by
  rcases deleteNeighborTable_cases hs with ⟨-, rfl⟩ | ⟨p, s₁, -, h₁, rfl⟩
  · exact hsum
  · have hsum₁ := hsum.same h₁.sameStatus
    refine ⟨hsum₁.toMarksWf.same rfl (le_refl _), fun q b hb => ?_⟩
    have hb' : symOf (s₁.freeNbr p) q = some b := hb
    rw [symOf_freeNbr] at hb'
    split at hb'
    · cases hb'
    · exact hsum₁.agrees q b hb'

theorem Summarised.step (hsum : Summarised s) (hw : TableWf s) {ev : Event} (hen : ev.Enabled s)
    (hok : StatusKept env s ev) (hs : step env s ev = some s') : Summarised s' := by
  cases ev with
  | tick now => obtain rfl := Option.some.inj hs; exact hsum.same (.of_eq rfl rfl (le_refl _))
  | helloLink h =>
    obtain ⟨x, hx, rfl⟩ := Option.map_eq_some_iff.1 hs
    exact hsum.helloLink hw hok hx
  | lookupLink remote a ifc =>
    obtain ⟨⟨s₁, o⟩, hx, rfl⟩ := Option.map_eq_some_iff.1 hs
    refine lookupLinkEntry_invariant hsum (fun p e hm => ?_) hx
    have hset : SameStatus s (s.setNbr p { e with mainAddr := a }) := .setNbr hm.2.1 rfl
    exact hsum.same (hset.trans (.of_eq rfl rfl (le_refl _)))
  | insertMidAlias random m a vtime =>
    obtain ⟨mid, -, honly⟩ := insertMidAlias_apart hok hs
    have hmid : SameStatus s { s with mid := mid } := .of_eq rfl rfl (le_refl _)
    exact hsum.same (hmid.trans honly.sameStatus)
  | setLinkcost id cost => obtain rfl := Option.some.inj hs; exact hsum.same (.updateLink s id fun _ => rfl)
  | setWillingness p w =>
    rcases setWillingness_cases hs with rfl | ⟨e, he, rfl⟩
    · exact hsum
    · have hset : SameStatus s (s.setNbr p { e with willingness := w }) := .setNbr he rfl
      exact hsum.same (hset.trans (TwoHopOnly.changed _).sameStatus)
  | processMessageNeighbors random n message => exact hsum.same (twoHopOnly_processMessageNeighbors hs).sameStatus
  | expireNbr2List x => exact hsum.same (twoHopOnly_unlinkNbr2 hs).sameStatus
  | expireLinkSym l => exact hsum.expireLinkSym hen.1 hen.2 hok hs
  | expireLinkHello l hyst => cases hok
  | deleteLink l => exact hsum.deleteLinkEntry hen hok hs
  | insertNeighbor a => obtain rfl := Option.some.inj hs; exact hsum.insertNeighbor a
  | deleteNeighbor a => exact hsum.deleteNeighbor hs
  | deleteTwoHop t => exact hsum.same (twoHopOnly_deleteTwoHop hs).sameStatus
  | changeMid mid => obtain rfl := Option.some.inj hs; exact hsum.same (.of_eq rfl rfl (le_refl _))

/-- As long as every event that changes which links are symmetric also makes the status of the neighbour anew, from
links that are its own, a neighbour is symmetric if and only if one of its links is. -/
theorem reachable_status (h : Reachable env (StatusKept env) s) : ∀ p e, s.nbr p = some e →
    (e.sym = true ↔ ∃ l ∈ s.links, l.neighbor = p ∧ lookupLinkStatus s l = .sym) := by
  have hboth : TableWf s ∧ Summarised s := by
    refine Run.Reaches.invariant (P := fun s => TableWf s ∧ Summarised s) ?_ ?_ h
    · rintro _ rfl
      exact ⟨keyed_emptyNbh.toTableWf, summarised_emptyNbh⟩
    · rintro s ev s' ⟨hw, hsum⟩ ⟨hen, hok⟩ hstep
      exact ⟨hw.step hstep, hsum.step hw hen hok hstep⟩
  exact fun p e he => hboth.2.status_iff he

/-- The node itself as the neighbour of a sender, with the status of the link to it. -/
def ownMention (link : LinkStatus) : HelloNeighbor := ⟨[10, 0, 0, 1], link, true, 1024⟩

/-- HELLO messages that list this node as symmetric come from 10.0.0.2, which has an alias, and from 10.0.0.3. The first
link is no longer symmetric when its timer has gone off, the second one is deleted. -/
def symmetryEnds : List Chooser :=
  [.hello (helloFrom [10, 0, 0, 2] [10, 0, 0, 2] [ownMention .sym]), .newAlias [10, 0, 0, 2] [10, 0, 1, 2], .tick 2,
    .hello (helloFrom [10, 0, 0, 2] [10, 0, 0, 2] [ownMention .sym]),
    .hello (helloFrom [10, 0, 0, 3] [10, 0, 0, 3] [ownMention .sym]), .tick 6, .expireSym [10, 0, 0, 2],
    .deleteLink [10, 0, 0, 3]]

theorem reachable_status_symmetryEnds : ∃ s : Nbh, ∃ e, s.nbr 1 = some e ∧ e.sym = false ∧
    (∃ l ∈ s.links, l.neighbor = 1) ∧ ∀ l ∈ s.links, l.neighbor = 1 → lookupLinkStatus s l ≠ .sym := by
  have hrounds : Run.Rounds (fun s c => ∀ ev ∈ c s, StatusKept oneInterface s ev.1) (Chooser.run oneInterface)
      symmetryEnds emptyNbh := by decide +kernel
  have hrun : ((Run.forEach (Chooser.run oneInterface) symmetryEnds emptyNbh).any fun s =>
      s.links.map LinkEntry.neighbor == [1] && (s.nbr 1).any fun e => !e.sym) = true := by decide +kernel
  obtain ⟨s, hs, hrun⟩ := (Option.any_eq_true _ _).1 hrun
  obtain ⟨hlinks, he⟩ := Bool.and_eq_true_iff.1 hrun
  obtain ⟨e, he, hsym⟩ := (Option.any_eq_true _ _).1 he
  rw [Bool.not_eq_true'] at hsym
  have hstatus := reachable_status (Chooser.reachable (.init rfl) hrounds hs) 1 e he
  have hone : 1 ∈ s.links.map LinkEntry.neighbor := by
    rw [beq_iff_eq.1 hlinks]
    exact List.mem_singleton_self 1
  obtain ⟨l, hl, hneighbor⟩ := List.mem_map.1 hone
  refine ⟨s, e, he, hsym, ⟨l, hl, hneighbor⟩, fun l hl hp hlink => ?_⟩
  rw [hstatus.2 ⟨l, hl, hp, hlink⟩] at hsym
  cases hsym

/-- A HELLO message lists this node as asymmetric: the neighbour is symmetric, and stays so when the timer of its only
link goes off. -/
theorem asymHello_status_stale :
    ∃ s, Reachable oneInterface (fun _ _ => True) s ∧ (∀ l ∈ s.links, l.hysteresis = none) ∧
    ∃ p e, s.nbr p = some e ∧ e.sym = true ∧ ∀ l ∈ s.links, lookupLinkStatus s l ≠ .sym := by
  have hrun : ((Run.forEach (olsrHelloTap oneInterface) [helloFrom [10, 0, 0, 2] [10, 0, 0, 2] [ownMention .asym]]
      emptyNbh).any fun s₁ => match s₁.links with
        | [l] => l.linkSymTimer.isSome && (olsrExpireLinkSymTimer oneInterface s₁ l).any fun s =>
          (s.links.all fun l => l.hysteresis == none && lookupLinkStatus s l != .sym) && (s.nbr 1).any fun e => e.sym
        | _ => false) = true := by decide +kernel
  obtain ⟨s₁, h₁, hrun⟩ := (Option.any_eq_true _ _).1 hrun
  split at hrun
  · rename_i l hl
    obtain ⟨htimer, hrun⟩ := Bool.and_eq_true_iff.1 hrun
    obtain ⟨s, hs, hrun⟩ := (Option.any_eq_true _ _).1 hrun
    obtain ⟨hlinks, hany⟩ := Bool.and_eq_true_iff.1 hrun
    obtain ⟨e, he, hsym⟩ := (Option.any_eq_true _ _).1 hany
    have hall : ∀ l ∈ s.links, l.hysteresis = none ∧ lookupLinkStatus s l ≠ .sym := by
      intro l hl
      have hl' := List.all_eq_true.1 hlinks l hl
      rwa [Bool.and_eq_true, beq_iff_eq, bne_iff_ne] at hl'
    have hmem : l ∈ s₁.links := by rw [hl]; exact List.mem_singleton.2 rfl
    exact ⟨s, .step (.expireLinkSym l) (reachable_hellos h₁) ⟨⟨hmem, htimer⟩, trivial⟩ hs,
      fun l hl => (hall l hl).1, 1, e, he, hsym, fun l hl => (hall l hl).2⟩
  · cases hrun

end Olsrd.Neighbor
