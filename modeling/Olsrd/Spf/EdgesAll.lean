/-
Properties that all stored edges have. The ways to make or change an edge are the neighbour loop and the records of a
TC message; a property that these keep holds of every edge in every state and for every SPF run.
-/
import Olsrd.Spf.OwnEdges

namespace Olsrd.Spf

open Olsrd.Topology (Lsdb TcEdgeEntry EdgeMap edgeAt edgeAt_eq_some_iff)

variable {Lq Hq : Type} {env : Env Lq Hq} {n n' : Node Lq Hq} {s s' : Lsdb Lq} {P : TcEdgeEntry Lq → Prop}

/-- All stored edges meet `P`. -/
def EdgesAll (P : TcEdgeEntry Lq → Prop) (s : Lsdb Lq) : Prop := ∀ e d, s.edge e = some d → P d

/-- `P` does not look at the inverse edge, and the neighbour loop keeps it. -/
structure EdgeInvariant (env : Env Lq Hq) (P : TcEdgeEntry Lq → Prop) : Prop where
  core : ∀ d : TcEdgeEntry Lq, P d.core ↔ P d
  own : ∀ p b q o x, (∀ d, o = some d → P d) → ownEdge env p b q o = some x → P x

theorem edgesAll_iff_core (hP : ∀ d : TcEdgeEntry Lq, P d.core ↔ P d) :
    EdgesAll P s ↔ ∀ e x, (s.edge e).map TcEdgeEntry.core = some x → P x := by
  constructor
  · intro h e x hx
    obtain ⟨d, hd, rfl⟩ := Option.map_eq_some_iff.1 hx
    exact (hP d).2 (h e d hd)
  · intro h e d hd
    exact (hP d).1 (h e d.core (by rw [hd]; rfl))

/-- In a well-formed database the edges are those of the entries. -/
theorem edgesAll_iff_edgeAt (hP : ∀ d : TcEdgeEntry Lq, P d.core ↔ P d) (hw : Topology.Wf s) :
    EdgesAll P s ↔ ∀ p b x, edgeAt s p b = some x → P x := by
  rw [edgesAll_iff_core hP]
  constructor
  · intro h p b x hx
    obtain ⟨-, -, e, he⟩ := (edgeAt_eq_some_iff hw).1 hx
    exact h e x he
  · intro h e x hx
    exact h x.tc x.destAddr x ((edgeAt_eq_some_iff hw).2 ⟨rfl, rfl, e, hx⟩)

theorem EdgesAll.kept (h : EdgesAll P s) (hP : ∀ d : TcEdgeEntry Lq, P d.core ↔ P d) (hk : Topology.EdgesKept s s') :
    EdgesAll P s' :=
  (edgesAll_iff_core hP).2 fun e x hx => (edgesAll_iff_core hP).1 h e x (hk e x hx)

/-! ## The neighbour loop -/

theorem EdgesAll.ownEdgeSet (h : EdgesAll P s) (hP : ∀ d : TcEdgeEntry Lq, P d.core ↔ P d) (hw : Topology.Wf s)
    {p : Topology.Ptr} {b : IpAddr} {o : Option (TcEdgeEntry Lq)} (hset : OwnEdgeSet env p b o s s')
    (ho : ∀ x, o = some x → P x) : EdgesAll P s' := by
  rw [edgesAll_iff_edgeAt hP hw] at h
  rw [edgesAll_iff_edgeAt hP hset.wf]
  intro q c x hx
  by_cases hq : q = p
  · subst hq
    rw [hset.edges] at hx
    by_cases hc : c = b
    · subst hc
      rw [Function.update_self] at hx
      exact ho x hx
    · rw [Function.update_of_ne hc] at hx
      exact h q c x hx
  · rw [hset.others q hq] at hx
    exact h q c x hx

theorem EdgesAll.neighborLoop (h : EdgesAll P n.own.lsdb) (hP : EdgeInvariant env P) (hn : NodeWf env n)
    (hloop : Spf.neighborLoop env n = some n') : EdgesAll P n'.own.lsdb := by
  rcases neighborLoop_cases hn hloop with ⟨p, hp, hloop⟩ | ⟨-, rfl⟩
  · refine (Run.forEach_invariant
      (P := fun n => EdgesAll P n.own.lsdb ∧ NodeWf env n ∧ n.own.tcMyself = some p) ?_ ⟨h, hn, hp⟩ hloop).1
    rintro n₀ q n₁ - ⟨h₀, hn₀, hp₀⟩ hround
    obtain ⟨e, -, hdone⟩ := spfNeighbor_spec hn₀ hp₀ hround
    obtain ⟨link, -, hset⟩ := hdone.edge
    have hown : ∀ d, edgeAt n₀.own.lsdb p e.mainAddr = some d → P d := (edgesAll_iff_edgeAt hP.core hn₀.lsdb).1 h₀ p _
    exact ⟨h₀.ownEdgeSet hP.core hn₀.lsdb hset fun x hx => hP.own _ _ _ _ x hown hx, hdone.nodeWf hn₀,
      hdone.tcMyself.trans hp₀⟩
  · exact h

/-! ## TC messages -/

/-- If the message is accepted, its records keep `P` for the edges of the originator. -/
def RecordsKeep (env : Topology.Env Lq) (P : TcEdgeEntry Lq → Prop) (s : Lsdb Lq) (symLink : Bool) (msg : Bytes.Mem) :
    Prop :=
  Topology.IsTc msg → symLink = true → Topology.GateOpen s (Topology.headerOf env msg) → ∀ p,
    (∀ b x, Topology.edgesFrom s (Topology.headerOf env msg).originator b = some x → P x) →
    ∀ b x, (Topology.recordWalk env p (Topology.headerOf env msg).ansn msg (Topology.headerOf env msg).size
      (Topology.edgesFrom s (Topology.headerOf env msg).originator) (Topology.headerOf env msg).cursor).1 b = some x →
      P x

theorem EdgesAll.processTc {env : Topology.Env Lq} (h : EdgesAll P s) (hP : ∀ d : TcEdgeEntry Lq, P d.core ↔ P d)
    (hw : Topology.Wf s) {p : Topology.Ptr} {hd : Topology.TcHeader} {msg : Bytes.Mem} {r : Topology.TcResult Lq}
    (hrecords : ∀ b x, (Topology.recordWalk env p hd.ansn msg hd.size (edgeAt s p) hd.cursor).1 b = some x → P x)
    (hr : Topology.processTc env s p hd msg = some r) : EdgesAll P r.db := by
  obtain ⟨t, ht, hr⟩ := Option.bind_eq_some_iff.1 hr
  obtain ⟨w, hwalk, hr⟩ := Option.bind_eq_some_iff.1 hr
  let t' : Topology.TcEntry :=
    { t with msgHops := hd.msgHops, msgSeq := hd.msgSeq, ansn := hd.ansn, ignored := 0, errSeqValid := false }
  have haddr : ∀ q, Topology.addrOf (s.setTc p t') q = Topology.addrOf s q := Topology.addrOf_update rfl ht rfl
  have hat : ∀ q, edgeAt (s.setTc p t') q = edgeAt s q := Topology.edgeAt_setTc t' ht rfl
  obtain ⟨w', hw', hdone⟩ := Topology.tcWalk_spec env p hd.ansn msg hd.size (edgeAt s p) hd.cursor
    ⟨s.setTc p t', hd.cursor, none, false⟩ (Topology.wf_setTc hw ht rfl)
    ⟨_, (haddr p).trans (Topology.addrOf_some ht)⟩ (hat p) rfl
  obtain rfl : w = w' := Option.some.inj (hwalk.symm.trans hw')
  rw [edgesAll_iff_edgeAt hP hw] at h
  have hright : EdgesAll P w.db := by
    rw [edgesAll_iff_edgeAt hP hdone.wf]
    intro q b x hx
    by_cases hq : q = p
    · subst hq
      rw [hdone.edges] at hx
      exact hrecords b x hx
    · rw [hdone.others q hq, hat] at hx
      exact h q b x hx
  exact hright.kept hP (Topology.edgesKept_finishTc hr)

theorem EdgesAll.edgesFrom (h : EdgesAll P s) (hP : ∀ d : TcEdgeEntry Lq, P d.core ↔ P d) (hw : Topology.Wf s)
    {c b : IpAddr} {x : TcEdgeEntry Lq} (hx : Topology.edgesFrom s c b = some x) : P x := by
  unfold Topology.edgesFrom at hx
  cases hl : Topology.olsrLookupTcEntry s c with
  | none => rw [hl] at hx; cases hx
  | some q => rw [hl] at hx; exact (edgesAll_iff_edgeAt hP hw).1 h q b x hx

/-- The originator's entry, found or new, does not bring edges of its own. -/
theorem EdgesAll.prepared (h : EdgesAll P s) (hP : ∀ d : TcEdgeEntry Lq, P d.core ↔ P d) (hw : Topology.Wf s)
    (hw' : Topology.Wf s') {p : Topology.Ptr} {a : IpAddr} (hpre : Topology.Prepared s s' p a) : EdgesAll P s' := by
  rw [edgesAll_iff_edgeAt hP hw']
  intro q b x hx
  obtain ⟨htc, -, e, he⟩ := (edgeAt_eq_some_iff hw').1 hx
  obtain ⟨d, hd, rfl⟩ := Option.map_eq_some_iff.1 he
  obtain ⟨t, ht⟩ := hw'.edgeTc e d hd
  have hq : Topology.addrOf s' q = some t.addr := by rw [← htc]; exact Topology.addrOf_some ht
  by_cases ha : t.addr = a
  · rw [ha] at hq
    obtain rfl := hw'.tcTree.unique hq hpre.addr
    rw [hpre.edges] at hx
    exact h.edgesFrom hP hw hx
  · rw [← Topology.edgesFrom_eq hw' hq, hpre.others _ ha] at hx
    exact h.edgesFrom hP hw hx

theorem EdgesAll.inputTc {env : Topology.Env Lq} (h : EdgesAll P s) (hP : ∀ d : TcEdgeEntry Lq, P d.core ↔ P d)
    (hw : Topology.Wf s) (ho : Topology.Ordered env s) {symLink : Bool} {msg : Bytes.Mem} {r : Topology.TcResult Lq}
    (hkeep : RecordsKeep env P s symLink msg) (hr : Topology.olsrInputTc env s symLink msg = some r) :
    EdgesAll P r.db := by
  by_cases htype : Topology.IsTc msg ∧ symLink = true
  · obtain ⟨htc, rfl⟩ := htype
    by_cases hentry : Topology.EntryAvailable env s (Topology.headerOf env msg).originator
    · by_cases hgate : Topology.GateOpen s (Topology.headerOf env msg)
      · obtain ⟨s₁, p, t, hw₁, -, hpre, -, heq⟩ := Topology.olsrInputTc_processes env hw ho htc hgate hentry
        rw [heq] at hr
        have hrecords := hkeep htc rfl hgate p fun b x hx => h.edgesFrom hP hw hx
        rw [← hpre.edges] at hrecords
        exact (h.prepared hP hw hw₁ hpre).processTc hP hw₁ hrecords hr
      · simp only [Topology.GateOpen, not_forall] at hgate
        obtain ⟨p, t, hp, ht, hclosed⟩ := hgate
        rw [Topology.olsrInputTc_of_closed env htc hp ht (Bool.eq_false_iff.2 hclosed)] at hr
        obtain rfl := Option.some.inj hr
        exact h.kept hP (.of_eq rfl)
    · rw [Topology.olsrInputTc_eq_none env htc hentry] at hr; cases hr
  · rw [Topology.olsrInputTc_ignored env s htype] at hr
    obtain rfl := Option.some.inj hr
    exact h

/-! ## Runs -/

/-- The records of the event, if it has any, keep `P`. -/
def Event.Keeps (env : Env Lq Hq) (P : TcEdgeEntry Lq → Prop) (n : Node Lq Hq) : Event Hq → Prop
  | .inputTc symLink msg => RecordsKeep env.topology P n.own.lsdb symLink msg
  | _ => True

theorem EdgesAll.nbhStep (h : EdgesAll P n.own.lsdb) (hP : ∀ d : TcEdgeEntry Lq, P d.core ↔ P d) {ev : Neighbor.Event}
    (hstep : step env n (.nbh ev) = some n') : EdgesAll P n'.own.lsdb := by
  obtain ⟨s₁, hs₁, hstep⟩ := Option.bind_eq_some_iff.1 hstep
  obtain ⟨nbh, -, hstep⟩ := Option.bind_eq_some_iff.1 hstep
  obtain rfl := Option.some.inj hstep
  change EdgesAll P s₁
  refine h.kept hP ?_
  cases ev with
  | deleteLink l =>
    obtain ⟨p, -, hs₁⟩ := Option.bind_eq_some_iff.1 hs₁
    obtain ⟨o, -, hs₁⟩ := Option.bind_eq_some_iff.1 hs₁
    cases o with
    | none => obtain rfl := Option.some.inj hs₁; exact .refl _
    | some e => exact Topology.edgesKept_deleteEdge hs₁
  | _ => obtain rfl := Option.some.inj hs₁; exact .refl _

theorem EdgesAll.step (h : EdgesAll P n.own.lsdb) (hP : EdgeInvariant env P) (hn : NodeWf env n) {ev : Event Hq}
    (hkeep : ev.Keeps env P n) (hstep : Spf.step env n ev = some n') : EdgesAll P n'.own.lsdb := by
  cases ev with
  | nbh ev => exact h.nbhStep hP.core hstep
  | linkquality id quality => obtain rfl := Option.some.inj hstep; exact h
  | inputTc symLink msg =>
    obtain ⟨r, hr, rfl⟩ := Option.map_eq_some_iff.1 hstep
    exact h.inputTc hP.core hn.lsdb hn.ordered hkeep hr
  | expireTc tc =>
    obtain ⟨s₁, hs₁, rfl⟩ := Option.map_eq_some_iff.1 hstep
    exact h.kept hP.core (Topology.edgesKept_deleteEntry hs₁)
  | expireEdgeGc tc =>
    obtain ⟨s₁, hs₁, rfl⟩ := Option.map_eq_some_iff.1 hstep
    exact h.kept hP.core (Topology.edgesKept_deleteOutdated hs₁)
  | spf => exact h.neighborLoop hP hn hstep

/-- All edges meet `P` in every state of a run whose records keep it, and for every SPF run. -/
theorem reachable_edgesAll {ok : Node Lq Hq → Event Hq → Prop} (hP : EdgeInvariant env P)
    (hok : ∀ n ev, ok n ev → ev.Keeps env P n) (h : Reachable env ok n) :
    EdgesAll P n.own.lsdb ∧ ∀ n', neighborLoop env n = some n' → EdgesAll P n'.own.lsdb := by
  have hall : NodeWf env n ∧ EdgesAll P n.own.lsdb := by
    refine Run.Reaches.invariant (P := fun n => NodeWf env n ∧ EdgesAll P n.own.lsdb) (fun n₀ hs => ?_) ?_ h
    · obtain ⟨hn, hno⟩ := start_spec hs
      exact ⟨hn, fun e d hd => by rw [hno] at hd; cases hd⟩
    · rintro n₀ ev n₁ ⟨hn₀, h₀⟩ ⟨hen, hev⟩ hstep
      exact ⟨hn₀.step hen hstep, h₀.step hP hn₀ (hok n₀ ev hev) hstep⟩
  exact ⟨hall.2, fun n' hloop => hall.2.neighborLoop hP hall.1 hloop⟩

end Olsrd.Spf
