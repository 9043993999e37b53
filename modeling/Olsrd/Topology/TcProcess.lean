/-
`olsr_delete_revoked_tc_edges` and the whole of `olsr_input_tc` in terms of the edge map of the
originator: the records of the message update the map, then the edges between the borders that are
older than the message go.
-/
import Olsrd.Topology.TcWalk

namespace Olsrd.Topology

open Bytes Keyed

variable {Lq : Type} {env : Env Lq} {s s' : Lsdb Lq}

/-! ## Revoked edges -/

/-- `b` lies between the borders, in the order of the edge tree. -/
def Env.between (env : Env Lq) (lower upper b : IpAddr) : Bool := !env.addrLt b lower && env.addrLt b upper

/-- The edge map without the edges between the borders that are older than `ansn`. -/
def revoke (env : Env Lq) (ansn : UInt16) (lower upper : IpAddr) (E : EdgeMap Lq) : EdgeMap Lq := fun b =>
  (E b).filter fun d => !(env.between lower upper b && seqnoGreaterThan ansn d.ansn)

theorem revoke_of_not_between {ansn : UInt16} {lower upper b : IpAddr} (E : EdgeMap Lq)
    (h : env.between lower upper b = false) : revoke env ansn lower upper E b = E b := by
  unfold revoke; rw [h]; cases E b <;> simp

theorem edgeAt_deleted (h : Wf s) (h' : Wf s') {e : Ptr} {d : TcEdgeEntry Lq} (hd : s.edge e = some d)
    (hdel : EdgeDeleted s s' e d) : edgeAt s' d.tc = Function.update (edgeAt s d.tc) d.destAddr none := by
  have hd' : edgeAt s d.tc d.destAddr = some d.core :=
    (edgeAt_eq_some_iff h).2 ⟨rfl, rfl, e, by rw [hd]; rfl⟩
  have hsub : ∀ x, (∃ g, (s'.edge g).map TcEdgeEntry.core = some x) ↔
      ∃ g, g ≠ e ∧ (s.edge g).map TcEdgeEntry.core = some x := by
    refine fun x => exists_congr fun g => ?_
    by_cases hg : g = e
    · subst hg; rw [hdel.gone]; simp
    · rw [hdel.others g hg]; simp [hg]
  funext b
  refine Option.ext fun x => ?_
  rw [edgeAt_eq_some_iff h', hsub]
  by_cases hb : b = d.destAddr
  · subst hb
    rw [Function.update_self]
    refine iff_of_false ?_ (by simp)
    rintro ⟨htc, hdest, g, hg, hx⟩
    obtain ⟨dg, hdg, rfl⟩ := Option.map_eq_some_iff.1 hx
    obtain ⟨t, ht⟩ := h.edgeTc e d hd
    exact hg ((h.edgeTree d.tc t ht).unique ⟨dg, hdg, htc, hdest⟩ ⟨d, hd, rfl, rfl⟩)
  · rw [Function.update_of_ne hb, edgeAt_eq_some_iff h]
    refine and_congr_right fun _ => and_congr_right fun hdest => exists_congr fun g => ?_
    refine ⟨And.right, fun hx => ⟨?_, hx⟩⟩
    rintro rfl
    rw [hd, Option.map_some] at hx
    exact hb (by rw [← hdest, ← Option.some.inj hx]; rfl)

theorem edgeAt_deleted_other (h : Wf s) (h' : Wf s') {e q : Ptr} {d : TcEdgeEntry Lq} (hd : s.edge e = some d)
    (hdel : EdgeDeleted s s' e d) (hq : q ≠ d.tc) : edgeAt s' q = edgeAt s q := by
  refine edgeAt_other h h' hq (fun x hx => ?_) hdel.others fun x hx => ?_
  · rw [hdel.gone] at hx; cases hx
  · rw [hd, Option.map_some] at hx
    rw [← Option.some.inj hx]; rfl

/-- What the deletion of revoked edges leaves alone. -/
structure EdgesOf (env : Env Lq) (s s' : Lsdb Lq) (p : Ptr) : Prop where
  wf : Wf s'
  others : ∀ q, q ≠ p → edgeAt s' q = edgeAt s q
  addrOf : ∀ q, addrOf s' q = addrOf s q
  ordered : Ordered env s → Ordered env s'

theorem not_addrLt_trans {a b c : IpAddr} (h : env.addrLt b a = false) (h' : env.addrLt c b = false) :
    env.addrLt c a = false := by
  simp only [Env.addrLt, addrLt, decide_eq_false_iff_not] at h h' ⊢; omega

/-- The loop over a sorted rest `l` of the edge tree of `p`. -/
theorem deleteRevoked_spec (env : Env Lq) (ansn : UInt16) (lower upper : IpAddr) (p : Ptr) :
    ∀ (l : List (IpAddr × Ptr)) (passed retval : Bool) (s : Lsdb Lq), Wf s → Sorted env.addrLt l →
      (l.map Prod.fst).Nodup → (∀ b e, (b, e) ∈ l → EdgeOf s p b e) →
      (passed = true → ∀ x ∈ l, env.addrLt x.1 lower = false) →
      ∃ s' r, deleteRevoked env ansn lower upper (l.map Prod.snd) passed retval s = some (s', r) ∧
        EdgesOf env s s' p ∧ ∀ b, edgeAt s' p b =
          if b ∈ l.map Prod.fst then revoke env ansn lower upper (edgeAt s p) b else edgeAt s p b
  | [], _, retval, s, hw, _, _, _, _ =>
    ⟨s, retval, rfl, ⟨hw, fun _ _ => rfl, fun _ => rfl, id⟩, fun b => by simp⟩
  | (b, e) :: l, passed, retval, s, hw, hs, hk, hof, hpassed => by
    obtain ⟨hle, hs'⟩ := List.pairwise_cons.1 hs
    obtain ⟨hb, hk'⟩ := List.nodup_cons.1 hk
    obtain ⟨d, hd, hp, hdest⟩ := hof b e (List.mem_cons_self ..)
    have hat : edgeAt s p b = some d.core := (edgeAt_eq_some_iff hw).2 ⟨hp, hdest, e, by rw [hd]; rfl⟩
    have hof' : ∀ b' e', (b', e') ∈ l → EdgeOf s p b' e' := fun b' e' h => hof b' e' (List.mem_cons_of_mem _ h)
    have hstep : deleteRevoked env ansn lower upper (((b, e) :: l).map Prod.snd) passed retval s =
        if (!passed && env.addrLt d.destAddr lower) = true then
          deleteRevoked env ansn lower upper (l.map Prod.snd) false retval s
        else if (!env.addrLt d.destAddr upper) = true then some (s, retval)
        else if seqnoGreaterThan ansn d.ansn = true then
          (olsrDeleteTcEdgeEntry s e).bind fun s => deleteRevoked env ansn lower upper (l.map Prod.snd) true true s
        else deleteRevoked env ansn lower upper (l.map Prod.snd) true retval s := by
      simp [deleteRevoked, hd]
    rw [hstep, hdest]
    by_cases hlow : (!passed && env.addrLt b lower) = true
    · -- below the lower border: continue
      rw [if_pos hlow]
      obtain ⟨s₁, r, hs₁, hedges, hmap⟩ := deleteRevoked_spec env ansn lower upper p l false retval s hw hs' hk' hof'
        (by simp)
      refine ⟨s₁, r, hs₁, hedges, fun b' => ?_⟩
      rw [hmap b']
      by_cases hbb : b' = b
      · subst hbb
        have hnot : env.between lower upper b' = false := by
          simp only [Bool.and_eq_true] at hlow; simp [Env.between, hlow.2]
        rw [if_neg hb, if_pos (by simp), revoke_of_not_between _ hnot]
      · simp only [List.map_cons, List.mem_cons, hbb, false_or]
    rw [if_neg hlow]
    -- from here on every member is past the lower border
    have hge : env.addrLt b lower = false := by
      cases hpass : passed with
      | true => exact hpassed hpass (b, e) (List.mem_cons_self ..)
      | false => simpa [hpass] using hlow
    have hge' : ∀ x ∈ l, env.addrLt x.1 lower = false := fun x hx => not_addrLt_trans hge (hle x hx)
    by_cases hup : env.addrLt b upper = true
    · have hbetween : env.between lower upper b = true := by simp [Env.between, hge, hup]
      rw [if_neg (by simp [hup])]
      by_cases hold : seqnoGreaterThan ansn d.ansn = true
      · -- revoked
        rw [if_pos hold]
        obtain ⟨s₁, hs₁, hw₁, hdel⟩ := olsrDeleteTcEdgeEntry_spec hw hd
        have hof₁ : ∀ b' e', (b', e') ∈ l → EdgeOf s₁ p b' e' := by
          intro b' e' hmem
          have hne : e' ≠ e := by
            rintro rfl
            rw [← edgeOf_key (hof' b' e' hmem) ⟨d, hd, hp, hdest⟩] at hmem
            exact hb (List.mem_map_of_mem (f := Prod.fst) hmem)
          obtain ⟨d', hd', htc', hdest'⟩ := hof' b' e' hmem
          have hcore := hdel.others e' hne
          rw [hd', Option.map_some, Option.map_eq_some_iff] at hcore
          obtain ⟨d'', hd'', heq⟩ := hcore
          exact ⟨d'', hd'', (congrArg TcEdgeEntry.tc heq).trans htc', (congrArg TcEdgeEntry.destAddr heq).trans hdest'⟩
        obtain ⟨s₂, r, hs₂, hedges, hmap⟩ := deleteRevoked_spec env ansn lower upper p l true true s₁ hw₁ hs' hk' hof₁
          (fun _ => hge')
        have hat₁ : edgeAt s₁ p = Function.update (edgeAt s p) b none := by
          have := edgeAt_deleted hw hw₁ hd hdel
          rwa [hp, hdest] at this
        refine ⟨s₂, r, by rw [hs₁]; exact hs₂, ⟨hedges.wf, fun q hq => ?_, fun q => ?_, fun ho => ?_⟩, fun b' => ?_⟩
        · exact (hedges.others q hq).trans (edgeAt_deleted_other hw hw₁ hd hdel (hp ▸ hq))
        · exact (hedges.addrOf q).trans (hdel.addrOf q)
        · exact hedges.ordered (hdel.ordered ho)
        · rw [hmap b', hat₁]
          by_cases hbb : b' = b
          · subst hbb
            rw [if_neg hb, if_pos (by simp), Function.update_self]
            unfold revoke
            rw [hat]
            have : seqnoGreaterThan ansn d.core.ansn = true := hold
            simp [Option.filter_some, hbetween, this]
          · unfold revoke
            simp only [Function.update_of_ne hbb, List.map_cons, List.mem_cons, hbb, false_or]
      · -- between the borders, but up to date
        rw [if_neg hold]
        obtain ⟨s₁, r, hs₁, hedges, hmap⟩ := deleteRevoked_spec env ansn lower upper p l true retval s hw hs' hk' hof'
          (fun _ => hge')
        refine ⟨s₁, r, hs₁, hedges, fun b' => ?_⟩
        rw [hmap b']
        by_cases hbb : b' = b
        · subst hbb
          rw [if_neg hb, if_pos (by simp)]
          unfold revoke
          rw [hat]
          have : seqnoGreaterThan ansn d.core.ansn = false := Bool.eq_false_iff.2 hold
          simp [Option.filter_some, this]
        · simp only [List.map_cons, List.mem_cons, hbb, false_or]
    · -- at the upper border: stop; nothing behind is below it
      rw [if_pos (by simpa using hup)]
      refine ⟨s, retval, rfl, ⟨hw, fun _ _ => rfl, fun _ => rfl, id⟩, fun b' => ?_⟩
      split
      · rename_i hmem
        have hnot : env.between lower upper b' = false := by
          have hup' : env.addrLt b' upper = false := by
            obtain ⟨x, hx, rfl⟩ := List.mem_map.1 hmem
            rcases List.mem_cons.1 hx with rfl | hx
            · simpa using hup
            · exact not_addrLt_trans (by simpa using hup) (hle x hx)
          simp [Env.between, hup']
        rw [revoke_of_not_between _ hnot]
      · rfl

theorem olsrDeleteRevokedTcEdges_spec (env : Env Lq) (h : Wf s) (ho : Ordered env s) {p : Ptr} {t : TcEntry}
    (ht : s.tc p = some t) (ansn : UInt16) (lower upper : IpAddr) :
    ∃ s' r, olsrDeleteRevokedTcEdges env s p ansn lower upper = some (s', r) ∧ EdgesOf env s s' p ∧
      edgeAt s' p = revoke env ansn lower upper (edgeAt s p) := by
  have hidx := h.edgeTree p t ht
  obtain ⟨s', r, hs', hedges, hmap⟩ := deleteRevoked_spec env ansn lower upper p t.edgeTree false false s h
    (ho p t ht) hidx.keys (fun b e hmem => (hidx.mem b e).1 hmem) (by simp)
  refine ⟨s', r, by simp [olsrDeleteRevokedTcEdges, ht, hs'], hedges, funext fun b => ?_⟩
  rw [hmap b]
  split
  · rfl
  · rename_i hb
    have hnone : edgeAt s p b = none := by
      rw [edgeAt_eq_none_iff h ht, hidx.find_eq_none]
      exact fun e he => hb (hidx.mem_keys.2 ⟨e, he⟩)
    simp [revoke, hnone]

/-! ## An accepted message -/

/-- An empty TC with both border flags `0xff` revokes everything. -/
def TcHeader.cleansUp (hd : TcHeader) : Prop :=
  hd.cursor.curr ≥ hd.size ∧ hd.lowerBorder = 0xff ∧ hd.upperBorder = 0xff

/-- The borders between which a message with records to `addrs` revokes edges. -/
def tcBorders (env : Env Lq) (hd : TcHeader) (addrs : List IpAddr) : Option (IpAddr × IpAddr) :=
  (bordersAfter none addrs).bind fun b =>
    olsrCalculateTcBorder env.platform env.cnf hd.lowerBorder hd.upperBorder b.1 b.2

def revokeWithin (env : Env Lq) (ansn : UInt16) (E : EdgeMap Lq) : Option (IpAddr × IpAddr) → EdgeMap Lq
  | none => E
  | some (lower, upper) => revoke env ansn lower upper E

/-- The walk over the records of a message that is accepted for the entry `p`. -/
def tcRecords (env : Env Lq) (p : Ptr) (hd : TcHeader) (msg : Mem) (E : EdgeMap Lq) :
    EdgeMap Lq × Cursor × List IpAddr :=
  recordWalk env p hd.ansn msg hd.size E hd.cursor

/-- What an accepted message does. -/
structure TcDone (env : Env Lq) (s : Lsdb Lq) (p : Ptr) (hd : TcHeader) (msg : Mem) (r : TcResult Lq) : Prop where
  wf : Wf r.db
  ordered : Ordered env r.db
  forward : r.forward = true
  cursor : r.cursor = (tcRecords env p hd msg (edgeAt s p)).2.1
  borderWrites : r.borderWrites = if (tcRecords env p hd msg (edgeAt s p)).2.2 = [] then []
    else tcBorderWrites env.platform env.cnf hd.lowerBorder hd.upperBorder
  edges : ¬ hd.cleansUp → edgeAt r.db p = revokeWithin env hd.ansn (tcRecords env p hd msg (edgeAt s p)).1
    (tcBorders env hd (tcRecords env p hd msg (edgeAt s p)).2.2)
  others : ¬ hd.cleansUp → ∀ q, q ≠ p → edgeAt r.db q = edgeAt s q
  kept : ¬ hd.cleansUp → ∀ q, addrOf r.db q = addrOf s q
  removed : hd.cleansUp → ∀ q, addrOf r.db q = if q = p then none else addrOf s q

/-- The edges of an entry are those of its edge tree. -/
theorem edgeAt_eq_of_edgeTree {q : Ptr} (htree : (s'.tc q).map TcEntry.edgeTree = (s.tc q).map TcEntry.edgeTree)
    (hedge : s'.edge = s.edge) : edgeAt s' q = edgeAt s q := by
  funext b
  have hbind : ∀ (s : Lsdb Lq), edgeAt s q b = ((s.tc q).map TcEntry.edgeTree).bind fun l =>
      (Keyed.find b l).bind fun e => (s.edge e).bind fun d => some d.core := by
    intro s
    unfold edgeAt
    cases s.tc q <;> rfl
  rw [hbind, hbind, htree, hedge]

theorem edgeAt_setTc {p : Ptr} {t : TcEntry} (t' : TcEntry) (ht : s.tc p = some t) (heq : t'.edgeTree = t.edgeTree)
    (q : Ptr) : edgeAt (s.setTc p t') q = edgeAt s q :=
  edgeAt_eq_of_edgeTree (map_update_tc _ ht heq q) rfl

theorem ordered_setTc {p : Ptr} {t t' : TcEntry} (ht : s.tc p = some t) (heq : t'.edgeTree = t.edgeTree)
    (ho : Ordered env s) : Ordered env (s.setTc p t') :=
  ordered_congr (map_update_tc _ ht heq) ho

theorem bordersAfter_isSome (b : Option (IpAddr × IpAddr)) (addrs : List IpAddr) :
    (bordersAfter b addrs).isSome = (b.isSome || !addrs.isEmpty) := by
  unfold bordersAfter
  induction addrs generalizing b with
  | nil => simp
  | cons a l ih => rw [List.foldl_cons, ih]; simp

theorem recordWalk_of_ge (env : Env Lq) (p : Ptr) (ansn : UInt16) (msg : Mem) {limit : Nat} (E : EdgeMap Lq)
    {c : Cursor} (h : limit ≤ c.curr) : recordWalk env p ansn msg limit E c = (E, c, []) := by
  rw [recordWalk, if_neg (by omega)]

theorem processTc_spec (env : Env Lq) (h : Wf s) (ho : Ordered env s) {p : Ptr} {t : TcEntry} (ht : s.tc p = some t)
    (hd : TcHeader) (msg : Mem) : ∃ r, processTc env s p hd msg = some r ∧ TcDone env s p hd msg r := by
  let t' : TcEntry :=
    { t with msgHops := hd.msgHops, msgSeq := hd.msgSeq, ansn := hd.ansn, ignored := 0, errSeqValid := false }
  have haddr : ∀ q, addrOf (s.setTc p t') q = addrOf s q := addrOf_update rfl ht rfl
  have hat : edgeAt (s.setTc p t') p = edgeAt s p := edgeAt_setTc t' ht rfl p
  obtain ⟨w, hw, hdone⟩ := tcWalk_spec env p hd.ansn msg hd.size (edgeAt s p) hd.cursor
    ⟨s.setTc p t', hd.cursor, none, false⟩ (wf_setTc h ht rfl) ⟨_, (haddr p).trans (addrOf_some ht)⟩ hat rfl
  have how : Ordered env w.db := hdone.ordered (ordered_setTc ht rfl ho)
  have haddrw : ∀ q, addrOf w.db q = addrOf s q := fun q => (hdone.addrOf q).trans (haddr q)
  have hothers : ∀ q, q ≠ p → edgeAt w.db q = edgeAt s q :=
    fun q hq => (hdone.others q hq).trans (edgeAt_setTc t' ht rfl q)
  have hproc : processTc env s p hd msg = finishTc env p hd w := by
    unfold processTc
    rw [ht]
    change (tcWalk env p hd.ansn msg hd.size ⟨s.setTc p t', hd.cursor, none, false⟩).bind _ = _
    rw [hw]; rfl
  obtain ⟨tw, htw, -⟩ := exists_tc_of_addrOf ((haddrw p).trans (addrOf_some ht))
  have hwrites : (if w.borders.isSome then tcBorderWrites env.platform env.cnf hd.lowerBorder hd.upperBorder else []) =
      if (tcRecords env p hd msg (edgeAt s p)).2.2 = [] then []
        else tcBorderWrites env.platform env.cnf hd.lowerBorder hd.upperBorder := by
    rw [hdone.borders, bordersAfter_isSome]
    unfold tcRecords
    cases (recordWalk env p hd.ansn msg hd.size (edgeAt s p) hd.cursor).2.2 <;> rfl
  generalize hws : (if w.borders.isSome then tcBorderWrites env.platform env.cnf hd.lowerBorder hd.upperBorder
    else []) = writes at hwrites
  by_cases hclean : hd.cursor.curr ≥ hd.size ∧ hd.lowerBorder = 0xff ∧ hd.upperBorder = 0xff
  · -- everything goes
    obtain ⟨s₁, b, hs₁, hedges, -⟩ := olsrDeleteRevokedTcEdges_spec env hdone.wf how htw hd.ansn
      (List.replicate env.cnf.ipsize 0) (List.replicate env.cnf.ipsize 0xff)
    obtain ⟨t₁, ht₁, -⟩ := exists_tc_of_addrOf ((hedges.addrOf p).trans (addrOf_some htw))
    obtain ⟨s₂, hs₂, hw₂, haddr₂, ho₂⟩ := olsrDeleteTcEntry_spec env hedges.wf ht₁
    refine ⟨⟨s₂, w.cursor, writes, w.change || b, false, true, true⟩, ?_, hw₂, ho₂ (hedges.ordered how), rfl,
      hdone.cursor,
      hwrites, fun hn => absurd hclean hn, fun hn => absurd hclean hn, fun hn => absurd hclean hn, fun _ q => ?_⟩
    · rw [hproc]
      unfold finishTc
      simp only [hws, if_pos hclean, hs₁, Option.bind_eq_bind, Option.bind_some, if_pos hclean.1, hs₂, Option.pure_def]
    · rw [haddr₂]
      split
      · rfl
      · rw [hedges.addrOf, haddrw]
  · have hborders : w.borders.bind (fun b => olsrCalculateTcBorder env.platform env.cnf hd.lowerBorder hd.upperBorder
        b.1 b.2) = tcBorders env hd (tcRecords env p hd msg (edgeAt s p)).2.2 := by rw [hdone.borders]; rfl
    cases hb : tcBorders env hd (tcRecords env p hd msg (edgeAt s p)).2.2 with
    | none =>
      refine ⟨⟨w.db, w.cursor, writes, w.change, true, false, true⟩, ?_, hdone.wf, how, rfl, hdone.cursor, hwrites,
        fun _ => ?_, fun _ => hothers, fun _ => haddrw, fun hy => absurd hy hclean⟩
      · rw [hproc]
        unfold finishTc
        simp only [hws, if_neg hclean, hborders, hb]
      · rw [hb]; exact hdone.edges
    | some b =>
      obtain ⟨lower, upper⟩ := b
      obtain ⟨s₁, b, hs₁, hedges, hat₁⟩ := olsrDeleteRevokedTcEdges_spec env hdone.wf how htw hd.ansn lower upper
      -- the message has a record
      have hne : ¬ hd.cursor.curr ≥ hd.size := by
        intro hge
        unfold tcRecords at hb
        rw [recordWalk_of_ge env p hd.ansn msg _ hge] at hb
        cases hb
      refine ⟨⟨s₁, w.cursor, writes, w.change || b, false, false, true⟩, ?_, hedges.wf, hedges.ordered how, rfl,
        hdone.cursor, hwrites, fun _ => ?_, fun _ q hq => ?_, fun _ q => ?_, fun hy => absurd hy hclean⟩
      · rw [hproc]
        unfold finishTc
        simp only [hws, if_neg hclean, hborders, hb, hs₁, Option.bind_eq_bind, Option.bind_some, if_neg hne,
          Option.pure_def]
      · rw [hb, hat₁, hdone.edges]; rfl
      · exact (hedges.others q hq).trans (hothers q hq)
      · exact (hedges.addrOf q).trans (haddrw q)

/-! ## A received message -/

/-- The edges of the node `a` by destination. -/
def edgesFrom (s : Lsdb Lq) (a : IpAddr) : EdgeMap Lq :=
  match olsrLookupTcEntry s a with
  | none => fun _ => none
  | some p => edgeAt s p

theorem edgesFrom_eq (h : Wf s) {p : Ptr} {a : IpAddr} (hp : addrOf s p = some a) : edgesFrom s a = edgeAt s p := by
  unfold edgesFrom; rw [h.lookup_iff.2 hp]

theorem edgesFrom_eq_none (h : Wf s) {a : IpAddr} (hno : ∀ q, addrOf s q ≠ some a) : edgesFrom s a = fun _ => none := by
  unfold edgesFrom
  rw [show olsrLookupTcEntry s a = none from h.tcTree.find_eq_none.2 hno]

/-- Nodes whose entry and edges stay have the edges they had. -/
theorem edgesFrom_congr (h : Wf s) (h' : Wf s') {a : IpAddr}
    (hkept : ∀ q, addrOf s' q = some a ↔ addrOf s q = some a)
    (hedges : ∀ q, addrOf s q = some a → edgeAt s' q = edgeAt s q) : edgesFrom s' a = edgesFrom s a := by
  by_cases hex : ∃ q, addrOf s q = some a
  · obtain ⟨q, hq⟩ := hex
    rw [edgesFrom_eq h hq, edgesFrom_eq h' ((hkept q).2 hq), hedges q hq]
  · have hno : ∀ q, addrOf s q ≠ some a := fun q hq => hex ⟨q, hq⟩
    rw [edgesFrom_eq_none h hno, edgesFrom_eq_none h' fun q hq => hno q ((hkept q).1 hq)]

/-- The sequence numbers of the originator's entry let the message through. -/
def GateOpen (s : Lsdb Lq) (hd : TcHeader) : Prop :=
  ∀ p t, olsrLookupTcEntry s hd.originator = some p → s.tc p = some t → (tcGate t hd.msgSeq hd.ansn).2 = true

def IsTc (msg : Mem) : Prop := (msg 0).toNat = lqTcMessage ∨ (msg 0).toNat = tcMessage

theorem IsTc.not_discarded {msg : Mem} (h : IsTc msg) :
    ¬ ((pktGetU8 msg .start).1.toNat ≠ lqTcMessage ∧ (pktGetU8 msg .start).1.toNat ≠ tcMessage) := by
  rintro ⟨h1, h2⟩
  rcases h with h | h
  · exact h1 h
  · exact h2 h

/-- The header of a TC message. -/
def headerOf (env : Env Lq) (msg : Mem) : TcHeader := tcHeader env.cnf msg (Cursor.start.get 1)

/-- What an accepted message does to the edges of its originator and of the other nodes. -/
structure TcAccepted (env : Env Lq) (s : Lsdb Lq) (msg : Mem) (p : Ptr) (r : TcResult Lq) : Prop where
  wf : Wf r.db
  ordered : Ordered env r.db
  forward : r.forward = true
  cursor : r.cursor = (tcRecords env p (headerOf env msg) msg (edgesFrom s (headerOf env msg).originator)).2.1
  borderWrites : r.borderWrites =
    if (tcRecords env p (headerOf env msg) msg (edgesFrom s (headerOf env msg).originator)).2.2 = [] then []
    else tcBorderWrites env.platform env.cnf (headerOf env msg).lowerBorder (headerOf env msg).upperBorder
  edges : ¬ (headerOf env msg).cleansUp → edgesFrom r.db (headerOf env msg).originator =
    revokeWithin env (headerOf env msg).ansn
      (tcRecords env p (headerOf env msg) msg (edgesFrom s (headerOf env msg).originator)).1
      (tcBorders env (headerOf env msg)
        (tcRecords env p (headerOf env msg) msg (edgesFrom s (headerOf env msg).originator)).2.2)
  cleaned : (headerOf env msg).cleansUp → edgesFrom r.db (headerOf env msg).originator = fun _ => none
  others : ¬ (headerOf env msg).cleansUp →
    ∀ a, a ≠ (headerOf env msg).originator → edgesFrom r.db a = edgesFrom s a

/-- The entry of the originator, found or new, before a message of it is processed. -/
structure Prepared (s s₁ : Lsdb Lq) (p : Ptr) (a : IpAddr) : Prop where
  addr : addrOf s₁ p = some a
  edges : edgeAt s₁ p = edgesFrom s a
  others : ∀ a', a' ≠ a → edgesFrom s₁ a' = edgesFrom s a'

theorem TcDone.accepted {s₁ : Lsdb Lq} {p : Ptr} {msg : Mem} {r : TcResult Lq} (hw₁ : Wf s₁)
    (hpre : Prepared s s₁ p (headerOf env msg).originator) (hdone : TcDone env s₁ p (headerOf env msg) msg r) :
    TcAccepted env s msg p r := by
  refine ⟨hdone.wf, hdone.ordered, hdone.forward, ?_, ?_, fun hn => ?_, fun hy => ?_, fun hn a ha => ?_⟩
  · rw [← hpre.edges, hdone.cursor]
  · rw [← hpre.edges, hdone.borderWrites]
  · rw [← hpre.edges, edgesFrom_eq hdone.wf ((hdone.kept hn p).trans hpre.addr), hdone.edges hn]
  · refine edgesFrom_eq_none hdone.wf fun q hq => ?_
    rw [hdone.removed hy] at hq
    split at hq
    · cases hq
    · rename_i hqp; exact hqp (hw₁.tcTree.unique hq hpre.addr)
  · rw [← hpre.others a ha]
    have hne : ∀ q, addrOf s₁ q = some a → q ≠ p := by
      rintro q hq rfl
      exact ha (Option.some.inj (hq.symm.trans hpre.addr))
    refine edgesFrom_congr hw₁ hdone.wf (fun q => by rw [hdone.kept hn]) fun q hq => ?_
    exact hdone.others hn q (hne q hq)

theorem prepared_of_found (h : Wf s) {p : Ptr} {t : TcEntry} {a : IpAddr} (t' : TcEntry) (hp : addrOf s p = some a)
    (ht : s.tc p = some t) (hshape : t'.shape = t.shape) : Prepared s (s.setTc p t') p a := by
  have htree : t'.edgeTree = t.edgeTree := congrArg (fun x => x.2.1) hshape
  have haddr : ∀ q, addrOf (s.setTc p t') q = addrOf s q := addrOf_update rfl ht (congrArg (fun x => x.1) hshape)
  refine ⟨(haddr p).trans hp, ?_, fun a' _ => ?_⟩
  · rw [edgesFrom_eq h hp, edgeAt_setTc t' ht htree]
  · exact edgesFrom_congr h (wf_setTc h ht hshape) (fun q => by rw [haddr]) fun q _ => edgeAt_setTc t' ht htree q

theorem prepared_of_added (h : Wf s) (h' : Wf s') {p : Ptr} {a : IpAddr} (hno : ∀ q, addrOf s q ≠ some a)
    (hadd : EntryAdded s s' p a) : Prepared s s' p a := by
  refine ⟨by rw [hadd.addrOf, if_pos rfl], ?_, fun a' ha' => ?_⟩
  · rw [edgesFrom_eq_none h hno]
    funext b
    have htree := hadd.edgeTree p
    rw [if_pos rfl] at htree
    obtain ⟨t, ht, hnil⟩ := Option.map_eq_some_iff.1 htree
    exact (edgeAt_eq_none_iff h' ht).2 (by rw [hnil]; rfl)
  · have hp : addrOf s p = none := by
      unfold addrOf; rw [hadd.new]; rfl
    refine edgesFrom_congr h h' (fun q => ?_) fun q hq => ?_
    · rw [hadd.addrOf]
      split
      · rename_i hqp
        rw [hqp, hp]
        exact iff_of_false (fun hs => ha' (Option.some.inj hs).symm) (by simp)
      · rfl
    · have hqp : q ≠ p := by rintro rfl; rw [hp] at hq; cases hq
      refine edgeAt_eq_of_edgeTree ?_ hadd.edge
      rw [hadd.edgeTree, if_neg hqp]

theorem tcGate_shape (t : TcEntry) (msgSeq ansn : UInt16) : (tcGate t msgSeq ansn).1.shape = t.shape := by
  unfold tcGate
  dsimp only
  generalize (_ && _) = seen
  generalize (_ || _) = stray
  split
  · rfl
  cases seen
  · cases stray
    · rfl
    · cases t.errSeqValid <;> rfl
  · by_cases h : t.msgSeq = msgSeq
    · rw [if_pos rfl, if_pos h]
    · rw [if_pos rfl, if_neg h]; rfl

/-- The originator has an entry, or can be given one. -/
def EntryAvailable (env : Env Lq) (s : Lsdb Lq) (a : IpAddr) : Prop :=
  olsrLookupTcEntry s a = none → env.cnf.HasMainAddr

/-- A message from a symmetric neighbour with new sequence numbers is processed for the entry of its
originator. -/
theorem olsrInputTc_processes (env : Env Lq) (h : Wf s) (ho : Ordered env s) {msg : Mem} (htype : IsTc msg)
    (hgate : GateOpen s (headerOf env msg)) (hentry : EntryAvailable env s (headerOf env msg).originator) :
    ∃ s₁ p t, Wf s₁ ∧ Ordered env s₁ ∧ Prepared s s₁ p (headerOf env msg).originator ∧ s₁.tc p = some t ∧
      olsrInputTc env s true msg = processTc env s₁ p (headerOf env msg) msg := by
  have htype' := htype.not_discarded
  cases hp : olsrLookupTcEntry s (headerOf env msg).originator with
  | none =>
    obtain ⟨s₁, o, hs₁, hw₁, hz, hadd⟩ := olsrAddTcEntry_spec env h hp
    cases o with
    | none =>
      have hmain := hentry hp
      unfold Cnf.HasMainAddr at hmain
      rw [hz rfl] at hmain; cases hmain
    | some p =>
      have hadd := hadd p rfl
      have hno : ∀ q, addrOf s q ≠ some (headerOf env msg).originator := h.tcTree.find_eq_none.1 hp
      have hpre := prepared_of_added h hw₁ hno hadd
      obtain ⟨t, ht, -⟩ := exists_tc_of_addrOf hpre.addr
      have ho₁ : Ordered env s₁ := by
        intro q t' hq
        have htree := hadd.edgeTree q
        rw [hq, Option.map_some] at htree
        split at htree
        · rw [Option.some.inj htree]; exact List.Pairwise.nil
        · obtain ⟨t'', ht'', heq⟩ := Option.map_eq_some_iff.1 htree.symm
          rw [← heq]; exact ho q t'' ht''
      refine ⟨s₁, p, t, hw₁, ho₁, hpre, ht, ?_⟩
      have hp' : olsrLookupTcEntry s (tcHeader env.cnf msg (pktGetU8 msg .start).2).originator = none := hp
      have hs₁' : olsrAddTcEntry env s (tcHeader env.cnf msg (pktGetU8 msg .start).2).originator = some (s₁, some p) :=
        hs₁
      unfold olsrInputTc
      simp only [if_neg htype', Bool.not_true, Bool.false_eq_true, if_false, hp', hs₁', Option.bind_eq_bind,
        Option.bind_some]
      rfl
  | some p =>
    have haddr := h.lookup_iff.1 hp
    obtain ⟨t, ht, -⟩ := exists_tc_of_addrOf haddr
    have hshape := tcGate_shape t (headerOf env msg).msgSeq (headerOf env msg).ansn
    have hpre := prepared_of_found h _ haddr ht hshape
    obtain ⟨t₁, ht₁, -⟩ := exists_tc_of_addrOf hpre.addr
    refine ⟨_, p, t₁, wf_setTc h ht hshape, ordered_setTc ht (congrArg (fun x => x.2.1) hshape) ho, hpre, ht₁, ?_⟩
    have hp' : olsrLookupTcEntry s (tcHeader env.cnf msg (pktGetU8 msg .start).2).originator = some p := hp
    have hopen : (tcGate t (tcHeader env.cnf msg (pktGetU8 msg .start).2).msgSeq
        (tcHeader env.cnf msg (pktGetU8 msg .start).2).ansn).2 = true := hgate p t hp ht
    unfold olsrInputTc
    simp only [if_neg htype', Bool.not_true, Bool.false_eq_true, if_false, hp', ht, hopen, if_true,
      Option.bind_eq_bind, Option.bind_some]
    rfl

theorem olsrInputTc_accepted (env : Env Lq) (h : Wf s) (ho : Ordered env s) {msg : Mem} (htype : IsTc msg)
    (hgate : GateOpen s (headerOf env msg)) (hentry : EntryAvailable env s (headerOf env msg).originator) :
    ∃ r p, olsrInputTc env s true msg = some r ∧ TcAccepted env s msg p r := by
  obtain ⟨s₁, p, t, hw₁, ho₁, hpre, ht, heq⟩ := olsrInputTc_processes env h ho htype hgate hentry
  obtain ⟨r, hr, hdone⟩ := processTc_spec env hw₁ ho₁ ht (headerOf env msg) msg
  exact ⟨r, p, heq.trans hr, hdone.accepted hw₁ hpre⟩

/-- Without an entry for the originator the message is processed on a null pointer. -/
theorem olsrInputTc_eq_none (env : Env Lq) {msg : Mem} (htype : IsTc msg)
    (hentry : ¬ EntryAvailable env s (headerOf env msg).originator) : olsrInputTc env s true msg = none := by
  have htype' := htype.not_discarded
  simp only [EntryAvailable, Classical.not_imp, Cnf.HasMainAddr, Bool.not_eq_false] at hentry
  obtain ⟨hp, hmain⟩ := hentry
  have hp' : olsrLookupTcEntry s (tcHeader env.cnf msg (pktGetU8 msg .start).2).originator = none := hp
  unfold olsrInputTc
  simp only [if_neg htype', Bool.not_true, Bool.false_eq_true, if_false, hp', olsrAddTcEntry, hmain, if_true]
  rfl

/-- A message with old sequence numbers only changes the counters of its originator's entry. -/
theorem olsrInputTc_of_closed (env : Env Lq) {msg : Mem} (htype : IsTc msg) {p : Ptr} {t : TcEntry}
    (hp : olsrLookupTcEntry s (headerOf env msg).originator = some p) (ht : s.tc p = some t)
    (hclosed : (tcGate t (headerOf env msg).msgSeq (headerOf env msg).ansn).2 = false) :
    olsrInputTc env s true msg = some ⟨s.setTc p (tcGate t (headerOf env msg).msgSeq (headerOf env msg).ansn).1,
      (headerOf env msg).cursor, [], false, false, false, false⟩ := by
  have htype' := htype.not_discarded
  have hp' : olsrLookupTcEntry s (tcHeader env.cnf msg (pktGetU8 msg .start).2).originator = some p := hp
  have hclosed' : (tcGate t (tcHeader env.cnf msg (pktGetU8 msg .start).2).msgSeq
      (tcHeader env.cnf msg (pktGetU8 msg .start).2).ansn).2 = false := hclosed
  unfold olsrInputTc
  simp only [if_neg htype', Bool.not_true, Bool.false_eq_true, if_false, hp', ht, hclosed', Option.bind_eq_bind,
    Option.bind_some]
  rfl

theorem olsrInputTc_refused (env : Env Lq) (h : Wf s) {msg : Mem} (htype : IsTc msg)
    (hgate : ¬ GateOpen s (headerOf env msg)) : ∃ s', Wf s' ∧
      olsrInputTc env s true msg = some ⟨s', (headerOf env msg).cursor, [], false, false, false, false⟩ := by
  simp only [GateOpen, not_forall] at hgate
  obtain ⟨p, t, hp, ht, hclosed⟩ := hgate
  exact ⟨_, wf_setTc h ht (tcGate_shape t (headerOf env msg).msgSeq (headerOf env msg).ansn),
    olsrInputTc_of_closed env htype hp ht (Bool.eq_false_iff.2 hclosed)⟩

/-- Other messages, and messages from elsewhere, are not looked at beyond their type. -/
theorem olsrInputTc_ignored (env : Env Lq) (s : Lsdb Lq) {symLink : Bool} {msg : Mem}
    (h : ¬ (IsTc msg ∧ symLink = true)) :
    olsrInputTc env s symLink msg = some ⟨s, Cursor.start.get 1, [], false, false, false, false⟩ := by
  unfold olsrInputTc
  dsimp only
  split
  · rfl
  · rename_i htype
    have hsym : symLink = false := by
      refine Bool.eq_false_iff.2 fun hsym => h ⟨?_, hsym⟩
      by_contra hn
      exact htype (not_or.1 hn)
    rw [hsym]; rfl

end Olsrd.Topology
