/-
What a TC message does to the edges of its originator, seen as a map from destinations to edges. The
walk of `olsr_input_tc` over the records of a message refines a walk over this map, which follows no
pointer and always has a result.
-/
import Olsrd.Topology.TcMessage
import Olsrd.Topology.Operations

namespace Olsrd.Topology

open Bytes

variable {Lq : Type} {env : Env Lq} {s s' : Lsdb Lq}

/-! ## The edges of an entry -/

abbrev EdgeMap (Lq : Type) := IpAddr → Option (TcEdgeEntry Lq)

/-- The edges of the entry `p` by destination, without their inverse pointers. -/
def edgeAt (s : Lsdb Lq) (p : Ptr) : EdgeMap Lq := fun b => do
  let t ← s.tc p
  let e ← Keyed.find b t.edgeTree
  let d ← s.edge e
  pure d.core

theorem edgeAt_eq_some_iff (h : Wf s) {p : Ptr} {b : IpAddr} {x : TcEdgeEntry Lq} :
    edgeAt s p b = some x ↔ x.tc = p ∧ x.destAddr = b ∧ ∃ e, (s.edge e).map TcEdgeEntry.core = some x := by
  constructor
  · intro hx
    obtain ⟨t, ht, hx⟩ := Option.bind_eq_some_iff.1 hx
    obtain ⟨e, he, hx⟩ := Option.bind_eq_some_iff.1 hx
    obtain ⟨d, hd, hx⟩ := Option.bind_eq_some_iff.1 hx
    obtain rfl := Option.some.inj hx
    obtain ⟨d', hd', htc, hdest⟩ := (h.edgeTree p t ht).find_iff.1 he
    obtain rfl : d = d' := Option.some.inj (hd.symm.trans hd')
    exact ⟨htc, hdest, e, by rw [hd]; rfl⟩
  · rintro ⟨htc, hdest, e, he⟩
    obtain ⟨d, hd, rfl⟩ := Option.map_eq_some_iff.1 he
    obtain ⟨t, ht⟩ := h.edgeTc e d hd
    have hp : d.tc = p := htc
    rw [hp] at ht
    have hfind : Keyed.find b t.edgeTree = some e := (h.edgeTree p t ht).find_iff.2 ⟨d, hd, hp, hdest⟩
    simp [edgeAt, ht, hfind, hd]

theorem edgeAt_eq_none_iff (h : Wf s) {p : Ptr} {t : TcEntry} {b : IpAddr} (ht : s.tc p = some t) :
    edgeAt s p b = none ↔ Keyed.find b t.edgeTree = none := by
  constructor
  · intro hx
    rw [(h.edgeTree p t ht).find_eq_none]
    rintro e ⟨d, hd, htc, hdest⟩
    have hsome : edgeAt s p b = some d.core := (edgeAt_eq_some_iff h).2 ⟨htc, hdest, e, by rw [hd]; rfl⟩
    rw [hx] at hsome; cases hsome
  · intro hf
    simp [edgeAt, ht, hf]

/-- Every other map that agrees on edges agrees on the map. -/
theorem edgeAt_congr (h : Wf s) (h' : Wf s') {p : Ptr}
    (heq : ∀ x : TcEdgeEntry Lq, x.tc = p → ((∃ e, (s'.edge e).map TcEdgeEntry.core = some x) ↔
      ∃ e, (s.edge e).map TcEdgeEntry.core = some x)) : edgeAt s' p = edgeAt s p := by
  funext b
  refine Option.ext fun x => ?_
  rw [edgeAt_eq_some_iff h', edgeAt_eq_some_iff h]
  exact and_congr_right fun hp => and_congr_right fun _ => heq x hp

/-- One edge to `b` more, or another edge to `b`. -/
theorem edgeAt_update (h : Wf s) (h' : Wf s') {p : Ptr} {e : Ptr} {y : TcEdgeEntry Lq} (hp : y.tc = p)
    (hnew : (s'.edge e).map TcEdgeEntry.core = some y)
    (hothers : ∀ g, g ≠ e → (s'.edge g).map TcEdgeEntry.core = (s.edge g).map TcEdgeEntry.core)
    (hold : ∀ x, (s.edge e).map TcEdgeEntry.core = some x → x.tc = p ∧ x.destAddr = y.destAddr) :
    edgeAt s' p = Function.update (edgeAt s p) y.destAddr (some y) := by
  funext b
  refine Option.ext fun x => ?_
  by_cases hb : b = y.destAddr
  · subst hb
    rw [Function.update_self]
    have hy : edgeAt s' p y.destAddr = some y := (edgeAt_eq_some_iff h').2 ⟨hp, rfl, e, hnew⟩
    rw [hy]
  · rw [Function.update_of_ne hb, edgeAt_eq_some_iff h', edgeAt_eq_some_iff h]
    refine and_congr_right fun _ => and_congr_right fun hx => exists_congr fun g => ?_
    by_cases hg : g = e
    · subst hg
      rw [hnew]
      refine iff_of_false (fun hxy => ?_) fun hxo => ?_
      · rw [← hx, ← Option.some.inj hxy] at hb; exact hb rfl
      · exact hb (hx.symm.trans (hold x hxo).2)
    · rw [hothers g hg]

theorem edgeAt_other (h : Wf s) (h' : Wf s') {p q e : Ptr} (hqp : q ≠ p)
    (hnew : ∀ x, (s'.edge e).map TcEdgeEntry.core = some x → x.tc = p)
    (hothers : ∀ g, g ≠ e → (s'.edge g).map TcEdgeEntry.core = (s.edge g).map TcEdgeEntry.core)
    (hold : ∀ x, (s.edge e).map TcEdgeEntry.core = some x → x.tc = p) : edgeAt s' q = edgeAt s q := by
  refine edgeAt_congr h h' fun x hx => exists_congr fun g => ?_
  by_cases hg : g = e
  · subst hg
    exact iff_of_false (fun hxo => hqp (hx ▸ hnew x hxo)) fun hxo => hqp (hx ▸ hold x hxo)
  · rw [hothers g hg]

/-! ## One record -/

/-- The address at the cursor. -/
def recordAddr (env : Env Lq) (msg : Mem) (c : Cursor) : IpAddr := msg.slice c.curr env.cnf.ipsize

/-- The link quality pair behind the address at the cursor, as it is stored. -/
def recordLq (env : Env Lq) (msg : Mem) (c : Cursor) : Lq :=
  env.lq.deserializeTcLq (msg.slice (c.curr + env.cnf.ipsize) 4)

/-- The edge that a record leaves, if there is one: a known edge is updated, a new one is created. -/
def recordEdge (env : Env Lq) (p : Ptr) (ansn : UInt16) (msg : Mem) (c : Cursor) :
    Option (TcEdgeEntry Lq) → Option (TcEdgeEntry Lq)
  | some d =>
    if env.cnf.lqLevel > 0 then
      some (olsrCalcTcEdgeEntryEtx env { d with ansn := ansn, linkquality := recordLq env msg c }).1
    else some { d with ansn := ansn }
  | none =>
    if olsrValidateAddress env.cnf (recordAddr env msg c) then
      some { newEdge env p (recordAddr env msg c) ansn with linkquality := recordLq env msg c }
    else none

/-- The cursor behind a record. -/
def recordCursor (env : Env Lq) (msg : Mem) (c : Cursor) : Option (TcEdgeEntry Lq) → Cursor
  | some _ => if env.cnf.lqLevel > 0 then (deserializeLqPair env.lq.pair msg (c.get env.cnf.ipsize)).2
      else c.get env.cnf.ipsize
  | none => if olsrValidateAddress env.cnf (recordAddr env msg c)
      then (deserializeLqPair env.lq.pair msg (c.get env.cnf.ipsize)).2 else c.get env.cnf.ipsize

theorem recordCursor_end (env : Env Lq) (msg : Mem) (c : Cursor) (o : Option (TcEdgeEntry Lq)) :
    (recordCursor env msg c o).curr = c.curr +
      if (if o.isSome then decide (0 < env.cnf.lqLevel) else olsrValidateAddress env.cnf (recordAddr env msg c))
      then env.cnf.ipsize + 4 else env.cnf.ipsize := by
  unfold recordCursor
  cases o with
  | none =>
    cases olsrValidateAddress env.cnf (recordAddr env msg c)
    · simp
    · simp; omega
  | some d =>
    by_cases hlq : 0 < env.cnf.lqLevel
    · simp [hlq]; omega
    · simp [hlq]

theorem recordEdge_isSome (env : Env Lq) (p : Ptr) (ansn : UInt16) (msg : Mem) (c : Cursor)
    (o : Option (TcEdgeEntry Lq)) :
    (recordEdge env p ansn msg c o).isSome = (o.isSome || olsrValidateAddress env.cnf (recordAddr env msg c)) := by
  unfold recordEdge
  cases o with
  | none => cases olsrValidateAddress env.cnf (recordAddr env msg c) <;> simp
  | some d => dsimp only; split <;> rfl

/-- The edge of a record has the number and the link quality of the message. -/
theorem recordEdge_stamp {env : Env Lq} {p : Ptr} {ansn : UInt16} {msg : Mem} {c : Cursor}
    {o : Option (TcEdgeEntry Lq)} {d : TcEdgeEntry Lq} (h : recordEdge env p ansn msg c o = some d) :
    d.ansn = ansn ∧ (0 < env.cnf.lqLevel → d.linkquality = recordLq env msg c) := by
  unfold recordEdge at h
  cases o with
  | none =>
    dsimp only at h
    split at h
    · obtain rfl := Option.some.inj h
      refine ⟨?_, fun _ => rfl⟩
      show (newEdge env p (recordAddr env msg c) ansn).ansn = ansn
      unfold newEdge olsrCalcTcEdgeEntryEtx
      split <;> rfl
    · cases h
  | some d₀ =>
    dsimp only at h
    split at h
    · rename_i hlq
      obtain rfl := Option.some.inj h
      unfold olsrCalcTcEdgeEntryEtx
      rw [if_neg (by omega)]
      exact ⟨rfl, fun _ => rfl⟩
    · rename_i hlq
      obtain rfl := Option.some.inj h
      exact ⟨rfl, fun hpos => absurd hpos hlq⟩

/-- What `olsr_tc_update_edge` does, in terms of the edge map. -/
structure RecordDone (env : Env Lq) (s : Lsdb Lq) (p : Ptr) (ansn : UInt16) (msg : Mem) (c : Cursor)
    (u : EdgeUpdate Lq) : Prop where
  wf : Wf u.db
  neighbor : u.neighbor = recordAddr env msg c
  cursor : u.cursor = recordCursor env msg c (edgeAt s p (recordAddr env msg c))
  edges : edgeAt u.db p = Function.update (edgeAt s p) (recordAddr env msg c)
    (recordEdge env p ansn msg c (edgeAt s p (recordAddr env msg c)))
  others : ∀ q, q ≠ p → edgeAt u.db q = edgeAt s q
  addrOf : ∀ q, addrOf u.db q = addrOf s q
  ordered : Ordered env s → Ordered env u.db

theorem addrOf_of_tc_eq (h : s'.tc = s.tc) (q : Ptr) : addrOf s' q = addrOf s q := by
  unfold addrOf; rw [h]

theorem recordDone_of_known (h : Wf s) {p e : Ptr} {t : TcEntry} {ansn : UInt16} {msg : Mem} {c : Cursor}
    (ht : s.tc p = some t) (hf : Keyed.find (recordAddr env msg c) t.edgeTree = some e) :
    ∃ u, olsrTcUpdateEdge env s p ansn msg c = some u ∧ RecordDone env s p ansn msg c u := by
  obtain ⟨d, hd, hp, hdest⟩ := (h.edgeTree p t ht).find_iff.1 hf
  have hat : edgeAt s p (recordAddr env msg c) = some d.core :=
    (edgeAt_eq_some_iff h).2 ⟨hp, hdest, e, by rw [hd]; rfl⟩
  -- the new edge, with and without its inverse pointer
  obtain ⟨d', hd', hcore, htc, hdest', hinv⟩ : ∃ d' : TcEdgeEntry Lq,
      olsrTcUpdateEdge env s p ansn msg c = some ⟨s.setEdge e d', recordCursor env msg c (some d.core),
        recordAddr env msg c, (olsrCalcTcEdgeEntryEtx env d').2⟩ ∧
      some d'.core = recordEdge env p ansn msg c (some d.core) ∧ d'.tc = d.tc ∧ d'.destAddr = d.destAddr ∧
      d'.edgeInv = d.edgeInv := by
    have hfind : Keyed.find (pktGetIpaddress env.cnf msg c).1 t.edgeTree = some e := hf
    by_cases hlq : env.cnf.lqLevel > 0
    · have hlq' : ¬ env.cnf.lqLevel < 1 := by omega
      let q := recordLq env msg c
      refine ⟨{ d with ansn := ansn, linkquality := q, cost := env.lq.calcTcCost q }, ?_, ?_, rfl, rfl, rfl⟩
      · simp only [olsrTcUpdateEdge, olsrLookupTcEdge, ht, hfind, hd, hlq, recordCursor, olsrCalcTcEdgeEntryEtx, hlq',
          Option.bind_eq_bind, Option.bind_some, Option.pure_def, if_true, if_false]
        rfl
      · simp [recordEdge, hlq, olsrCalcTcEdgeEntryEtx, hlq', TcEdgeEntry.core, q]
    · have hlq' : env.cnf.lqLevel < 1 := by omega
      refine ⟨{ d with ansn := ansn }, ?_, ?_, rfl, rfl, rfl⟩
      · simp only [olsrTcUpdateEdge, olsrLookupTcEdge, ht, hfind, hd, hlq, recordCursor, olsrCalcTcEdgeEntryEtx, hlq',
          Option.bind_eq_bind, Option.bind_some, Option.pure_def, if_true, if_false]
        rfl
      · simp [recordEdge, hlq, TcEdgeEntry.core]
  have hw : Wf (s.setEdge e d') := wf_setEdge h hd htc hdest' hinv
  have hset : ((s.setEdge e d').edge e).map TcEdgeEntry.core = some d'.core := by
    show (Function.update s.edge e (some d') e).map _ = _
    rw [Function.update_self]; rfl
  have hothers : ∀ g, g ≠ e → ((s.setEdge e d').edge g).map TcEdgeEntry.core = (s.edge g).map TcEdgeEntry.core := by
    intro g hg
    show (Function.update s.edge e (some d') g).map _ = _
    rw [Function.update_of_ne hg]
  have hold : ∀ x, (s.edge e).map TcEdgeEntry.core = some x → x.tc = p ∧ x.destAddr = d'.core.destAddr := by
    intro x hx
    rw [hd, Option.map_some] at hx
    rw [← Option.some.inj hx]
    exact ⟨hp, hdest'.symm⟩
  refine ⟨_, hd', hw, rfl, by rw [hat], ?_, ?_, addrOf_of_tc_eq rfl, id⟩
  · rw [hat, ← hcore, ← hdest, ← hdest']
    exact edgeAt_update (y := d'.core) h hw (htc.trans hp) hset hothers hold
  · intro q hq
    refine edgeAt_other h hw hq (fun x hx => ?_) hothers fun x hx => (hold x hx).1
    rw [hset] at hx
    rw [← Option.some.inj hx]; exact htc.trans hp

theorem recordDone_of_refused (h : Wf s) {p : Ptr} {t : TcEntry} {ansn : UInt16} {msg : Mem} {c : Cursor}
    (ht : s.tc p = some t) (hf : Keyed.find (recordAddr env msg c) t.edgeTree = none)
    (hval : olsrValidateAddress env.cnf (recordAddr env msg c) = false) :
    ∃ u, olsrTcUpdateEdge env s p ansn msg c = some u ∧ RecordDone env s p ansn msg c u := by
  have hat := (edgeAt_eq_none_iff h ht).2 hf
  have hfind : Keyed.find (pktGetIpaddress env.cnf msg c).1 t.edgeTree = none := hf
  have hval' : olsrValidateAddress env.cnf (pktGetIpaddress env.cnf msg c).1 = false := hval
  refine ⟨⟨s, c.get env.cnf.ipsize, recordAddr env msg c, false⟩, ?_, h, rfl, ?_, ?_, fun _ _ => rfl, fun _ => rfl,
    id⟩
  · simp only [olsrTcUpdateEdge, olsrLookupTcEdge, ht, hfind, hval', Option.bind_eq_bind, Option.bind_some,
      Option.pure_def, Bool.not_false, if_true]
    rfl
  · simp [recordCursor, hat, hval]
  · rw [hat]
    simp only [recordEdge, hval, Bool.false_eq_true, if_false]
    rw [← hat, Function.update_eq_self]

theorem recordDone_of_new (h : Wf s) {p : Ptr} {t : TcEntry} {ansn : UInt16} {msg : Mem} {c : Cursor}
    (ht : s.tc p = some t) (hf : Keyed.find (recordAddr env msg c) t.edgeTree = none)
    (hval : olsrValidateAddress env.cnf (recordAddr env msg c) = true) :
    ∃ u, olsrTcUpdateEdge env s p ansn msg c = some u ∧ RecordDone env s p ansn msg c u := by
  have hat := (edgeAt_eq_none_iff h ht).2 hf
  have hfind : Keyed.find (pktGetIpaddress env.cnf msg c).1 t.edgeTree = none := hf
  have hval' : olsrValidateAddress env.cnf (pktGetIpaddress env.cnf msg c).1 = true := hval
  obtain ⟨s₁, hs₁, hw₁, hadd⟩ := olsrAddTcEdgeEntry_spec env h ansn ht hf
  have hs₁' : olsrAddTcEdgeEntry env s p (pktGetIpaddress env.cnf msg c).1 ansn = some (s₁, s.fresh) := hs₁
  obtain ⟨d, hd, hcore⟩ := Option.map_eq_some_iff.1 hadd.new
  have hends : d.tc = p ∧ d.destAddr = recordAddr env msg c := by
    have h1 := congrArg TcEdgeEntry.tc hcore
    have h2 := congrArg TcEdgeEntry.destAddr hcore
    have h3 := (olsrCalcTcEdgeEntryEtx_core env
      ⟨recordAddr env msg c, none, p, 0, ansn, env.lq.zeroLq⟩).2.1
    exact ⟨h1.trans (congrArg Prod.fst h3), h2.trans (congrArg Prod.snd h3)⟩
  let d' : TcEdgeEntry Lq := { d with linkquality := recordLq env msg c }
  have hw : Wf (s₁.setEdge s.fresh d') := wf_setEdge hw₁ hd rfl rfl rfl
  have hset : ((s₁.setEdge s.fresh d').edge s.fresh).map TcEdgeEntry.core = some d'.core := by
    show (Function.update s₁.edge s.fresh (some d') s.fresh).map _ = _
    rw [Function.update_self]; rfl
  have hothers : ∀ g, g ≠ s.fresh →
      ((s₁.setEdge s.fresh d').edge g).map TcEdgeEntry.core = (s.edge g).map TcEdgeEntry.core := by
    intro g hg
    show (Function.update s₁.edge s.fresh (some d') g).map _ = _
    rw [Function.update_of_ne hg, hadd.others g hg]
  have hold : ∀ x, (s.edge s.fresh).map TcEdgeEntry.core = some x → False := by
    intro x hx; rw [(h.fresh _ le_rfl).2.1] at hx; cases hx
  refine ⟨⟨s₁.setEdge s.fresh d', (deserializeLqPair env.lq.pair msg (c.get env.cnf.ipsize)).2,
    recordAddr env msg c, true⟩, ?_, hw, rfl, ?_, ?_, ?_, ?_, hadd.ordered ht⟩
  · simp only [olsrTcUpdateEdge, olsrLookupTcEdge, ht, hfind, hval', hs₁', hd, Option.bind_eq_bind, Option.bind_some,
      Option.pure_def, Bool.not_true, Bool.false_eq_true, if_false]
    rfl
  · simp [recordCursor, hat, hval]
  · have hedge : recordEdge env p ansn msg c none = some d'.core := by
      have : d'.core = { newEdge env p (recordAddr env msg c) ansn with
          linkquality := recordLq env msg c, edgeInv := none } :=
        congrArg (fun x : TcEdgeEntry Lq => { x with linkquality := recordLq env msg c, edgeInv := none }) hcore
      simp only [recordEdge, hval, if_true, this]
      have hinv := (olsrCalcTcEdgeEntryEtx_core env
        ⟨recordAddr env msg c, none, p, 0, ansn, env.lq.zeroLq⟩).2.2
      have hinv' : (newEdge env p (recordAddr env msg c) ansn).edgeInv = none := hinv
      rw [hinv']
    rw [hat, hedge, ← hends.2]
    exact edgeAt_update (y := d'.core) h hw hends.1 hset hothers fun x hx => (hold x hx).elim
  · intro q hq
    refine edgeAt_other h hw hq (fun x hx => ?_) hothers fun x hx => (hold x hx).elim
    rw [hset] at hx
    rw [← Option.some.inj hx]; exact hends.1
  · exact addrOf_update (show (s₁.setEdge s.fresh d').tc = _ from hadd.tc) ht rfl

/-- `olsr_tc_update_edge` always has a result, and does to the edge map what `recordEdge` says. -/
theorem olsrTcUpdateEdge_spec (env : Env Lq) (h : Wf s) {p : Ptr} {t : TcEntry} (ht : s.tc p = some t)
    (ansn : UInt16) (msg : Mem)
    (c : Cursor) : ∃ u, olsrTcUpdateEdge env s p ansn msg c = some u ∧ RecordDone env s p ansn msg c u := by
  cases hf : Keyed.find (recordAddr env msg c) t.edgeTree with
  | some e => exact recordDone_of_known h ht hf
  | none =>
    cases hval : olsrValidateAddress env.cnf (recordAddr env msg c) with
    | false => exact recordDone_of_refused h ht hf hval
    | true => exact recordDone_of_new h ht hf hval

/-! ## All records -/

theorem recordCursor_curr (env : Env Lq) (msg : Mem) (c : Cursor) (o : Option (TcEdgeEntry Lq)) :
    c.curr + env.cnf.ipsize ≤ (recordCursor env msg c o).curr := by
  unfold recordCursor
  cases o with
  | some d => dsimp only; split <;> simp
  | none => dsimp only; split <;> simp

/-- The walk over the records of a message up to `limit`: the edge map, the cursor and the addresses
of the records. -/
def recordWalk (env : Env Lq) (p : Ptr) (ansn : UInt16) (msg : Mem) (limit : Nat) (E : EdgeMap Lq) (c : Cursor) :
    EdgeMap Lq × Cursor × List IpAddr :=
  if c.curr < limit then
    let a := recordAddr env msg c
    let rest := recordWalk env p ansn msg limit (Function.update E a (recordEdge env p ansn msg c (E a)))
      (recordCursor env msg c (E a))
    (rest.1, rest.2.1, a :: rest.2.2)
  else (E, c, [])
termination_by limit - c.curr
decreasing_by
  have := recordCursor_curr env msg c (E (recordAddr env msg c))
  have := env.cnf.ipsize_pos
  omega

/-- The first and the last address a walk has seen, after those it saw before. -/
def bordersAfter (b : Option (IpAddr × IpAddr)) (addrs : List IpAddr) : Option (IpAddr × IpAddr) :=
  addrs.foldl (fun b a => some ((b.map Prod.fst).getD a, a)) b

/-- What the record loop of `olsr_input_tc` does, in terms of the edge map. -/
structure WalkDone (env : Env Lq) (p : Ptr) (w w' : TcWalk Lq) (r : EdgeMap Lq × Cursor × List IpAddr) : Prop where
  wf : Wf w'.db
  edges : edgeAt w'.db p = r.1
  cursor : w'.cursor = r.2.1
  borders : w'.borders = bordersAfter w.borders r.2.2
  others : ∀ q, q ≠ p → edgeAt w'.db q = edgeAt w.db q
  addrOf : ∀ q, addrOf w'.db q = addrOf w.db q
  ordered : Ordered env w.db → Ordered env w'.db

theorem tcWalk_spec (env : Env Lq) (p : Ptr) (ansn : UInt16) (msg : Mem) (limit : Nat) (E : EdgeMap Lq) (c : Cursor)
    (w : TcWalk Lq) (hw : Wf w.db) (hp : ∃ a, addrOf w.db p = some a) (hE : edgeAt w.db p = E)
    (hc : w.cursor = c) : ∃ w', tcWalk env p ansn msg limit w = some w' ∧
      WalkDone env p w w' (recordWalk env p ansn msg limit E c) := by
  fun_induction recordWalk env p ansn msg limit E c generalizing w with
  | case1 E c hlt a rest ih =>
    obtain ⟨a₀, ha₀⟩ := hp
    obtain ⟨t, ht, -⟩ := exists_tc_of_addrOf ha₀
    obtain ⟨u, hu, hdone⟩ := olsrTcUpdateEdge_spec env hw ht ansn msg w.cursor
    subst hE hc
    obtain ⟨w', hw', hwalk⟩ := ih (w.next u) hdone.wf ⟨a₀, (hdone.addrOf p).trans ha₀⟩ hdone.edges hdone.cursor
    refine ⟨w', ?_, hwalk.wf, hwalk.edges, hwalk.cursor, ?_, fun q hq => ?_, fun q => ?_,
      fun ho => hwalk.ordered (hdone.ordered ho)⟩
    · rw [tcWalk, if_pos hlt]
      split
      · rename_i hnone; rw [hnone] at hu; cases hu
      · rename_i u' hu'
        rw [hu] at hu'
        rw [← Option.some.inj hu']; exact hw'
    · rw [hwalk.borders, TcWalk.next, hdone.neighbor]; rfl
    · exact (hwalk.others q hq).trans (hdone.others q hq)
    · exact (hwalk.addrOf q).trans (hdone.addrOf q)
  | case2 E c hlt =>
    subst hc
    refine ⟨w, by rw [tcWalk, if_neg hlt], hw, hE, rfl, rfl, fun _ _ => rfl, fun _ => rfl, id⟩

end Olsrd.Topology
