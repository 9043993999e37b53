/-
The node's own entry of the link state database, `tc_myself`, and what `olsr_change_myself_tc` makes of
it when the main address has changed: the old entry goes, and `olsr_add_tc_entry` is called for the new
address without looking whether the database has an entry for it.
-/
import Olsrd.Topology.Reachable

namespace Olsrd.Topology

open Keyed

variable {Lq : Type} {env : Env Lq} {s s' : Lsdb Lq}

/-! ## The own entry -/

/-- The database with the pointer `tc_myself` and the flag `changes_topology`. -/
structure OwnTopology (Lq : Type) where
  lsdb : Lsdb Lq
  tcMyself : Option Ptr
  changesTopology : Bool

/-- The last two statements of `olsr_change_myself_tc`. -/
def addMyself (env : Env Lq) (s : Lsdb Lq) : Option (OwnTopology Lq) := do
  let (s, tc) ← olsrAddTcEntry env s env.cnf.mainAddr
  pure ⟨s, tc, true⟩

/-- `olsr_change_myself_tc` -/
def olsrChangeMyselfTc (env : Env Lq) (n : OwnTopology Lq) : Option (OwnTopology Lq) :=
  match n.tcMyself with
  | none => addMyself env n.lsdb
  | some p => do
    let t ← n.lsdb.tc p
    -- check if there was a change
    if ipequal env.cnf t.addr env.cnf.mainAddr then pure n
    else do
      let s ← olsrDeleteTcEntry env n.lsdb p
      addMyself env s

/-- `tc_myself` is `NULL` or points to an entry, and addresses have their `ipsize` bytes. -/
structure OwnWf (cnf : Cnf) (n : OwnTopology Lq) : Prop where
  lsdb : Wf n.lsdb
  live : ∀ p, n.tcMyself = some p → ∃ t, n.lsdb.tc p = some t
  addrSize : ∀ p a, addrOf n.lsdb p = some a → a.length = cnf.ipsize
  mainSize : cnf.mainAddr.length = cnf.ipsize

/-- What a change of the main address should leave behind. -/
structure OwnRoot (cnf : Cnf) (before after : OwnTopology Lq) : Prop where
  /-- `tc_myself` is what a lookup of the main address finds -/
  root : ∃ p, after.tcMyself = some p ∧ olsrLookupTcEntry after.lsdb cnf.mainAddr = some p
  /-- it is in the tree once, and the tree has nothing else under the main address -/
  once : ∀ p, after.tcMyself = some p →
    after.lsdb.tcTree.filter (fun e => e.1 == cnf.mainAddr || e.2 == p) = [(cnf.mainAddr, p)]
  /-- no other entry has the main address -/
  only : ∀ p q, after.tcMyself = some p → addrOf after.lsdb q = some cnf.mainAddr → q = p
  /-- the old entry is gone, so SPF does not start there -/
  previous : ∀ p a, before.tcMyself = some p → addrOf before.lsdb p = some a → a ≠ cnf.mainAddr →
    ∀ q, addrOf after.lsdb q ≠ some a

/-- The own entry has the main address. -/
def OwnAddrIsMain (cnf : Cnf) (n : OwnTopology Lq) : Prop :=
  ∃ p, n.tcMyself = some p ∧ addrOf n.lsdb p = some cnf.mainAddr

/-! ## The new entry -/

theorem filter_eq_singleton {α : Type} {l : List α} {f : α → Bool} {a : α} (hnd : l.Nodup)
    (h : ∀ x, x ∈ l ∧ f x = true ↔ x = a) : l.filter f = [a] := by
  rw [← List.perm_singleton, List.perm_ext_iff_of_nodup (hnd.filter f) (List.nodup_singleton a)]
  intro x
  rw [List.mem_filter, h, List.mem_singleton]

/-- An entry of a well-formed database is in the tree once, alone under its address. -/
theorem Wf.filter_tcTree (h : Wf s) {p : Ptr} {a : IpAddr} (ha : addrOf s p = some a) :
    s.tcTree.filter (fun e => e.1 == a || e.2 == p) = [(a, p)] := by
  refine filter_eq_singleton h.tcTree.keys.of_map ?_
  rintro ⟨b, q⟩
  rw [h.tcTree.mem, Prod.mk.injEq, Bool.or_eq_true, beq_iff_eq, beq_iff_eq]
  constructor
  · rintro ⟨hb, rfl | rfl⟩
    · exact ⟨rfl, h.tcTree.unique hb ha⟩
    · exact ⟨Option.some.inj (hb.symm.trans ha), rfl⟩
  · rintro ⟨rfl, rfl⟩; exact ⟨ha, .inl rfl⟩

/-- Without an entry for the main address, the new entry is the one for it. -/
theorem addMyself_of_none (h : Wf s) (hmain : env.cnf.HasMainAddr)
    (hnone : olsrLookupTcEntry s env.cnf.mainAddr = none) :
    ∃ n p, addMyself env s = some n ∧ Wf n.lsdb ∧ n.tcMyself = some p ∧
      ∀ q, addrOf n.lsdb q = if q = p then some env.cnf.mainAddr else addrOf s q := by
  obtain ⟨s', o, hs', hw, hz, hadd⟩ := olsrAddTcEntry_spec env h hnone
  cases o with
  | none => have := hz rfl; rw [hmain] at this; cases this
  | some p => exact ⟨⟨s', some p, true⟩, p, by simp [addMyself, hs'], hw, rfl, (hadd p rfl).addrOf⟩

theorem insertPrefix_tcTree {p r : Ptr} {x : IpPrefix} {origin : Nat} (h : insertPrefix s p x origin = some (s', r)) :
    s'.tcTree = s.tcTree := by
  obtain ⟨t, ht, h⟩ := Option.bind_eq_some_iff.1 h
  cases hf : Keyed.find x t.prefixTree with
  | some r' =>
    simp only [hf, Option.pure_def, Option.some.injEq, Prod.mk.injEq] at h
    rw [h.1]
  | none =>
    simp only [hf, olsrAllocRtPath_eq ht, Option.some.injEq, Prod.mk.injEq] at h
    rw [← h.1]; rfl

/-- With an entry for the main address, the tree keeps that one and the new entry stays outside. -/
theorem addMyself_of_some (h : Wf s) (hmain : env.cnf.HasMainAddr) {q : Ptr}
    (hq : olsrLookupTcEntry s env.cnf.mainAddr = some q) :
    ∃ n, addMyself env s = some n ∧ n.tcMyself = some s.fresh ∧
      olsrLookupTcEntry n.lsdb env.cnf.mainAddr = some q ∧ q ≠ s.fresh := by
  obtain ⟨t, ht, -⟩ := exists_tc_of_addrOf (h.lookup_iff.1 hq)
  have hne : q ≠ s.fresh := (h.lt_fresh_of_tc ht).ne
  let s₁ : Lsdb Lq :=
    { s with
      fresh := s.fresh + 1
      tc := Function.update s.tc s.fresh (some { newTcEntry env.cnf.mainAddr with refcount := 1 }) }
  have htc : s₁.tc q = some t := by rw [← ht]; exact Function.update_of_ne hne _ _
  obtain ⟨s₂, r, hs₂⟩ : ∃ s₂ r, insertPrefix s₁ q ⟨env.cnf.mainAddr, maxplen env.cnf⟩ olsrRtOriginInt =
      some (s₂, r) := by
    cases hf : Keyed.find (⟨env.cnf.mainAddr, maxplen env.cnf⟩ : IpPrefix) t.prefixTree with
    | some r => exact ⟨s₁, r, by simp [insertPrefix, htc, hf]⟩
    | none =>
      refine ⟨addPrefix s₁ q t ⟨env.cnf.mainAddr, maxplen env.cnf⟩ olsrRtOriginInt, s₁.fresh, ?_⟩
      simp [insertPrefix, htc, hf, olsrAllocRtPath_eq htc]
  refine ⟨⟨s₂, some s.fresh, true⟩, ?_, rfl, ?_, hne⟩
  · have hfind : Keyed.find env.cnf.mainAddr s.tcTree = some q := hq
    have hnz : ipequal env.cnf env.cnf.mainAddr (List.replicate env.cnf.ipsize 0) = false := hmain
    have hadd : olsrAddTcEntry env s env.cnf.mainAddr = some (s₂, some s.fresh) := by
      unfold olsrAddTcEntry
      simp only [hnz, Bool.false_eq_true, if_false, Lsdb.setTc, hfind, Option.isSome_some, if_true, olsrLockTcEntry,
        Function.update_self, Option.pure_def, Option.bind_eq_bind, Option.bind_some, Function.update_idem]
      change (olsrLookupTcEntry s₁ env.cnf.mainAddr).bind _ = _
      have hl : olsrLookupTcEntry s₁ env.cnf.mainAddr = some q := hq
      rw [hl, Option.bind_some]
      change (insertPrefix s₁ q _ _).bind _ = _
      rw [hs₂]; rfl
    simp [addMyself, hadd]
  · show Keyed.find env.cnf.mainAddr s₂.tcTree = some q
    rw [insertPrefix_tcTree hs₂]; exact hq

/-! ## The change of the main address -/

theorem ipequal_iff (cnf : Cnf) {a b : IpAddr} (ha : a.length = cnf.ipsize) (hb : b.length = cnf.ipsize) :
    ipequal cnf a b = true ↔ a = b := by
  rw [ipequal, beq_iff_eq, List.take_of_length_le ha.le, List.take_of_length_le hb.le]

/-- `olsr_change_myself_tc` from the point on where the old entry is gone, if there was one. -/
theorem addMyself_root_iff (h : Wf s) (hmain : env.cnf.HasMainAddr) (before : OwnTopology Lq)
    (hgone : ∀ p a, before.tcMyself = some p → addrOf before.lsdb p = some a → a ≠ env.cnf.mainAddr →
      ∀ q, addrOf s q ≠ some a) :
    ∃ n, addMyself env s = some n ∧
      (OwnRoot env.cnf before n ↔ olsrLookupTcEntry s env.cnf.mainAddr = none) := by
  cases hq : olsrLookupTcEntry s env.cnf.mainAddr with
  | none =>
    obtain ⟨n, p, hn, hw, hp, haddr⟩ := addMyself_of_none h hmain hq
    have hpa : addrOf n.lsdb p = some env.cnf.mainAddr := by rw [haddr, if_pos rfl]
    refine ⟨n, hn, iff_of_true ⟨⟨p, hp, hw.lookup_iff.2 hpa⟩, ?_, ?_, ?_⟩ rfl⟩
    · intro p' hp'
      obtain rfl : p = p' := Option.some.inj (hp.symm.trans hp')
      exact hw.filter_tcTree hpa
    · intro p' q hp' hqa
      obtain rfl : p = p' := Option.some.inj (hp.symm.trans hp')
      exact hw.tcTree.unique hqa hpa
    · intro p' a hp' ha hne q hqa
      rw [haddr] at hqa
      split at hqa
      · exact hne (Option.some.inj hqa).symm
      · exact hgone p' a hp' ha hne q hqa
  | some q =>
    obtain ⟨n, hn, hp, hlookup, hne⟩ := addMyself_of_some h hmain hq
    refine ⟨n, hn, iff_of_false (fun hroot => ?_) (by simp)⟩
    obtain ⟨p, hp', hl⟩ := hroot.root
    rw [hp] at hp'
    rw [hlookup] at hl
    exact hne ((Option.some.inj hl).trans (Option.some.inj hp').symm)

/-- A change of the main address leaves `tc_myself` as the one entry for it exactly if the own entry
has this address already or nothing else in the database has it. -/
theorem olsrChangeMyselfTc_root_iff (env : Env Lq) (n : OwnTopology Lq) (h : OwnWf env.cnf n)
    (hmain : env.cnf.HasMainAddr) :
    ∃ n', olsrChangeMyselfTc env n = some n' ∧
      (OwnRoot env.cnf n n' ↔
        OwnAddrIsMain env.cnf n ∨ olsrLookupTcEntry n.lsdb env.cnf.mainAddr = none) := by
  cases hp : n.tcMyself with
  | none =>
    obtain ⟨n', hn', hiff⟩ := addMyself_root_iff h.lsdb hmain n fun p a hp' => by rw [hp] at hp'; cases hp'
    refine ⟨n', by simp [olsrChangeMyselfTc, hp, hn'], hiff.trans ⟨.inr, ?_⟩⟩
    rintro (⟨p, hp', -⟩ | hnone)
    · rw [hp] at hp'; cases hp'
    · exact hnone
  | some p =>
    obtain ⟨t, ht⟩ := h.live p hp
    have hta := addrOf_some ht
    have heq := ipequal_iff env.cnf (h.addrSize p t.addr hta) h.mainSize
    by_cases hsame : t.addr = env.cnf.mainAddr
    · -- nothing to do
      rw [hsame] at hta
      refine ⟨n, by simp [olsrChangeMyselfTc, hp, ht, heq.2 hsame], iff_of_true ?_ (.inl ⟨p, hp, hta⟩)⟩
      refine ⟨⟨p, hp, h.lsdb.lookup_iff.2 hta⟩, ?_, ?_, ?_⟩
      · intro p' hp'
        obtain rfl : p = p' := Option.some.inj (hp.symm.trans hp')
        exact h.lsdb.filter_tcTree hta
      · intro p' q hp' hqa
        obtain rfl : p = p' := Option.some.inj (hp.symm.trans hp')
        exact h.lsdb.tcTree.unique hqa hta
      · intro p' a hp' ha hne
        obtain rfl : p = p' := Option.some.inj (hp.symm.trans hp')
        exact absurd (Option.some.inj (ha.symm.trans hta)) hne
    · obtain ⟨s₁, hs₁, hw₁, haddr, -⟩ := olsrDeleteTcEntry_spec env h.lsdb ht
      obtain ⟨n', hn', hiff⟩ := addMyself_root_iff hw₁ hmain n fun p' a hp' ha hne q hqa => by
        obtain rfl : p = p' := Option.some.inj (hp.symm.trans hp')
        rw [haddr] at hqa
        split at hqa
        · cases hqa
        · rename_i hqp; exact hqp (h.lsdb.tcTree.unique hqa ha)
      have hlookup : olsrLookupTcEntry s₁ env.cnf.mainAddr = none ↔
          olsrLookupTcEntry n.lsdb env.cnf.mainAddr = none := by
        rw [olsrLookupTcEntry, hw₁.tcTree.find_eq_none, olsrLookupTcEntry, h.lsdb.tcTree.find_eq_none]
        refine forall_congr' fun q => ?_
        rw [haddr]
        split
        · rename_i hqp; rw [hqp, hta]; simpa using hsame
        · exact Iff.rfl
      refine ⟨n', ?_, (hiff.trans hlookup).trans ⟨.inr, ?_⟩⟩
      · have hb : ipequal env.cnf t.addr env.cnf.mainAddr = false :=
          Bool.eq_false_iff.2 fun hb => hsame (heq.1 hb)
        simp [olsrChangeMyselfTc, hp, ht, hb, hs₁, hn']
      · rintro (⟨p', hp', ha⟩ | hnone)
        · obtain rfl : p = p' := Option.some.inj (hp.symm.trans hp')
          exact absurd (Option.some.inj (hta.symm.trans ha)) hsame
        · exact hnone

/-- Locating the addresses in turn, from the empty database. -/
def locateAll (env : Env Lq) (addrs : List IpAddr) : Option (Lsdb Lq) :=
  addrs.foldlM (fun s a => apply env s (.locate a)) (emptyLsdb Lq)

theorem reachable_locateAll {addrs : List IpAddr} (h : locateAll env addrs = some s) : Reachable env s := by
  suffices hgen : ∀ (addrs : List IpAddr) (s₀ s : Lsdb Lq), Reachable env s₀ →
      addrs.foldlM (fun s a => apply env s (.locate a)) s₀ = some s → Reachable env s from
    hgen addrs _ _ .init h
  intro addrs
  induction addrs with
  | nil =>
    intro s₀ s hr h
    rw [List.foldlM_nil, Option.pure_def, Option.some.injEq] at h
    rw [← h]; exact hr
  | cons a addrs ih =>
    intro s₀ s hr h
    rw [List.foldlM_cons] at h
    obtain ⟨s₁, hs₁, h⟩ := Option.bind_eq_some_iff.1 h
    exact ih s₁ s (.step (.locate a) hr trivial hs₁) h

theorem ownWf_of_tree {cnf : Cnf} (h : Wf s) (p : Ptr) (hp : p ∈ s.tcTree.map Prod.snd)
    (hsize : ∀ e ∈ s.tcTree, e.1.length = cnf.ipsize) (hmain : cnf.mainAddr.length = cnf.ipsize) :
    OwnWf cnf ⟨s, some p, false⟩ := by
  refine ⟨h, ?_, fun q a ha => ?_, hmain⟩
  · rintro q ⟨⟩; exact (mem_tcTree_iff h p).1 hp
  · exact hsize (a, q) ((h.tcTree.mem a q).2 ha)

/-- The node was 10.0.0.2 and becomes 10.0.0.1, which no other node has. -/
theorem olsrChangeMyselfTc_root_iff_newAddr :
    ∃ s n', locateAll plainEnv [[10, 0, 0, 2], [10, 0, 0, 3]] = some s ∧
      olsrChangeMyselfTc plainEnv ⟨s, some 0, false⟩ = some n' ∧ OwnRoot plainEnv.cnf ⟨s, some 0, false⟩ n' := by
  obtain ⟨s, hs⟩ : ∃ s, locateAll plainEnv [[10, 0, 0, 2], [10, 0, 0, 3]] = some s := ⟨_, rfl⟩
  have hw : OwnWf plainEnv.cnf ⟨s, some 0, false⟩ := by
    refine ownWf_of_tree (reachable_wf (reachable_locateAll hs)) 0 ?_ ?_ rfl
    all_goals obtain rfl := Option.some.inj (Eq.trans rfl hs); decide
  obtain ⟨n', hn', hiff⟩ := olsrChangeMyselfTc_root_iff plainEnv ⟨s, some 0, false⟩ hw rfl
  refine ⟨s, n', hs, hn', hiff.2 (.inr ?_)⟩
  obtain rfl := Option.some.inj (Eq.trans rfl hs); rfl

/-- The node was 10.0.0.2 and becomes 10.0.0.1, and another node had announced itself as 10.0.0.1: the
tree keeps the entry of that node, and SPF starts at an entry that no lookup finds. -/
theorem learned_main_addr :
    ∃ s n', locateAll plainEnv [[10, 0, 0, 2], [10, 0, 0, 1]] = some s ∧ OwnWf plainEnv.cnf ⟨s, some 0, false⟩ ∧
      plainEnv.cnf.HasMainAddr ∧ olsrChangeMyselfTc plainEnv ⟨s, some 0, false⟩ = some n' ∧
      n'.tcMyself = some 4 ∧ olsrLookupTcEntry n'.lsdb plainEnv.cnf.mainAddr = some 2 ∧
      ¬ OwnRoot plainEnv.cnf ⟨s, some 0, false⟩ n' := by
  obtain ⟨s, hs⟩ : ∃ s, locateAll plainEnv [[10, 0, 0, 2], [10, 0, 0, 1]] = some s := ⟨_, rfl⟩
  have hw : OwnWf plainEnv.cnf ⟨s, some 0, false⟩ := by
    refine ownWf_of_tree (reachable_wf (reachable_locateAll hs)) 0 ?_ ?_ rfl
    all_goals obtain rfl := Option.some.inj (Eq.trans rfl hs); decide
  obtain ⟨n', hn', h4, h2⟩ : ∃ n', olsrChangeMyselfTc plainEnv ⟨s, some 0, false⟩ = some n' ∧
      n'.tcMyself = some 4 ∧ olsrLookupTcEntry n'.lsdb plainEnv.cnf.mainAddr = some 2 := by
    obtain rfl := Option.some.inj (Eq.trans rfl hs); exact ⟨_, rfl, rfl, rfl⟩
  refine ⟨s, n', hs, hw, rfl, hn', h4, h2, fun hroot => ?_⟩
  obtain ⟨p, hp, hl⟩ := hroot.root
  rw [← hp, h2, h4] at hl
  cases hl

end Olsrd.Topology
