/-
The two tables of the MID set agree in every run. That resolving an address gives one which resolves no
further holds as long as no alias is registered for an address that is an alias itself, or is one that
aliases are registered for; `insert_mid_alias` looks for such aliases only when a neighbour is concerned.
-/
import Olsrd.Routing.Ownership

namespace Olsrd.Routing

open Olsrd.Neighbor (MidSet MidEntry MidAddress MidWf AliasKeys midWf_emptyMidSet midLookupMainAddr midLookupEntryBymain
  olsrDeleteMidEntry olsrUpdateMidTable prunedAliases midLookupMainAddr_register midLookupEntryBymain_mainAddr
  mainAddr_olsrSetMidTimer aliases_olsrSetMidTimer olsrIpHashing emptyMidSet olsrSetMidTimer midSet_foldl_dequeueAlias)

/-! ## Buckets -/

/-- Everything is in the bucket of its address, and no bucket has two entries of one main address. -/
structure MidBuckets (m : MidSet) : Prop where
  entryHash : ∀ k, ∀ e ∈ m.midSet k, olsrIpHashing e.mainAddr = k
  entryKeys : ∀ k, ((m.midSet k).map MidEntry.mainAddr).Nodup
  aliasHash : ∀ k, ∀ x ∈ m.reverseMidSet k, olsrIpHashing x.1 = k

namespace MidBuckets

variable {m : MidSet} {now random vtime : Nat} {a o : IpAddr}

theorem updateEntry (h : MidBuckets m) {f : MidEntry → MidEntry} (hf : ∀ e, (f e).mainAddr = e.mainAddr) :
    MidBuckets (m.updateEntry o f) := by
  have hmains (l : List MidEntry) : (l.map fun e => if e.mainAddr == o then f e else e).map MidEntry.mainAddr =
      l.map MidEntry.mainAddr := by
    rw [List.map_map]
    refine List.map_congr_left fun e _ => ?_
    simp only [Function.comp_apply]
    split
    · exact hf e
    · rfl
  have hbucket (k : Nat) : ((m.updateEntry o f).midSet k).map MidEntry.mainAddr =
      (m.midSet k).map MidEntry.mainAddr := by
    show (Function.update m.midSet (olsrIpHashing o) _ k).map MidEntry.mainAddr = _
    by_cases hk : k = olsrIpHashing o
    · subst hk
      rw [Function.update_self, hmains]
    · rw [Function.update_of_ne hk]
  refine ⟨fun k e he => ?_, fun k => by rw [hbucket]; exact h.entryKeys k, h.aliasHash⟩
  have hmem : e.mainAddr ∈ (m.midSet k).map MidEntry.mainAddr := by
    rw [← hbucket]
    exact List.mem_map_of_mem he
  obtain ⟨e', he', heq⟩ := List.mem_map.1 hmem
  rw [← heq]
  exact h.entryHash k e' he'

theorem dequeueAlias (h : MidBuckets m) : MidBuckets (m.dequeueAlias o a) := by
  refine ⟨h.entryHash, h.entryKeys, fun k x hx => ?_⟩
  change x ∈ Function.update m.reverseMidSet (olsrIpHashing a) _ k at hx
  by_cases hk : k = olsrIpHashing a
  · subst hk
    rw [Function.update_self] at hx
    exact h.aliasHash _ x (List.mem_of_mem_erase hx)
  · rw [Function.update_of_ne hk] at hx
    exact h.aliasHash k x hx

theorem foldl_dequeueAlias :
    ∀ {l : List IpAddr} {m : MidSet}, MidBuckets m → MidBuckets (l.foldl (MidSet.dequeueAlias o) m)
  | [], _, h => h
  | a :: l, _, h => foldl_dequeueAlias (l := l) (h.dequeueAlias (a := a))

theorem deleteMidEntry (h : MidBuckets m) {e : MidEntry} : MidBuckets (olsrDeleteMidEntry m e) := by
  have h₁ : MidBuckets ((e.aliases.map MidAddress.aliasAddr).foldl (MidSet.dequeueAlias e.mainAddr) m) :=
    h.foldl_dequeueAlias
  have hsub (k : Nat) : List.Sublist ((olsrDeleteMidEntry m e).midSet k) (m.midSet k) := by
    unfold olsrDeleteMidEntry
    dsimp only
    by_cases hk : k = olsrIpHashing e.mainAddr
    · subst hk
      rw [Function.update_self, midSet_foldl_dequeueAlias]
      exact List.filter_sublist
    · rw [Function.update_of_ne hk, midSet_foldl_dequeueAlias]
  exact ⟨fun k e' he' => h.entryHash k e' ((hsub k).subset he'), fun k => (h.entryKeys k).sublist ((hsub k).map _),
    h₁.aliasHash⟩

theorem prune (h : MidBuckets m) {declared : List IpAddr} {e : MidEntry} : MidBuckets (m.prune now vtime declared e) :=
  h.foldl_dequeueAlias.updateEntry fun _ => rfl

theorem register (h : MidBuckets m) : MidBuckets (m.register now random o a vtime) := by
  have hqueue {m' : MidSet} (h' : MidBuckets m') :
      MidBuckets ⟨m'.midSet, Function.update m'.reverseMidSet (olsrIpHashing a)
      ((a, o) :: m'.reverseMidSet (olsrIpHashing a))⟩ := by
    refine ⟨h'.entryHash, h'.entryKeys, fun k x hx => ?_⟩
    change x ∈ Function.update m'.reverseMidSet (olsrIpHashing a) _ k at hx
    by_cases hk : k = olsrIpHashing a
    · subst hk
      rw [Function.update_self] at hx
      rcases List.mem_cons.1 hx with rfl | hx
      · rfl
      · exact h'.aliasHash _ x hx
    · rw [Function.update_of_ne hk] at hx
      exact h'.aliasHash k x hx
  unfold MidSet.register
  split
  · exact hqueue (h.updateEntry fun e => mainAddr_olsrSetMidTimer ..)
  · rename_i hnone
    refine hqueue ⟨fun k e he => ?_, fun k => ?_, h.aliasHash⟩
    · change e ∈ Function.update m.midSet (olsrIpHashing o) _ k at he
      by_cases hk : k = olsrIpHashing o
      · subst hk
        rw [Function.update_self] at he
        rcases List.mem_cons.1 he with rfl | he
        · rw [mainAddr_olsrSetMidTimer]
        · exact h.entryHash _ e he
      · rw [Function.update_of_ne hk] at he
        exact h.entryHash k e he
    · show ((Function.update m.midSet (olsrIpHashing o) _ k).map MidEntry.mainAddr).Nodup
      by_cases hk : k = olsrIpHashing o
      · subst hk
        rw [Function.update_self, List.map_cons, List.nodup_cons, mainAddr_olsrSetMidTimer]
        refine ⟨fun hmem => ?_, h.entryKeys _⟩
        obtain ⟨e, he, heq⟩ := List.mem_map.1 hmem
        have hno := List.find?_eq_none.1 hnone e he
        exact hno (by simpa using heq)
      · rw [Function.update_of_ne hk]
        exact h.entryKeys k

/-- An entry is found under its main address. -/
theorem lookup_of_mem (h : MidBuckets m) {k : Nat} {e : MidEntry} (he : e ∈ m.midSet k) :
    midLookupEntryBymain m e.mainAddr = some e := by
  unfold midLookupEntryBymain
  rw [h.entryHash k e he]
  cases hf : (m.midSet k).find? fun x => x.mainAddr == e.mainAddr with
  | none =>
    have hno := List.find?_eq_none.1 hf e he
    simp at hno
  | some e' =>
    have hmain : e'.mainAddr = e.mainAddr := by simpa using List.find?_some hf
    rw [List.inj_on_of_nodup_map (h.entryKeys k) (List.mem_of_find?_eq_some hf) he hmain]

end MidBuckets

/-! ## Steps -/

structure MidTables (m : MidSet) : Prop extends MidWf m, MidBuckets m

/-- What an alias is registered for is no alias. -/
def Flat (m : MidSet) : Prop := ∀ a o, midLookupMainAddr m a = some o → midLookupMainAddr m o = none

/-- The tables stay what they are, and stay flat under a condition. -/
def KeepsTables (m : MidSet) (flat : Prop) (m' : MidSet) : Prop := MidTables m' ∧ (flat → Flat m → Flat m')

section

variable {env : NodeEnv} {n n' : Sources} {m m' : MidSet} {a o : IpAddr} {now random vtime : Nat}

theorem KeepsTables.refl (h : MidTables m) (flat : Prop) : KeepsTables m flat m := ⟨h, fun _ => id⟩

/-- What has less aliases is flat, too. -/
theorem Flat.of_imp (h : Flat m) (hless : ∀ a o, midLookupMainAddr m' a = some o → midLookupMainAddr m a = some o) :
    Flat m' := by
  intro a o ha
  have hnone := h a o (hless a o ha)
  refine Option.eq_none_iff_forall_ne_some.2 fun o' ho' => ?_
  have hsome := hless o o' ho'
  rw [hnone] at hsome
  cases hsome

theorem Flat.register (h : Flat m) (hself : o ≠ a) (hmain : midLookupMainAddr m o = none)
    (hunused : ∀ b, midLookupMainAddr m b ≠ some a) : Flat (m.register now random o a vtime) := by
  intro b o' hb
  rw [midLookupMainAddr_register] at hb ⊢
  split at hb
  · obtain rfl := Option.some.inj hb
    rw [if_neg hself]
    exact hmain
  · rw [if_neg]
    · exact h b o' hb
    · rintro rfl
      exact hunused b hb

theorem MidTables.deleteMidEntry (h : MidTables m) {e : MidEntry} (he : midLookupEntryBymain m e.mainAddr = some e) :
    MidTables (olsrDeleteMidEntry m e) :=
  ⟨h.toMidWf.deleteMidEntry he, h.toMidBuckets.deleteMidEntry⟩

theorem deleteMidEntry_mid {mid : MidEntry} (hdel : deleteMidEntry env n mid = some n') : n'.mid =
    olsrDeleteMidEntry n.mid mid := by
  obtain ⟨rib, -, hdel⟩ := Option.bind_eq_some_iff.1 hdel
  obtain rfl := Option.some.inj hdel
  rfl

/-- After a neighbour is forgotten as a main address, no alias is registered for it. -/
theorem forgetMainAddr_mid (h : MidTables n.mid) {x : AliasInput} (hforget : forgetMainAddr env n x = some n') :
    MidTables n'.mid ∧ (∀ b o, midLookupMainAddr n'.mid b = some o → midLookupMainAddr n.mid b = some o) ∧
      (∀ b o, o ≠ x.aliasAddr → midLookupMainAddr n.mid b = some o → midLookupMainAddr n'.mid b = some o) ∧
      (x.neighbor = true → ∀ b, midLookupMainAddr n'.mid b ≠ some x.aliasAddr) := by
  unfold forgetMainAddr at hforget
  split at hforget
  · rename_i mid hmid
    have hmain := midLookupEntryBymain_mainAddr hmid
    split at hforget
    · rw [deleteMidEntry_mid hforget]
      have hlookup {b o : IpAddr} : midLookupMainAddr (olsrDeleteMidEntry n.mid mid) b = some o ↔ _ :=
        h.keys.lookup_olsrDeleteMidEntry
      refine ⟨h.deleteMidEntry (hmain ▸ hmid), fun b o hb => (hlookup.1 hb).1, fun b o hne hb => ?_, fun _ b hb => ?_⟩
      · exact hlookup.2 ⟨hb, fun hab => hne (hab.1.trans hmain)⟩
      · obtain ⟨hb, hnot⟩ := hlookup.1 hb
        exact hnot ⟨hmain.symm, (h.aliases _ mid hmid b).2 hb⟩
    · rename_i hneighbor
      obtain rfl := Option.some.inj hforget
      exact ⟨h, fun _ _ => id, fun _ _ _ => id, fun hyes => absurd hyes hneighbor⟩
  · rename_i hnone
    obtain rfl := Option.some.inj hforget
    refine ⟨h, fun _ _ => id, fun _ _ _ => id, fun _ b hb => ?_⟩
    have hsome := h.entry b _ hb
    rw [hnone] at hsome
    cases hsome

theorem insertMidTuple_mid {x : AliasInput} (hins : insertMidTuple env n now o x vtime = some n') :
    (midLookupMainAddr n.mid x.aliasAddr = some o ∧ n'.mid = n.mid) ∨
      n'.mid = n.mid.register now x.random o x.aliasAddr vtime := by
  unfold insertMidTuple at hins
  split at hins
  · obtain rfl := Option.some.inj hins
    exact .inl ⟨‹_›, rfl⟩
  · obtain ⟨rib, -, hins⟩ := Option.bind_eq_some_iff.1 hins
    obtain rfl := Option.some.inj hins
    exact .inr rfl

/-- The alias may be registered for `o`: `o` is another address and no alias, and none is registered for the alias. The
aliases of a neighbour are forgotten before, with `o` if it is one of them. -/
def Registrable (env : NodeEnv) (m : MidSet) (o : IpAddr) (x : AliasInput) : Prop :=
  olsrValidateAddress env.cnf x.aliasAddr = true → midLookupMainAddr m x.aliasAddr = none → o ≠ x.aliasAddr ∧
    if x.neighbor then midLookupMainAddr m o = none ∨ midLookupMainAddr m o = some x.aliasAddr
    else midLookupMainAddr m o = none ∧ ∀ b, midLookupMainAddr m b ≠ some x.aliasAddr

/-- What was found before the neighbour was forgotten is gone, if it is to be. -/
theorem Registrable.forgotten {x : AliasInput} (hok : Registrable env m o x)
    (hvalid : olsrValidateAddress env.cnf x.aliasAddr = true) (hfree : midLookupMainAddr m x.aliasAddr = none)
    (hless : ∀ b o, midLookupMainAddr m' b = some o → midLookupMainAddr m b = some o)
    (hgone : x.neighbor = true → ∀ b, midLookupMainAddr m' b ≠ some x.aliasAddr) :
    o ≠ x.aliasAddr ∧ midLookupMainAddr m' o = none ∧ ∀ b, midLookupMainAddr m' b ≠ some x.aliasAddr := by
  obtain ⟨hself, hok⟩ := hok hvalid hfree
  split at hok
  · next hneighbor =>
    refine ⟨hself, Option.eq_none_iff_forall_ne_some.2 fun o' ho' => ?_, hgone hneighbor⟩
    rcases hok with hnone | halias
    · rw [hless _ _ ho'] at hnone
      cases hnone
    · obtain rfl := Option.some.inj ((hless _ _ ho').symm.trans halias)
      exact hgone hneighbor o ho'
  · refine ⟨hself, Option.eq_none_iff_forall_ne_some.2 fun o' ho' => ?_, fun b hb => hok.2 b (hless _ _ hb)⟩
    have hold := hless _ _ ho'
    rw [hok.1] at hold
    cases hold

theorem MidTables.insertMidAlias (h : MidTables n.mid) {x : AliasInput}
    (hfree : midLookupMainAddr n.mid x.aliasAddr = none ∨
      (midLookupMainAddr n.mid x.aliasAddr = some o ∧ o ≠ x.aliasAddr))
    (hins : insertMidAlias env n now o x vtime = some n') : KeepsTables n.mid (Registrable env n.mid o x) n'.mid := by
  unfold Routing.insertMidAlias at hins
  split at hins
  · obtain rfl := Option.some.inj hins
    exact .refl h _
  · rename_i hvalid
    obtain ⟨n₁, hforget, hins⟩ := Option.bind_eq_some_iff.1 hins
    obtain ⟨h₁, hless, hkept, hnone₁⟩ := forgetMainAddr_mid h hforget
    rcases insertMidTuple_mid hins with ⟨-, heq⟩ | heq
    · rw [heq]
      exact ⟨h₁, fun _ hflat => hflat.of_imp hless⟩
    · rw [heq]
      rcases hfree with hnone | ⟨hsome, hne⟩
      · have hnone' : midLookupMainAddr n₁.mid x.aliasAddr = none := by
          refine Option.eq_none_iff_forall_ne_some.2 fun o' ho' => ?_
          have hold := hless _ _ ho'
          rw [hnone] at hold
          cases hold
        refine ⟨⟨h₁.toMidWf.register hnone', h₁.toMidBuckets.register⟩, fun hok hflat => ?_⟩
        obtain ⟨hself, hmain, hunused⟩ := hok.forgotten (by simpa using hvalid) hnone hless hnone₁
        exact (hflat.of_imp hless).register hself hmain hunused
      · -- the alias is registered already, so the tuple is left alone
        have hstill := hkept _ _ hne hsome
        unfold Routing.insertMidTuple at hins
        rw [if_pos hstill] at hins
        obtain rfl := Option.some.inj hins
        rw [← heq]
        exact ⟨h₁, fun _ hflat => hflat.of_imp hless⟩

/-- The event registers no alias for an alias that stays one, and none that aliases are still registered for. -/
def SourceEvent.Unchained (env : NodeEnv) (n : Sources) : SourceEvent → Prop
  | .inputMidAlias _ mainAddr _ x => env.ifaddrs.contains x.aliasAddr = false → Registrable env n.mid mainAddr x
  | .helloAlias _ sourceAddr _ x => sourceAddr ≠ x.aliasAddr → Registrable env n.mid sourceAddr x
  | _ => True

theorem MidTables.step (h : MidTables n.mid) {ev : SourceEvent} (hstep : stepSources env n ev = some n') :
    KeepsTables n.mid (ev.Unchained env n) n'.mid := by
  cases ev with
  | locateTcEntry adr p =>
    simp only [stepSources] at hstep
    split at hstep
    · obtain ⟨rib, -, rfl⟩ := Option.map_eq_some_iff.1 hstep
      exact .refl h _
    · cases hstep
  | deleteTcEntry adr =>
    obtain ⟨rib, -, rfl⟩ := Option.map_eq_some_iff.1 hstep
    exact .refl h _
  | updateMidTable now random mainAddr vtime =>
    obtain rfl := Option.some.inj hstep
    refine ⟨⟨h.toMidWf.updateEntry (fun e => mainAddr_olsrSetMidTimer ..) fun e => aliases_olsrSetMidTimer ..,
      h.toMidBuckets.updateEntry fun e => mainAddr_olsrSetMidTimer ..⟩, fun _ => id⟩
  | inputMidAlias now mainAddr vtime x =>
    change inputMidAlias env n now mainAddr vtime x = some n' at hstep
    unfold inputMidAlias at hstep
    split at hstep
    · obtain rfl := Option.some.inj hstep
      exact .refl h _
    · rename_i hown
      split at hstep
      · rename_i hnone
        have hkeeps := h.insertMidAlias (.inl hnone) hstep
        exact ⟨hkeeps.1, fun hok => hkeeps.2 (hok (by simpa using hown))⟩
      · obtain ⟨rib, -, hstep⟩ := Option.bind_eq_some_iff.1 hstep
        obtain rfl := Option.some.inj hstep
        exact .refl h _
  | pruneAliases now mainAddr vtime declared =>
    change olsrPruneAliases env n now mainAddr vtime declared = some n' at hstep
    unfold olsrPruneAliases at hstep
    split at hstep
    · obtain rfl := Option.some.inj hstep
      exact .refl h _
    · rename_i mid hmid
      obtain rfl := midLookupEntryBymain_mainAddr hmid
      obtain ⟨rib, -, hstep⟩ := Option.bind_eq_some_iff.1 hstep
      obtain rfl := Option.some.inj hstep
      exact ⟨⟨h.toMidWf.prune hmid, h.toMidBuckets.prune⟩,
        fun _ hflat => hflat.of_imp fun b o hb => (h.keys.lookup_prune.1 hb).1⟩
  | helloAlias now sourceAddr vtime x =>
    change helloAlias env n now sourceAddr vtime x = some n' at hstep
    unfold helloAlias at hstep
    split at hstep
    · obtain rfl := Option.some.inj hstep
      exact .refl h _
    · rename_i hne
      split at hstep
      · rename_i hnone
        have hkeeps := h.insertMidAlias (.inl hnone) hstep
        exact ⟨hkeeps.1, fun hok => hkeeps.2 (hok hne)⟩
      · rename_i o hsome
        split at hstep
        · rename_i heq
          subst heq
          have hkeeps := h.insertMidAlias (.inr ⟨hsome, hne⟩) hstep
          exact ⟨hkeeps.1, fun hok => hkeeps.2 (hok hne)⟩
        · obtain rfl := Option.some.inj hstep
          exact .refl h _
  | expireMidEntry mainAddr =>
    obtain ⟨mid, hmid, hdel⟩ := Option.bind_eq_some_iff.1 hstep
    obtain rfl := midLookupEntryBymain_mainAddr hmid
    rw [deleteMidEntry_mid hdel]
    exact ⟨h.deleteMidEntry hmid, fun _ hflat => hflat.of_imp fun b o hb => (h.keys.lookup_olsrDeleteMidEntry.1 hb).1⟩
  | updateHnaEntry gw net p q =>
    rw [mid_olsrUpdateHnaEntry hstep]
    exact .refl h _
  | expireHnaNetEntry gw net =>
    simp only [stepSources] at hstep
    split at hstep
    · obtain ⟨rib, -, hstep⟩ := Option.bind_eq_some_iff.1 hstep
      obtain rfl := Option.some.inj hstep
      exact .refl h _
    · cases hstep

/-! ## Runs -/

/-- The tables of the MID set agree, and addresses are resolved in one step. -/
structure MidAgrees (m : MidSet) : Prop where
  /-- a listed alias is listed once, by one entry, and is once in the other table, with that entry -/
  listed : ∀ k, ∀ e ∈ m.midSet k, ∀ a ∈ e.aliases.map MidAddress.aliasAddr,
    (e.aliases.map MidAddress.aliasAddr).count a = 1 ∧
    (∀ k', ∀ e' ∈ m.midSet k', a ∈ e'.aliases.map MidAddress.aliasAddr → k' = k ∧ e' = e) ∧
    (∀ k', (m.reverseMidSet k').countP (fun x => x.1 == a) = if k' = olsrIpHashing a then 1 else 0) ∧
    (a, e.mainAddr) ∈ m.reverseMidSet (olsrIpHashing a)
  /-- what is in the other table is listed by the entry it points to -/
  reverse : ∀ k, ∀ x ∈ m.reverseMidSet k, ∃ e ∈ m.midSet (olsrIpHashing x.2), e.mainAddr = x.2 ∧
    x.1 ∈ e.aliases.map MidAddress.aliasAddr
  /-- a main address has one entry at most -/
  mains : ∀ k, ((m.midSet k).map MidEntry.mainAddr).Nodup ∧ ∀ e ∈ m.midSet k, olsrIpHashing e.mainAddr = k
  /-- what an address is resolved to is no alias -/
  resolved : ∀ a o, midLookupMainAddr m a = some o → midLookupMainAddr m o = none

theorem MidTables.agrees (h : MidTables m) (hflat : Flat m) : MidAgrees m := by
  refine ⟨fun k e he a ha => ?_, fun k x hx => ?_, fun k => ⟨h.entryKeys k, h.entryHash k⟩, hflat⟩
  · have hfound := h.toMidBuckets.lookup_of_mem he
    have hreg := (h.aliases _ e hfound a).1 ha
    have hin := h.keys.lookup_iff.1 hreg
    refine ⟨List.count_eq_one_of_mem (h.nodup _ e hfound) ha, fun k' e' he' ha' => ?_, fun k' => ?_, hin⟩
    · have hfound' := h.toMidBuckets.lookup_of_mem he'
      have hmain := Option.some.inj (((h.aliases _ e' hfound' a).1 ha').symm.trans hreg)
      rw [hmain, hfound] at hfound'
      obtain rfl := Option.some.inj hfound'
      exact ⟨(h.entryHash k' e he').symm.trans (h.entryHash k e he), rfl⟩
    · have hcount : (m.reverseMidSet k').countP (fun x => x.1 == a) = ((m.reverseMidSet k').map Prod.fst).count a := by
        rw [List.count_eq_countP, List.countP_map]
        rfl
      rw [hcount]
      split
      · rename_i hk
        rw [hk]
        exact List.count_eq_one_of_mem (h.keys _) (List.mem_map.2 ⟨_, hin, rfl⟩)
      · rename_i hk
        refine List.count_eq_zero.2 fun hmem => ?_
        obtain ⟨x, hx, rfl⟩ := List.mem_map.1 hmem
        exact hk (h.aliasHash k' x hx).symm
  · obtain ⟨a, o⟩ := x
    have hk := h.aliasHash k _ hx
    rw [← hk] at hx
    have hreg := h.keys.lookup_iff.2 hx
    obtain ⟨e, he⟩ := Option.isSome_iff_exists.1 (h.entry a o hreg)
    exact ⟨e, List.mem_of_find?_eq_some he, midLookupEntryBymain_mainAddr he, (h.aliases o e he a).2 hreg⟩

theorem midTables_emptyMidSet : MidTables emptyMidSet :=
  ⟨midWf_emptyMidSet, nofun, fun _ => List.nodup_nil, nofun⟩

/-- In every run that registers no alias for an alias that stays one, and none that aliases are still registered for,
the tables of the MID set agree and addresses are resolved in one step. -/
theorem reachable_mid (h : SourcesReachable env (fun n ev => ev.Unchained env n) n) : MidAgrees n.mid := by
  have hinv : MidTables n.mid ∧ Flat n.mid := by
    refine Run.Reaches.invariant (P := fun n => MidTables n.mid ∧ Flat n.mid) ?_ ?_ h
    · rintro _ rfl
      exact ⟨midTables_emptyMidSet, nofun⟩
    · intro n ev n' hn hok hstep
      obtain ⟨htables, hflat⟩ := hn.1.step hstep
      exact ⟨htables, hflat hok hn.2⟩
  exact hinv.1.agrees hinv.2

end

/-- A node announces an alias. -/
def oneAlias : List SourceEvent :=
  [.inputMidAlias 0 [10, 0, 0, 9] 6000 ⟨[10, 0, 1, 9], false, 0, 0, 1⟩]

/-- The neighbour 10.0.0.9 changes its main address to its alias. -/
theorem reachable_mid_mainChange : ∃ n, SourcesReachable linuxNode (fun n ev => ev.Unchained linuxNode n) n ∧
    midLookupMainAddr n.mid [10, 0, 0, 9] = some [10, 0, 1, 9] ∧ MidAgrees n.mid := by
  have hrun : ((Run.forEach (stepSources linuxNode) oneAlias noSources).any fun n₁ =>
      midLookupMainAddr n₁.mid [10, 0, 1, 9] == some [10, 0, 0, 9] &&
        (stepSources linuxNode n₁ (.inputMidAlias 0 [10, 0, 1, 9] 6000 ⟨[10, 0, 0, 9], true, 0, 2, 3⟩)).any fun n =>
          midLookupMainAddr n.mid [10, 0, 0, 9] == some [10, 0, 1, 9]) = true := by decide +kernel
  obtain ⟨n₁, hn₁, hrun⟩ := (Option.any_eq_true _ _).1 hrun
  rw [Bool.and_eq_true, beq_iff_eq] at hrun
  obtain ⟨halias, hrun⟩ := hrun
  obtain ⟨n, hn, hreg⟩ := (Option.any_eq_true _ _).1 hrun
  have hreach₁ : SourcesReachable linuxNode (fun n ev => ev.Unchained linuxNode n) n₁ := by
    refine Run.reaches_forEach (.init rfl) ?_ hn₁
    exact ⟨fun _ _ _ => ⟨by decide, rfl, nofun⟩, fun _ _ => trivial⟩
  have hok : SourceEvent.Unchained linuxNode n₁
      (.inputMidAlias 0 [10, 0, 1, 9] 6000 ⟨[10, 0, 0, 9], true, 0, 2, 3⟩) := fun _ _ _ => ⟨by decide, .inr halias⟩
  have hreach := Run.Reaches.step _ hreach₁ hok hn
  exact ⟨n, hreach, beq_iff_eq.1 hreg, reachable_mid hreach⟩

/-- A node announces an alias, and another one announces the first node. -/
theorem chained_mid : ∃ n, SourcesReachable linuxNode (fun _ _ => True) n ∧ ¬ MidAgrees n.mid := by
  have hrun : ((Run.forEach (stepSources linuxNode) (oneAlias ++
      [.inputMidAlias 0 [10, 0, 0, 5] 6000 ⟨[10, 0, 0, 9], false, 0, 2, 3⟩]) noSources).any fun n =>
      midLookupMainAddr n.mid [10, 0, 1, 9] == some [10, 0, 0, 9] &&
        midLookupMainAddr n.mid [10, 0, 0, 9] == some [10, 0, 0, 5]) = true := by decide +kernel
  obtain ⟨n, hn, hend⟩ := (Option.any_eq_true _ _).1 hrun
  simp only [Bool.and_eq_true, beq_iff_eq] at hend
  refine ⟨n, Run.reaches_forEach (.init rfl) (Run.rounds_of_forall (fun _ _ => trivial) _ _) hn, fun hagrees => ?_⟩
  have hnone := hagrees.resolved _ _ hend.1
  rw [hend.2] at hnone
  cases hnone

end Olsrd.Routing
