/-
Who needs a path: the originator itself, a node with an alias, a gateway with a network. The three put
their paths into one tree without a count, so that a path which two of them need goes with the first of
them. As long as no path is shared like that, the paths are those that are needed.
-/
import Olsrd.Routing.Sources

namespace Olsrd.Routing

open Keyed
open Olsrd.Neighbor (MidSet MidEntry MidAddress MidWf midWf_emptyMidSet midLookupMainAddr midLookupEntryBymain
  olsrDeleteMidEntry olsrUpdateMidTable prunedAliases midLookupMainAddr_register midLookupEntryBymain_mainAddr
  mainAddr_olsrSetMidTimer aliases_olsrSetMidTimer)
open Olsrd.Topology (IpPrefix prefixLt maxplen olsrRtOriginInt)

variable {s s' : Rib}

/-! ## Paths of an originator -/

/-- The link state database has an entry for the address. -/
def Known (s : Rib) (a : IpAddr) : Prop := (s.prefixTree a).isSome

/-- The prefix tree of the originator has a path for the prefix. -/
def HasPath (s : Rib) (o : IpAddr) (d : IpPrefix) : Prop := ∃ p, PrefixPath s o d p

section

variable {env : Env} {o a : IpAddr} {d x : IpPrefix} {p q : Ptr} {origin : Nat}

theorem RibWf.isSome_findPath (h : RibWf s) : (findPath s d o).isSome ↔ HasPath s o d := by
  unfold findPath
  cases ht : s.prefixTree o with
  | none =>
    refine iff_of_false (by simp) ?_
    rintro ⟨p, z, hz, rfl, -⟩
    have hsome := h.tc p z hz
    rw [ht] at hsome
    cases hsome
  | some t =>
    rw [Option.bind_eq_bind, Option.bind_some, Option.isSome_iff_exists]
    exact exists_congr fun p => (h.prefixTree o t ht).find_iff

/-- A path for `d` has come; a new entry has its own path. -/
structure Inserted (s : Rib) (o : IpAddr) (d : IpPrefix) (cnf : Cnf) (s' : Rib) : Prop where
  wf : RibWf s'
  known : ∀ a, Known s' a ↔ Known s a ∨ a = o
  paths : ∀ a x, HasPath s' a x ↔ HasPath s a x ∨ (a = o ∧ (x = d ∨ (x = hostPrefix cnf o ∧ ¬ Known s o)))

/-- The paths of `o` for the prefixes `ds` have gone. -/
structure Removed (s : Rib) (o : IpAddr) (ds : IpPrefix → Prop) (s' : Rib) : Prop where
  wf : RibWf s'
  known : ∀ a, Known s' a ↔ Known s a
  paths : ∀ a x, HasPath s' a x ↔ HasPath s a x ∧ ¬ (a = o ∧ ds x)

theorem insertPrefix_paths (h : RibWf s) (hp : s.path p = none) (hins : insertPrefix env s o d origin p = some s') :
    Known s o ∧ (∀ a, Known s' a ↔ Known s a) ∧ ∀ a x, HasPath s' a x ↔ HasPath s a x ∨ (a = o ∧ x = d) := by
  rcases insertPrefix_cases hins with ⟨rfl, t, q, ht, hf⟩ | ⟨t, ht, hno, rfl⟩
  · refine ⟨by unfold Known; rw [ht]; rfl, fun _ => Iff.rfl, fun a x => ?_⟩
    rw [iff_self_or]
    rintro ⟨rfl, rfl⟩
    exact ⟨q, (h.prefixTree a t ht).find_iff.1 hf⟩
  · refine ⟨by unfold Known; rw [ht]; rfl, fun a => isSome_prefixTree_set ht _, fun a x => ?_⟩
    show (∃ q, PrefixPath (olsrAllocRtPath env s o t d origin p) a x q) ↔ _
    simp only [prefixPath_alloc hp, exists_or, HasPath]
    simp

theorem locateTcEntry_paths (h : RibWf s) (hp : s.path p = none) (hloc : olsrLocateTcEntry env s o p = some s') :
    (∀ a, Known s' a ↔ Known s a ∨ a = o) ∧
      ∀ a x, HasPath s' a x ↔ HasPath s a x ∨ (a = o ∧ x = hostPrefix env.cnf o ∧ ¬ Known s o) := by
  rcases olsrLocateTcEntry_cases hloc with ⟨rfl, hold⟩ | ⟨hnone, hins⟩
  · have hknown : Known s' o := hold
    refine ⟨fun a => ?_, fun a x => by simp [hknown]⟩
    rw [iff_self_or]
    rintro rfl
    exact hold
  · obtain ⟨-, hknown, hpaths⟩ := insertPrefix_paths (h.newTc hnone) hp hins
    have hnot : ¬ Known s o := by unfold Known; rw [hnone]; simp
    refine ⟨fun a => ?_, fun a x => ?_⟩
    · rw [hknown]
      show (Function.update s.prefixTree o (some []) a).isSome ↔ _
      by_cases ha : a = o
      · subst ha; simp
      · rw [Function.update_of_ne ha]; simp [ha, Known]
    · rw [hpaths]
      show HasPath s a x ∨ _ ↔ _
      simp [hnot, hostPrefix]

theorem insertRoutingTable_paths (h : RibWf s) (hlen : d.prefixLen ≤ maxplen env.cnf)
    (hstep : stepTable env s (.insertRoutingTable d o origin p q) = some s') : Inserted s o d env.cnf s' := by
  have hwf := (h.stepTable hstep).1
  obtain ⟨hen, hstep⟩ := stepTable_cases hstep
  simp only [TableOp.enabled, Bool.and_eq_true, Option.isNone_iff_eq_none, bne_iff_ne] at hen
  obtain ⟨⟨hp, hq⟩, hpq⟩ := hen
  rcases olsrInsertRoutingTable_cases hstep with ⟨-, hlong⟩ | ⟨s₁, hloc, hins⟩
  · exact absurd hlen (not_le.2 hlong)
  · obtain ⟨hw₁, -, hkept⟩ := h.locateTcEntry hp hloc
    obtain ⟨hknown₁, hpaths₁⟩ := locateTcEntry_paths h hp hloc
    obtain ⟨-, hknown, hpaths⟩ := insertPrefix_paths hw₁ ((hkept q hpq.symm).trans hq) hins
    refine ⟨hwf, fun a => (hknown a).trans (hknown₁ a), fun a x => ?_⟩
    rw [hpaths, hpaths₁]
    tauto

theorem deleteRtPath_paths (hdel : olsrDeleteRtPath s p = some s') :
    (∀ a, Known s' a ↔ Known s a) ∧ ∀ a x q, PrefixPath s' a x q ↔ PrefixPath s a x q ∧ q ≠ p := by
  obtain ⟨z, t, g, hz, ht, ⟨-, rfl⟩ | ⟨e, y, -, -, rfl⟩⟩ := olsrDeleteRtPath_cases hdel
  · exact ⟨fun a => isSome_prefixTree_set ht _, fun a x q => prefixPath_freed (a := z.tc) (t := t)⟩
  · refine ⟨fun a => isSome_prefixTree_set ht _, fun a x q => ?_⟩
    have hfreed : PrefixPath (freed (detached s e y p z y.best) p z.tc t) a x q ↔ _ := prefixPath_freed
    rw [prefixPath_detached hz] at hfreed
    exact hfreed

theorem deleteRoutingTable_paths (h : RibWf s) (hlen : d.prefixLen ≤ maxplen env.cnf)
    (hdel : olsrDeleteRoutingTable env s d o = some s') : Removed s o (fun x => x = d) s' := by
  rcases olsrDeleteRoutingTable_cases hdel with ⟨rfl, hnone⟩ | ⟨p, s₁, -, hp, hpath, rfl⟩
  · refine ⟨h, fun _ => Iff.rfl, fun a x => ?_⟩
    rw [iff_self_and]
    rintro hx ⟨rfl, rfl⟩
    have hsome := h.isSome_findPath.2 hx
    rw [hnone hlen] at hsome
    cases hsome
  · obtain ⟨hknown, hpaths⟩ := deleteRtPath_paths hpath
    obtain ⟨t, ht, hfind⟩ := Option.bind_eq_some_iff.1 hp
    have hd : PrefixPath s o d p := (h.prefixTree o t ht).find_iff.1 hfind
    refine ⟨(h.deleteRtPath hpath).of_eq rfl rfl rfl rfl, hknown, fun a x => ?_⟩
    show (∃ q, PrefixPath s₁ a x q) ↔ (∃ q, PrefixPath s a x q) ∧ _
    simp only [hpaths]
    constructor
    · rintro ⟨q, hq, hne⟩
      refine ⟨⟨q, hq⟩, ?_⟩
      rintro ⟨rfl, rfl⟩
      exact hne ((h.prefixTree a t ht).unique hq hd)
    · rintro ⟨⟨q, hq⟩, hnot⟩
      refine ⟨q, hq, ?_⟩
      rintro rfl
      obtain ⟨z, hz, rfl, rfl⟩ := hq
      obtain ⟨z', hz', rfl, rfl⟩ := hd
      obtain rfl := Option.some.inj (hz.symm.trans hz')
      exact hnot ⟨rfl, rfl⟩

theorem deleteRtPaths_paths : ∀ {l : List Ptr} {s s' : Rib}, RibWf s → Run.forEach olsrDeleteRtPath l s = some s' →
    RibWf s' ∧ (∀ a, Known s' a ↔ Known s a) ∧ ∀ a x q, PrefixPath s' a x q ↔ PrefixPath s a x q ∧ q ∉ l
  | [], s, s', h, hloop => by
    obtain rfl := Option.some.inj hloop
    exact ⟨h, fun _ => Iff.rfl, fun a x q => by simp⟩
  | p :: l, s, s', h, hloop => by
    obtain ⟨s₁, hdel, hloop⟩ := Run.forEach_cons.1 hloop
    obtain ⟨hknown₁, hpaths₁⟩ := deleteRtPath_paths hdel
    obtain ⟨hw, hknown, hpaths⟩ := deleteRtPaths_paths (h.deleteRtPath hdel) hloop
    refine ⟨hw, fun a => (hknown a).trans (hknown₁ a), fun a x q => ?_⟩
    rw [hpaths, hpaths₁, List.mem_cons, not_or, and_assoc]

/-- Without its paths, an entry leaves nothing behind. -/
theorem deleteTcEntry_paths (h : RibWf s) (hdel : olsrDeleteTcEntry env s o = some s') :
    RibWf s' ∧ (∀ a, Known s' a ↔ Known s a ∧ a ≠ o) ∧ ∀ a x, HasPath s' a x ↔ HasPath s a x ∧ a ≠ o := by
  obtain ⟨s₁, hown, hdel⟩ := Option.bind_eq_some_iff.1 hdel
  obtain ⟨t, ht, hdel⟩ := Option.bind_eq_some_iff.1 hdel
  obtain ⟨s₂, hloop, hdel⟩ := Option.bind_eq_some_iff.1 hdel
  obtain rfl := Option.some.inj hdel
  have h₁ := deleteRoutingTable_paths h (le_refl _) hown
  obtain ⟨hw₂, hknown₂, hpaths₂⟩ := deleteRtPaths_paths h₁.wf hloop
  have hnone (x : IpPrefix) (q : Ptr) : ¬ PrefixPath s₂ o x q := by
    intro hq
    obtain ⟨hq, hnot⟩ := (hpaths₂ o x q).1 hq
    exact hnot (List.mem_map.2 ⟨(x, q), ((h₁.wf.prefixTree o t ht).mem x q).2 hq, rfl⟩)
  have hempty : s₂.prefixTree o = some [] := by
    obtain ⟨t', ht'⟩ := Option.isSome_iff_exists.1 ((hknown₂ o).2 (show (s₁.prefixTree o).isSome by rw [ht]; rfl))
    have hnil : t' = [] := by
      refine List.eq_nil_iff_forall_not_mem.2 ?_
      rintro ⟨x, q⟩ hmem
      exact hnone x q (((hw₂.prefixTree o t' ht').mem x q).1 hmem)
    rw [ht', hnil]
  refine ⟨hw₂.dropTc hempty, fun a => ?_, fun a x => ?_⟩
  · show (Function.update s₂.prefixTree o none a).isSome ↔ _
    by_cases ha : a = o
    · subst ha; simp
    · rw [Function.update_of_ne ha]
      exact ((hknown₂ a).trans (h₁.known a)).trans (and_iff_left ha).symm
  · show (∃ q, PrefixPath s₂ a x q) ↔ _
    constructor
    · rintro ⟨q, hq⟩
      exact ⟨((h₁.paths a x).1 ⟨q, ((hpaths₂ a x q).1 hq).1⟩).1, by rintro rfl; exact hnone x q hq⟩
    · rintro ⟨hx, hne⟩
      obtain ⟨q, hq⟩ := (h₁.paths a x).2 ⟨hx, fun hao => hne hao.1⟩
      refine ⟨q, (hpaths₂ a x q).2 ⟨hq, fun hmem => hne ?_⟩⟩
      obtain ⟨⟨x', q'⟩, hin, rfl⟩ := List.mem_map.1 hmem
      obtain ⟨z, hz, rfl, -⟩ := ((h₁.wf.prefixTree o t ht).mem x' q').1 hin
      obtain ⟨z', hz', rfl, -⟩ := hq
      rw [Option.some.inj (hz'.symm.trans hz)]

end

/-! ## Sources -/

section

variable {env : NodeEnv} {n n' : Sources} {o a : IpAddr}

/-- A live source needs the path of `o` to `d`. -/
def Needed (env : NodeEnv) (n : Sources) (o : IpAddr) (d : IpPrefix) : Prop :=
  (Known n.rib o ∧ d = hostPrefix env.cnf o) ∨
    (∃ a, midLookupMainAddr n.mid a = some o ∧ d = hostPrefix env.cnf a) ∨ d ∈ n.hna o

/-- The paths are those that are needed. -/
structure Owned (env : NodeEnv) (n : Sources) : Prop where
  wf : RibWf n.rib
  mid : MidWf n.mid
  nets : ∀ o d, d ∈ n.hna o → d.prefixLen ≤ maxplen env.cnf
  paths : ∀ o d, HasPath n.rib o d ↔ Needed env n o d

theorem hostPrefix_inj {cnf : Cnf} {a b : IpAddr} : hostPrefix cnf a = hostPrefix cnf b ↔ a = b := by
  simp [hostPrefix]

/-- A path to `d` and, for a new entry, to `o` itself are what comes and what is needed. -/
theorem Owned.inserted (h : Owned env n) {d : IpPrefix} (hins : Inserted n.rib o d env.cnf n'.rib) (hmid : MidWf n'.mid)
    (hnets : ∀ o d, d ∈ n'.hna o → d.prefixLen ≤ maxplen env.cnf)
    (hneeded : ∀ a x, Needed env n' a x ↔ Needed env n a x ∨ (a = o ∧ (x = d ∨ x = hostPrefix env.cnf o))) :
    Owned env n' := by
  refine ⟨hins.wf, hmid, hnets, fun a x => ?_⟩
  rw [hins.paths, h.paths, hneeded]
  by_cases hknown : Known n.rib o
  · -- the path to a known originator is needed already
    constructor
    · rintro (hx | ⟨rfl, rfl | ⟨-, hno⟩⟩)
      · exact .inl hx
      · exact .inr ⟨rfl, .inl rfl⟩
      · exact absurd hknown hno
    · rintro (hx | ⟨rfl, rfl | rfl⟩)
      · exact .inl hx
      · exact .inr ⟨rfl, .inl rfl⟩
      · exact .inl (.inl ⟨hknown, rfl⟩)
  · simp only [hknown, not_false_eq_true, and_true]

/-- Paths to aliases go that nothing else needs. -/
theorem Owned.removed (h : Owned env n) {l : List IpAddr}
    (hrem : Removed n.rib o (fun x => ∃ b ∈ l, x = hostPrefix env.cnf b) n'.rib) (hmid : MidWf n'.mid)
    (hlookup : ∀ b o', midLookupMainAddr n'.mid b = some o' ↔ midLookupMainAddr n.mid b = some o' ∧ ¬ (o' = o ∧ b ∈ l))
    (hhna : n'.hna = n.hna) (hspared : ∀ b ∈ l, b ≠ o ∧ hostPrefix env.cnf b ∉ n.hna o) : Owned env n' := by
  refine ⟨hrem.wf, hmid, hhna ▸ h.nets, fun a x => ?_⟩
  rw [hrem.paths, h.paths]
  unfold Needed
  rw [hrem.known, hhna]
  simp only [hlookup]
  constructor
  · rintro ⟨hx | ⟨b, hb, rfl⟩ | hx, hnot⟩
    · exact .inl hx
    · refine .inr (.inl ⟨b, ⟨hb, ?_⟩, rfl⟩)
      rintro ⟨rfl, hbl⟩
      exact hnot ⟨rfl, b, hbl, rfl⟩
    · exact .inr (.inr hx)
  · rintro (⟨hknown, rfl⟩ | ⟨b, ⟨hb, hbl⟩, rfl⟩ | hx)
    · refine ⟨.inl ⟨hknown, rfl⟩, ?_⟩
      rintro ⟨rfl, c, hc, hac⟩
      exact (hspared c hc).1 (hostPrefix_inj.1 hac).symm
    · refine ⟨.inr (.inl ⟨b, hb, rfl⟩), ?_⟩
      rintro ⟨rfl, c, hc, hbc⟩
      obtain rfl := hostPrefix_inj.1 hbc
      exact hbl ⟨rfl, hc⟩
    · refine ⟨.inr (.inr hx), ?_⟩
      rintro ⟨rfl, c, hc, rfl⟩
      exact (hspared c hc).2 hx

theorem deleteAliasPaths_paths : ∀ {l : List IpAddr} {s s' : Rib}, RibWf s → deleteAliasPaths env o l s = some s' →
    Removed s o (fun x => ∃ b ∈ l, x = hostPrefix env.cnf b) s'
  | [], s, s', h, hloop => by
    obtain rfl := Option.some.inj hloop
    exact ⟨h, fun _ => Iff.rfl, fun a x => by simp⟩
  | b :: l, s, s', h, hloop => by
    obtain ⟨s₁, hdel, hloop⟩ := Run.forEach_cons.1 hloop
    have h₁ := deleteRoutingTable_paths h (le_refl _) (stepTable_cases hdel).2
    have h₂ := deleteAliasPaths_paths h₁.wf hloop
    refine ⟨h₂.wf, fun a => (h₂.known a).trans (h₁.known a), fun a x => ?_⟩
    rw [h₂.paths, h₁.paths, and_assoc, ← not_or, ← and_or_left]
    simp only [List.mem_cons, exists_eq_or_imp]

/-! ## Steps -/

/-- Nothing else needs the paths of `o` to these aliases. -/
def Spared (env : NodeEnv) (n : Sources) (o : IpAddr) (aliases : List IpAddr) : Prop :=
  ∀ b ∈ aliases, b ≠ o ∧ hostPrefix env.cnf b ∉ n.hna o

/-- `insert_mid_alias` forgets no alias whose path is needed by something else. -/
def ForgetsSpared (env : NodeEnv) (n : Sources) (x : AliasInput) : Prop :=
  olsrValidateAddress env.cnf x.aliasAddr = true → x.neighbor = true → ∀ mid,
    midLookupEntryBymain n.mid x.aliasAddr = some mid →
      Spared env n x.aliasAddr (mid.aliases.map MidAddress.aliasAddr)

theorem Owned.deleteMidEntry (h : Owned env n) {mid : MidEntry}
    (hmid : midLookupEntryBymain n.mid mid.mainAddr = some mid)
    (hspared : Spared env n mid.mainAddr (mid.aliases.map MidAddress.aliasAddr))
    (hdel : deleteMidEntry env n mid = some n') : Owned env n' := by
  obtain ⟨rib, hrib, hdel⟩ := Option.bind_eq_some_iff.1 hdel
  obtain rfl := Option.some.inj hdel
  exact h.removed (deleteAliasPaths_paths h.wf hrib) (h.mid.deleteMidEntry hmid)
    (fun b o' => h.mid.keys.lookup_olsrDeleteMidEntry) rfl hspared

theorem Owned.pruneAliases (h : Owned env n) {now vtime : Nat} {declared : List IpAddr}
    (hspared : ∀ mid, midLookupEntryBymain n.mid o = some mid → Spared env n o (prunedAliases now declared mid))
    (hprune : olsrPruneAliases env n now o vtime declared = some n') : Owned env n' := by
  unfold olsrPruneAliases at hprune
  split at hprune
  · obtain rfl := Option.some.inj hprune
    exact h
  · rename_i mid hmid
    obtain rfl := midLookupEntryBymain_mainAddr hmid
    obtain ⟨rib, hrib, hprune⟩ := Option.bind_eq_some_iff.1 hprune
    obtain rfl := Option.some.inj hprune
    exact h.removed (deleteAliasPaths_paths h.wf hrib) (h.mid.prune hmid) (fun b o' => h.mid.keys.lookup_prune) rfl
      (hspared mid hmid)

theorem Owned.insertMidTuple (h : Owned env n) {now vtime : Nat} {x : AliasInput}
    (hfree : midLookupMainAddr n.mid x.aliasAddr = none ∨ midLookupMainAddr n.mid x.aliasAddr = some o)
    (hins : insertMidTuple env n now o x vtime = some n') : Owned env n' := by
  unfold Routing.insertMidTuple at hins
  split at hins
  · obtain rfl := Option.some.inj hins
    exact h
  · rename_i hnot
    have hnone := hfree.resolve_right hnot
    obtain ⟨rib, hrib, hins⟩ := Option.bind_eq_some_iff.1 hins
    obtain rfl := Option.some.inj hins
    have hpath := insertRoutingTable_paths h.wf (le_refl _) hrib
    refine h.inserted (d := hostPrefix env.cnf x.aliasAddr) hpath (h.mid.register hnone) h.nets fun a d => ?_
    unfold Needed
    dsimp only
    rw [hpath.known]
    simp only [midLookupMainAddr_register]
    constructor
    · rintro (⟨hknown | rfl, rfl⟩ | ⟨b, hb, rfl⟩ | hd)
      · exact .inl (.inl ⟨hknown, rfl⟩)
      · exact .inr ⟨rfl, .inr rfl⟩
      · split at hb
        · rename_i hbx
          exact .inr ⟨(Option.some.inj hb).symm, .inl (by rw [hbx])⟩
        · exact .inl (.inr (.inl ⟨b, hb, rfl⟩))
      · exact .inl (.inr (.inr hd))
    · rintro ((⟨hknown, rfl⟩ | ⟨b, hb, rfl⟩ | hd) | ⟨rfl, rfl | rfl⟩)
      · exact .inl ⟨.inl hknown, rfl⟩
      · refine .inr (.inl ⟨b, ?_, rfl⟩)
        rw [if_neg, hb]
        rintro rfl
        rw [hnone] at hb
        cases hb
      · exact .inr (.inr hd)
      · exact .inr (.inl ⟨x.aliasAddr, if_pos rfl, rfl⟩)
      · exact .inl ⟨.inr rfl, rfl⟩

theorem Owned.insertMidAlias (h : Owned env n) {now vtime : Nat} {x : AliasInput} (hspared : ForgetsSpared env n x)
    (hfree : midLookupMainAddr n.mid x.aliasAddr = none ∨
      (midLookupMainAddr n.mid x.aliasAddr = some o ∧ o ≠ x.aliasAddr))
    (hins : insertMidAlias env n now o x vtime = some n') : Owned env n' := by
  unfold Routing.insertMidAlias at hins
  split at hins
  · obtain rfl := Option.some.inj hins
    exact h
  · rename_i hvalid
    obtain ⟨n₁, hforget, hins⟩ := Option.bind_eq_some_iff.1 hins
    unfold forgetMainAddr at hforget
    split at hforget
    · rename_i mid hmid
      split at hforget
      · rename_i hneighbor
        have hmain := midLookupEntryBymain_mainAddr hmid
        have hforgotten := hspared (by simpa using hvalid) hneighbor mid hmid
        rw [← hmain] at hmid hforgotten
        have h₁ := h.deleteMidEntry hmid hforgotten hforget
        refine h₁.insertMidTuple ?_ hins
        obtain ⟨rib, -, hforget⟩ := Option.bind_eq_some_iff.1 hforget
        obtain rfl := Option.some.inj hforget
        -- the registration of the alias itself is not among the forgotten ones
        rcases hfree with hnone | ⟨hsome, hne⟩
        · left
          refine Option.eq_none_iff_forall_ne_some.2 fun o' ho' => ?_
          have hold := (h.mid.keys.lookup_olsrDeleteMidEntry.1 ho').1
          rw [hnone] at hold
          cases hold
        · right
          refine h.mid.keys.lookup_olsrDeleteMidEntry.2 ⟨hsome, ?_⟩
          rintro ⟨ho, -⟩
          exact hne (ho.trans hmain)
      · obtain rfl := Option.some.inj hforget
        exact h.insertMidTuple (hfree.imp id And.left) hins
    · obtain rfl := Option.some.inj hforget
      exact h.insertMidTuple (hfree.imp id And.left) hins

/-- The path of an alias that is registered is added once more. -/
theorem Owned.insertAliasPath (h : Owned env n) {x : AliasInput} {rib : Rib}
    (hneeded : x.aliasAddr = o ∨ Needed env n o (hostPrefix env.cnf x.aliasAddr))
    (hins : insertAliasPath env n.rib o x = some rib) : Owned env { n with rib := rib } := by
  have hpath := insertRoutingTable_paths h.wf (le_refl _) hins
  refine h.inserted (d := hostPrefix env.cnf x.aliasAddr) hpath h.mid h.nets fun a d => ?_
  unfold Needed
  dsimp only
  rw [hpath.known]
  constructor
  · rintro (⟨hknown | rfl, rfl⟩ | hb)
    · exact .inl (.inl ⟨hknown, rfl⟩)
    · exact .inr ⟨rfl, .inr rfl⟩
    · exact .inl (.inr hb)
  · rintro ((⟨hknown, rfl⟩ | hb) | ⟨rfl, rfl | rfl⟩)
    · exact .inl ⟨.inl hknown, rfl⟩
    · exact .inr hb
    · rcases hneeded with rfl | hx
      · exact .inl ⟨.inr rfl, rfl⟩
      · exact hx.imp (fun hx => ⟨.inl hx.1, hx.2⟩) id
    · exact .inl ⟨.inr rfl, rfl⟩

theorem Owned.updateHnaEntry (h : Owned env n) {net : IpPrefix} {p q : Ptr} (hlen : net.prefixLen ≤ maxplen env.cnf)
    (hins : olsrUpdateHnaEntry env n o net p q = some n') : Owned env n' := by
  obtain ⟨rib, hrib, hins⟩ := Option.bind_eq_some_iff.1 hins
  obtain rfl := Option.some.inj hins
  have hpath := insertRoutingTable_paths h.wf hlen hrib
  have hnets (a : IpAddr) (d : IpPrefix) : d ∈ Function.update n.hna o
      (if (n.hna o).contains net then n.hna o else net :: n.hna o) a ↔ d ∈ n.hna a ∨ (a = o ∧ d = net) := by
    by_cases ha : a = o
    · subst ha
      rw [Function.update_self]
      split
      · rename_i hin
        rw [iff_self_or]
        rintro ⟨-, rfl⟩
        simpa using hin
      · rw [List.mem_cons, or_comm]
        simp
    · rw [Function.update_of_ne ha]
      simp [ha]
  refine h.inserted hpath h.mid (fun a d hd => ?_) fun a d => ?_
  · rcases (hnets a d).1 hd with hd | ⟨-, rfl⟩
    · exact h.nets a d hd
    · exact hlen
  unfold Needed
  dsimp only
  rw [hpath.known, hnets]
  constructor
  · rintro (⟨hknown | rfl, rfl⟩ | hb | hd | ⟨rfl, rfl⟩)
    · exact .inl (.inl ⟨hknown, rfl⟩)
    · exact .inr ⟨rfl, .inr rfl⟩
    · exact .inl (.inr (.inl hb))
    · exact .inl (.inr (.inr hd))
    · exact .inr ⟨rfl, .inl rfl⟩
  · rintro ((⟨hknown, rfl⟩ | hb | hd) | ⟨rfl, rfl | rfl⟩)
    · exact .inl ⟨.inl hknown, rfl⟩
    · exact .inr (.inl hb)
    · exact .inr (.inr (.inl hd))
    · exact .inr (.inr (.inr ⟨rfl, rfl⟩))
    · exact .inl ⟨.inr rfl, rfl⟩

theorem Owned.expireHnaNetEntry (h : Owned env n) {net : IpPrefix} (hin : net ∈ n.hna o)
    (hhost : net ≠ hostPrefix env.cnf o)
    (haliases : ∀ b, midLookupMainAddr n.mid b = some o → net ≠ hostPrefix env.cnf b)
    (hdel : olsrDeleteHnaNetEntry env n o net = some n') : Owned env n' := by
  obtain ⟨rib, hrib, hdel⟩ := Option.bind_eq_some_iff.1 hdel
  obtain rfl := Option.some.inj hdel
  have hpath := deleteRoutingTable_paths h.wf (h.nets o net hin) (stepTable_cases hrib).2
  have hnets (a : IpAddr) (d : IpPrefix) : d ∈ Function.update n.hna o ((n.hna o).filter fun d => d != net) a ↔
      d ∈ n.hna a ∧ ¬ (a = o ∧ d = net) := by
    by_cases ha : a = o
    · subst ha
      rw [Function.update_self]
      simp
    · rw [Function.update_of_ne ha]
      simp [ha]
  refine ⟨hpath.wf, h.mid, fun a d hd => h.nets a d ((hnets a d).1 hd).1, fun a d => ?_⟩
  rw [hpath.paths, h.paths]
  unfold Needed
  dsimp only
  rw [hpath.known, hnets]
  constructor
  · rintro ⟨hx | hb | hd, hnot⟩
    · exact .inl hx
    · exact .inr (.inl hb)
    · exact .inr (.inr ⟨hd, hnot⟩)
  · rintro (⟨hknown, rfl⟩ | ⟨b, hb, rfl⟩ | ⟨hd, hnot⟩)
    · refine ⟨.inl ⟨hknown, rfl⟩, ?_⟩
      rintro ⟨rfl, heq⟩
      exact hhost heq.symm
    · refine ⟨.inr (.inl ⟨b, hb, rfl⟩), ?_⟩
      rintro ⟨rfl, heq⟩
      exact haliases b hb heq.symm
    · exact ⟨.inr (.inr hd), hnot⟩

theorem Owned.locateTcEntry (h : Owned env n) {p : Ptr} (hp : n.rib.path p = none) {rib : Rib}
    (hloc : olsrLocateTcEntry env.toEnv n.rib o p = some rib) : Owned env { n with rib := rib } := by
  have hwf := (h.wf.locateTcEntry hp hloc).1
  obtain ⟨hknown, hpaths⟩ := locateTcEntry_paths h.wf hp hloc
  refine ⟨hwf, h.mid, h.nets, fun a d => ?_⟩
  rw [hpaths, h.paths]
  unfold Needed
  dsimp only
  rw [hknown]
  constructor
  · rintro ((⟨hold, rfl⟩ | hb) | ⟨rfl, rfl, -⟩)
    · exact .inl ⟨.inl hold, rfl⟩
    · exact .inr hb
    · exact .inl ⟨.inr rfl, rfl⟩
  · rintro (⟨hold | rfl, rfl⟩ | hb)
    · exact .inl (.inl ⟨hold, rfl⟩)
    · by_cases hold : Known n.rib a
      · exact .inl (.inl ⟨hold, rfl⟩)
      · exact .inr ⟨rfl, rfl, hold⟩
    · exact .inl (.inr hb)

theorem Owned.deleteTcEntry (h : Owned env n) (hmid : ∀ b, midLookupMainAddr n.mid b ≠ some o) (hhna : n.hna o = [])
    {rib : Rib} (hdel : olsrDeleteTcEntry env.toEnv n.rib o = some rib) : Owned env { n with rib := rib } := by
  obtain ⟨hwf, hknown, hpaths⟩ := deleteTcEntry_paths h.wf hdel
  refine ⟨hwf, h.mid, h.nets, fun a d => ?_⟩
  rw [hpaths, h.paths]
  unfold Needed
  dsimp only
  rw [hknown]
  constructor
  · rintro ⟨⟨hold, rfl⟩ | hb, hne⟩
    · exact .inl ⟨⟨hold, hne⟩, rfl⟩
    · exact .inr hb
  · rintro (⟨⟨hold, hne⟩, rfl⟩ | ⟨b, hb, rfl⟩ | hd)
    · exact ⟨.inl ⟨hold, rfl⟩, hne⟩
    · exact ⟨.inr (.inl ⟨b, hb, rfl⟩), by rintro rfl; exact hmid b hb⟩
    · refine ⟨.inr (.inr hd), ?_⟩
      rintro rfl
      rw [hhna] at hd
      cases hd

/-! ## Runs -/

/-- The event takes no path from a source that is left, and leaves none without a source. -/
def SourceEvent.Unshared (env : NodeEnv) (n : Sources) : SourceEvent → Prop
  | .locateTcEntry _ _ | .updateMidTable _ _ _ _ => True
  | .deleteTcEntry adr => (∀ b, midLookupMainAddr n.mid b ≠ some adr) ∧ n.hna adr = []
  | .inputMidAlias _ mainAddr _ x => env.ifaddrs.contains x.aliasAddr = false →
      (midLookupMainAddr n.mid x.aliasAddr = none → ForgetsSpared env n x) ∧
      ∀ o, midLookupMainAddr n.mid x.aliasAddr = some o →
        o = mainAddr ∨ x.aliasAddr = mainAddr ∨ hostPrefix env.cnf x.aliasAddr ∈ n.hna mainAddr
  | .pruneAliases now mainAddr _ declared => ∀ mid, midLookupEntryBymain n.mid mainAddr = some mid →
      Spared env n mainAddr (prunedAliases now declared mid)
  | .helloAlias _ sourceAddr _ x => sourceAddr ≠ x.aliasAddr → midLookupMainAddr n.mid x.aliasAddr = none ∨
      midLookupMainAddr n.mid x.aliasAddr = some sourceAddr → ForgetsSpared env n x
  | .expireMidEntry mainAddr => ∀ mid, midLookupEntryBymain n.mid mainAddr = some mid →
      Spared env n mainAddr (mid.aliases.map MidAddress.aliasAddr)
  | .updateHnaEntry _ net _ _ => net.prefixLen ≤ maxplen env.cnf
  | .expireHnaNetEntry gw net => net ≠ hostPrefix env.cnf gw ∧
      ∀ b, midLookupMainAddr n.mid b = some gw → net ≠ hostPrefix env.cnf b

theorem Owned.inputMidAlias (h : Owned env n) {now vtime : Nat} {x : AliasInput}
    (hok : (SourceEvent.inputMidAlias now o vtime x).Unshared env n)
    (hin : inputMidAlias env n now o vtime x = some n') :
    Owned env n' := by
  unfold Routing.inputMidAlias at hin
  split at hin
  · obtain rfl := Option.some.inj hin
    exact h
  · rename_i hown
    obtain ⟨hforget, hforeign⟩ := hok (by simpa using hown)
    split at hin
    · rename_i hnone
      exact h.insertMidAlias (hforget hnone) (.inl hnone) hin
    · rename_i o' hsome
      obtain ⟨rib, hrib, hin⟩ := Option.bind_eq_some_iff.1 hin
      obtain rfl := Option.some.inj hin
      refine h.insertAliasPath ?_ hrib
      rcases hforeign o' hsome with rfl | hself | hnet
      · exact .inr (.inr (.inl ⟨x.aliasAddr, hsome, rfl⟩))
      · exact .inl hself
      · exact .inr (.inr (.inr hnet))

theorem Owned.helloAlias (h : Owned env n) {now vtime : Nat} {x : AliasInput}
    (hok : (SourceEvent.helloAlias now o vtime x).Unshared env n) (hin : helloAlias env n now o vtime x = some n') :
    Owned env n' := by
  unfold Routing.helloAlias at hin
  split at hin
  · obtain rfl := Option.some.inj hin
    exact h
  · rename_i hne
    split at hin
    · rename_i hnone
      exact h.insertMidAlias (hok hne (.inl hnone)) (.inl hnone) hin
    · rename_i o' hsome
      split at hin
      · rename_i heq
        subst heq
        exact h.insertMidAlias (hok hne (.inr hsome)) (.inr ⟨hsome, hne⟩) hin
      · obtain rfl := Option.some.inj hin
        exact h

theorem Owned.step (h : Owned env n) {ev : SourceEvent} (hok : ev.Unshared env n)
    (hstep : stepSources env n ev = some n') : Owned env n' := by
  cases ev with
  | locateTcEntry adr p =>
    simp only [stepSources] at hstep
    split at hstep
    · rename_i hp
      obtain ⟨rib, hrib, rfl⟩ := Option.map_eq_some_iff.1 hstep
      exact h.locateTcEntry (Option.isNone_iff_eq_none.1 hp) hrib
    · cases hstep
  | deleteTcEntry adr =>
    obtain ⟨rib, hrib, rfl⟩ := Option.map_eq_some_iff.1 hstep
    exact h.deleteTcEntry hok.1 hok.2 hrib
  | updateMidTable now random mainAddr vtime =>
    obtain rfl := Option.some.inj hstep
    exact ⟨h.wf, h.mid.updateEntry (fun e => mainAddr_olsrSetMidTimer ..) (fun e => aliases_olsrSetMidTimer ..),
      h.nets, h.paths⟩
  | inputMidAlias now mainAddr vtime x => exact h.inputMidAlias hok hstep
  | pruneAliases now mainAddr vtime declared => exact h.pruneAliases hok hstep
  | helloAlias now sourceAddr vtime x => exact h.helloAlias hok hstep
  | expireMidEntry mainAddr =>
    obtain ⟨mid, hmid, hdel⟩ := Option.bind_eq_some_iff.1 hstep
    have hspared := hok mid hmid
    obtain rfl := midLookupEntryBymain_mainAddr hmid
    exact h.deleteMidEntry hmid hspared hdel
  | updateHnaEntry gw net p q => exact h.updateHnaEntry hok hstep
  | expireHnaNetEntry gw net =>
    simp only [stepSources] at hstep
    split at hstep
    · rename_i hin
      exact h.expireHnaNetEntry (by simpa using hin) hok.1 hok.2 hstep
    · cases hstep

theorem owned_noSources (env : NodeEnv) : Owned env noSources := by
  refine ⟨ribWf_emptyRib, midWf_emptyMidSet, nofun, fun o d => iff_of_false ?_ ?_⟩
  · rintro ⟨p, x, hx, -⟩
    cases hx
  · rintro (⟨hknown, -⟩ | ⟨a, ha, -⟩ | hd)
    · cases hknown
    · cases ha
    · cases hd

/-- In every run of events that share no path, an originator has a path to a prefix if and only if a live source
needs it. -/
theorem reachable_ownership (h : SourcesReachable env (fun n ev => ev.Unshared env n) n) (o : IpAddr) (d : IpPrefix) :
    (findPath n.rib d o).isSome ↔ Needed env n o d := by
  have hinv : Owned env n := by
    refine Run.Reaches.invariant (P := Owned env) ?_ ?_ h
    · rintro _ rfl
      exact owned_noSources env
    · exact fun n ev n' hn hok hstep => hn.step hok hstep
  rw [hinv.wf.isSome_findPath]
  exact hinv.paths o d

end

/-! ## A gateway that announces itself -/

theorem mid_olsrUpdateHnaEntry {env : NodeEnv} {n n' : Sources} {gw : IpAddr} {net : IpPrefix} {p q : Ptr}
    (h : stepSources env n (.updateHnaEntry gw net p q) = some n') : n'.mid = n.mid := by
  change olsrUpdateHnaEntry env n gw net p q = some n' at h
  obtain ⟨rib, -, h⟩ := Option.bind_eq_some_iff.1 h
  obtain rfl := Option.some.inj h
  rfl

def linuxNode : NodeEnv := { linuxRouter with ifaddrs := [[10, 0, 0, 1]] }

/-- A node announces a network and an alias, and the network is not announced any more. -/
def announced : List SourceEvent :=
  [.updateHnaEntry [10, 0, 0, 9] ⟨[192, 168, 1, 0], 24⟩ 0 1,
    .inputMidAlias 0 [10, 0, 0, 9] 6000 ⟨[10, 0, 1, 9], false, 0, 2, 3⟩,
    .expireHnaNetEntry [10, 0, 0, 9] ⟨[192, 168, 1, 0], 24⟩]

/-- The path of the alias is left, the path of the network is not. -/
theorem reachable_ownership_announced : ∃ n, SourcesReachable linuxNode (fun n ev => ev.Unshared linuxNode n) n ∧
    Needed linuxNode n [10, 0, 0, 9] ⟨[10, 0, 1, 9], 32⟩ ∧
    ¬ Needed linuxNode n [10, 0, 0, 9] ⟨[192, 168, 1, 0], 24⟩ := by
  have hrun : ((Run.forEach (stepSources linuxNode) announced noSources).any fun n =>
      (findPath n.rib ⟨[10, 0, 1, 9], 32⟩ [10, 0, 0, 9]).isSome &&
        !(findPath n.rib ⟨[192, 168, 1, 0], 24⟩ [10, 0, 0, 9]).isSome) = true := by decide +kernel
  obtain ⟨n, hn, hend⟩ := (Option.any_eq_true _ _).1 hrun
  rw [Bool.and_eq_true, Bool.not_eq_true', ← Bool.not_eq_true] at hend
  have hnet (b : IpAddr) : (⟨[192, 168, 1, 0], 24⟩ : IpPrefix) ≠ hostPrefix linuxNode.cnf b :=
    fun h => absurd (congrArg IpPrefix.prefixLen h) (by decide : (24 : Nat) ≠ 32)
  have hreach : SourcesReachable linuxNode (fun n ev => ev.Unshared linuxNode n) n := by
    refine Run.reaches_forEach (.init rfl) ?_ hn
    refine ⟨(by decide : (24 : Nat) ≤ 32), fun n₁ h₁ => ⟨fun _ => ⟨fun _ _ => nofun, ?_⟩, fun n₂ _ => ?_⟩⟩
    · rw [mid_olsrUpdateHnaEntry h₁]
      exact nofun
    · exact ⟨⟨hnet _, fun b _ => hnet b⟩, fun _ _ => trivial⟩
  exact ⟨n, hreach, (reachable_ownership hreach _ _).1 hend.1, (reachable_ownership hreach _ _).not.1 hend.2⟩

/-- The network a node announces is its own address. -/
theorem shared_host_path : ∃ n, SourcesReachable linuxNode (fun _ _ => True) n ∧
    ¬ ∀ o d, (findPath n.rib d o).isSome ↔ Needed linuxNode n o d := by
  have hrun : ((Run.forEach (stepSources linuxNode) [.updateHnaEntry [10, 0, 0, 9] ⟨[10, 0, 0, 9], 32⟩ 0 1,
      .expireHnaNetEntry [10, 0, 0, 9] ⟨[10, 0, 0, 9], 32⟩] noSources).any fun n =>
      (n.rib.prefixTree [10, 0, 0, 9]).isSome && (findPath n.rib ⟨[10, 0, 0, 9], 32⟩ [10, 0, 0, 9]).isNone) = true := by
    decide +kernel
  obtain ⟨n, hn, hend⟩ := (Option.any_eq_true _ _).1 hrun
  simp only [Bool.and_eq_true, Option.isNone_iff_eq_none] at hend
  obtain ⟨hknown, hnone⟩ := hend
  refine ⟨n, Run.reaches_forEach (.init rfl) (Run.rounds_of_forall (fun _ _ => trivial) _ _) hn, fun hiff => ?_⟩
  have hsome := (hiff [10, 0, 0, 9] ⟨[10, 0, 0, 9], 32⟩).2 (.inl ⟨hknown, rfl⟩)
  rw [hnone] at hsome
  cases hsome

end Olsrd.Routing
