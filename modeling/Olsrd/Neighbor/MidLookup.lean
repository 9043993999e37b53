/-
What the MID set says about an address after each of its operations. An alias is registered once, and the
entry of its main address lists it.
-/
import Olsrd.Neighbor.MidSet

namespace Olsrd.Neighbor

variable {m : MidSet} {now random vtime : Nat} {a b o o' : IpAddr}

/-! ## Entries -/

theorem mainAddr_olsrSetMidTimer (now random : Nat) (e : MidEntry) (relTimer : Nat) :
    (olsrSetMidTimer now random e relTimer).mainAddr = e.mainAddr := by
  unfold olsrSetMidTimer
  split
  · split <;> rfl
  · rfl

theorem aliases_olsrSetMidTimer (now random : Nat) (e : MidEntry) (relTimer : Nat) :
    (olsrSetMidTimer now random e relTimer).aliases = e.aliases := by
  unfold olsrSetMidTimer
  split
  · split <;> rfl
  · rfl

theorem midLookupEntryBymain_mainAddr {e : MidEntry} (h : midLookupEntryBymain m o = some e) : e.mainAddr = o := by
  simpa using List.find?_some h

theorem find?_map_update {l : List MidEntry} {f : MidEntry → MidEntry} (hf : ∀ e, (f e).mainAddr = e.mainAddr) :
    (l.map fun e => if e.mainAddr == o then f e else e).find? (fun e => e.mainAddr == o') =
      (l.find? fun e => e.mainAddr == o').map fun e => if e.mainAddr == o then f e else e := by
  rw [List.find?_map]
  congr 1
  refine congrArg (fun p => List.find? p l) (funext fun e => ?_)
  simp only [Function.comp_apply]
  split
  · rw [hf]
  · rfl

/-- A change of the entry of `o` is seen under `o` only. -/
theorem midLookupEntryBymain_updateEntry {f : MidEntry → MidEntry} (hf : ∀ e, (f e).mainAddr = e.mainAddr) :
    midLookupEntryBymain (m.updateEntry o f) o' =
      if o' = o then (midLookupEntryBymain m o).map f else midLookupEntryBymain m o' := by
  unfold midLookupEntryBymain MidSet.updateEntry
  dsimp only
  by_cases hbucket : olsrIpHashing o' = olsrIpHashing o
  · rw [hbucket, Function.update_self, find?_map_update hf]
    by_cases ho : o' = o
    · subst ho
      rw [if_pos rfl]
      refine Option.map_congr fun e he => ?_
      rw [if_pos (List.find?_some he)]
    · rw [if_neg ho]
      refine (Option.map_congr fun e he => ?_).trans Option.map_id'
      have hmain : e.mainAddr = o' := by simpa using List.find?_some he
      rw [if_neg (by simpa [hmain] using ho)]
  · rw [Function.update_of_ne hbucket, if_neg (by rintro rfl; exact hbucket rfl)]

/-! ## Aliases -/

theorem find?_cons_alias {l : List (IpAddr × IpAddr)} :
    (((a, o) :: l).find? fun x => x.1 == b).map Prod.snd =
      if b = a then some o else (l.find? fun x => x.1 == b).map Prod.snd := by
  by_cases h : b = a
  · subst h; simp
  · rw [if_neg h, List.find?_cons_of_neg]
    simpa using Ne.symm h

/-- A new alias is found first in its bucket. -/
theorem midLookupMainAddr_queue {m' : MidSet} (hm : m'.reverseMidSet = Function.update m.reverseMidSet (olsrIpHashing a)
    ((a, o) :: m.reverseMidSet (olsrIpHashing a))) :
    midLookupMainAddr m' b = if b = a then some o else midLookupMainAddr m b := by
  unfold midLookupMainAddr
  rw [hm]
  by_cases hbucket : olsrIpHashing b = olsrIpHashing a
  · rw [hbucket, Function.update_self, find?_cons_alias]
  · rw [Function.update_of_ne hbucket, if_neg (by rintro rfl; exact hbucket rfl)]

theorem midLookupMainAddr_register :
    midLookupMainAddr (m.register now random o a vtime) b = if b = a then some o else midLookupMainAddr m b := by
  refine midLookupMainAddr_queue ?_
  unfold MidSet.register
  split
  · rfl
  · rfl

/-- The entry of the main address lists the new alias first. -/
theorem midLookupEntryBymain_register :
    (midLookupEntryBymain (m.register now random o a vtime) o').map MidEntry.aliases =
      if o' = o then some (⟨a, 0⟩ :: ((midLookupEntryBymain m o).map MidEntry.aliases).getD [])
      else (midLookupEntryBymain m o').map MidEntry.aliases := by
  unfold MidSet.register
  cases he : midLookupEntryBymain m o with
  | some e =>
    change (midLookupEntryBymain (m.updateEntry o _) o').map MidEntry.aliases = _
    rw [midLookupEntryBymain_updateEntry, he]
    · split
      · simp [aliases_olsrSetMidTimer]
      · rfl
    · exact fun e => mainAddr_olsrSetMidTimer ..
  | none =>
    unfold midLookupEntryBymain
    dsimp only
    by_cases hbucket : olsrIpHashing o' = olsrIpHashing o
    · rw [hbucket, Function.update_self]
      by_cases ho : o' = o
      · subst ho
        rw [if_pos rfl, List.find?_cons_of_pos]
        · simp [aliases_olsrSetMidTimer]
        · simp [mainAddr_olsrSetMidTimer]
      · rw [if_neg ho, List.find?_cons_of_neg]
        simpa [mainAddr_olsrSetMidTimer] using Ne.symm ho
    · rw [Function.update_of_ne hbucket, if_neg (by rintro rfl; exact hbucket rfl)]

/-- No alias is in its bucket twice. -/
def AliasKeys (m : MidSet) : Prop := ∀ h, ((m.reverseMidSet h).map Prod.fst).Nodup

theorem find?_alias {l : List (IpAddr × IpAddr)} (h : (l.map Prod.fst).Nodup) :
    (l.find? fun x => x.1 == a).map Prod.snd = some o ↔ (a, o) ∈ l := by
  constructor
  · intro hf
    obtain ⟨⟨a', o'⟩, hx, rfl⟩ := Option.map_eq_some_iff.1 hf
    have ha : a' = a := by simpa using List.find?_some hx
    rw [← ha]
    exact List.mem_of_find?_eq_some hx
  · intro hmem
    cases hf : l.find? fun x => x.1 == a with
    | none => simpa using List.find?_eq_none.1 hf (a, o) hmem
    | some x =>
      have ha : x.1 = a := by simpa using List.find?_some hf
      have heq : x = (a, o) := List.inj_on_of_nodup_map h (List.mem_of_find?_eq_some hf) hmem ha
      rw [heq]; rfl

theorem AliasKeys.lookup_iff (h : AliasKeys m) :
    midLookupMainAddr m a = some o ↔ (a, o) ∈ m.reverseMidSet (olsrIpHashing a) :=
  find?_alias (h _)

theorem AliasKeys.dequeueAlias (h : AliasKeys m) (o a : IpAddr) : AliasKeys (m.dequeueAlias o a) := by
  intro k
  show ((Function.update m.reverseMidSet (olsrIpHashing a) _ k).map Prod.fst).Nodup
  by_cases hk : k = olsrIpHashing a
  · subst hk
    rw [Function.update_self]
    exact (h _).sublist (List.erase_sublist.map Prod.fst)
  · rw [Function.update_of_ne hk]
    exact h k

/-- An alias that is dequeued is not found any more. -/
theorem AliasKeys.lookup_dequeueAlias (h : AliasKeys m) :
    midLookupMainAddr (m.dequeueAlias o a) b = some o' ↔ midLookupMainAddr m b = some o' ∧ (b, o') ≠ (a, o) := by
  rw [(h.dequeueAlias o a).lookup_iff, h.lookup_iff]
  show (b, o') ∈ Function.update m.reverseMidSet (olsrIpHashing a) _ (olsrIpHashing b) ↔ _
  by_cases hk : olsrIpHashing b = olsrIpHashing a
  · rw [hk, Function.update_self, (List.Nodup.of_map _ (h _)).mem_erase_iff, and_comm]
  · rw [Function.update_of_ne hk, iff_self_and]
    rintro - heq
    exact hk (congrArg olsrIpHashing (Prod.mk.inj heq).1)

theorem AliasKeys.foldl_dequeueAlias : ∀ {l : List IpAddr} {m : MidSet}, AliasKeys m →
    AliasKeys (l.foldl (MidSet.dequeueAlias o) m) ∧
      ∀ b o', midLookupMainAddr (l.foldl (MidSet.dequeueAlias o) m) b = some o' ↔
        midLookupMainAddr m b = some o' ∧ ¬ (o' = o ∧ b ∈ l)
  | [], m, h => ⟨h, fun b o' => by simp⟩
  | a :: l, m, h => by
    obtain ⟨hkeys, hlookup⟩ := (h.dequeueAlias o a).foldl_dequeueAlias (l := l)
    refine ⟨hkeys, fun b o' => ?_⟩
    rw [List.foldl_cons, hlookup, h.lookup_dequeueAlias]
    simp only [ne_eq, Prod.mk.injEq, List.mem_cons]
    tauto

/-- The entries are not touched by changes in the reverse table. -/
theorem midSet_foldl_dequeueAlias :
    ∀ {l : List IpAddr} {m : MidSet}, (l.foldl (MidSet.dequeueAlias o) m).midSet = m.midSet
  | [], _ => rfl
  | _ :: l, _ => midSet_foldl_dequeueAlias (l := l)

theorem midLookupEntryBymain_foldl_dequeueAlias {l : List IpAddr} :
    midLookupEntryBymain (l.foldl (MidSet.dequeueAlias o) m) o' = midLookupEntryBymain m o' := by
  unfold midLookupEntryBymain
  rw [midSet_foldl_dequeueAlias]

theorem midLookupEntryBymain_olsrDeleteMidEntry {e : MidEntry} :
    midLookupEntryBymain (olsrDeleteMidEntry m e) o' = if o' = e.mainAddr then none else midLookupEntryBymain m o' := by
  unfold midLookupEntryBymain olsrDeleteMidEntry
  dsimp only
  rw [midSet_foldl_dequeueAlias]
  by_cases hk : olsrIpHashing o' = olsrIpHashing e.mainAddr
  · rw [hk, Function.update_self, List.find?_filter]
    by_cases ho : o' = e.mainAddr
    · subst ho
      rw [if_pos rfl, List.find?_eq_none]
      intro x _
      simp
    · rw [if_neg ho]
      refine congrArg (fun p => List.find? p _) (funext fun x => ?_)
      by_cases hx : x.mainAddr = o'
      · simp [hx, ho]
      · simp [hx]
  · rw [Function.update_of_ne hk, if_neg (by rintro rfl; exact hk rfl)]

theorem AliasKeys.lookup_olsrDeleteMidEntry (h : AliasKeys m) {e : MidEntry} :
    midLookupMainAddr (olsrDeleteMidEntry m e) b = some o' ↔
      midLookupMainAddr m b = some o' ∧ ¬ (o' = e.mainAddr ∧ b ∈ e.aliases.map MidAddress.aliasAddr) :=
  (h.foldl_dequeueAlias (l := e.aliases.map MidAddress.aliasAddr)).2 b o'

/-! ## Both tables -/

/-- The entry of a main address lists exactly the aliases that are registered for it. -/
structure MidWf (m : MidSet) : Prop where
  keys : AliasKeys m
  nodup : ∀ o e, midLookupEntryBymain m o = some e → (e.aliases.map MidAddress.aliasAddr).Nodup
  aliases : ∀ o e, midLookupEntryBymain m o = some e →
    ∀ a, a ∈ e.aliases.map MidAddress.aliasAddr ↔ midLookupMainAddr m a = some o
  entry : ∀ a o, midLookupMainAddr m a = some o → (midLookupEntryBymain m o).isSome

theorem midWf_emptyMidSet : MidWf emptyMidSet :=
  ⟨fun _ => List.nodup_nil, nofun, nofun, nofun⟩

theorem MidWf.register (h : MidWf m) (hnew : midLookupMainAddr m a = none) :
    MidWf (m.register now random o a vtime) := by
  have hentry {o' : IpAddr} {e' : MidEntry}
      (he' : midLookupEntryBymain (m.register now random o a vtime) o' = some e') :
        (o' = o ∧ e'.aliases = ⟨a, 0⟩ :: ((midLookupEntryBymain m o).map MidEntry.aliases).getD []) ∨
        (o' ≠ o ∧ ∃ e, midLookupEntryBymain m o' = some e ∧ e'.aliases = e.aliases) := by
    have hmap := @midLookupEntryBymain_register m now random vtime a o o'
    rw [he', Option.map_some] at hmap
    split at hmap
    · exact .inl ⟨‹_›, Option.some.inj hmap⟩
    · obtain ⟨e, he, heq⟩ := Option.map_eq_some_iff.1 hmap.symm
      exact .inr ⟨‹_›, e, he, heq.symm⟩
  have hold (b : IpAddr) : b ∈ (((midLookupEntryBymain m o).map MidEntry.aliases).getD []).map MidAddress.aliasAddr ↔
      midLookupMainAddr m b = some o := by
    cases he : midLookupEntryBymain m o with
    | some e => exact h.aliases o e he b
    | none =>
      refine iff_of_false (by simp) fun hb => ?_
      have hsome := h.entry b o hb
      rw [he] at hsome
      cases hsome
  refine ⟨?_, ?_, ?_, ?_⟩
  · have hreverse : (m.register now random o a vtime).reverseMidSet = Function.update m.reverseMidSet (olsrIpHashing a)
        ((a, o) :: m.reverseMidSet (olsrIpHashing a)) := by
      unfold MidSet.register
      split <;> rfl
    intro k
    rw [hreverse]
    by_cases hk : k = olsrIpHashing a
    · subst hk
      rw [Function.update_self, List.map_cons, List.nodup_cons]
      refine ⟨fun hmem => ?_, h.keys _⟩
      obtain ⟨⟨a', o''⟩, hx, rfl⟩ := List.mem_map.1 hmem
      have hfound : midLookupMainAddr m a' = some o'' := h.keys.lookup_iff.2 hx
      rw [hnew] at hfound
      cases hfound
    · rw [Function.update_of_ne hk]
      exact h.keys k
  · intro o' e' he'
    rcases hentry he' with ⟨rfl, heq⟩ | ⟨-, e, he, heq⟩
    · rw [heq, List.map_cons, List.nodup_cons]
      refine ⟨fun hmem => ?_, ?_⟩
      · rw [hold, hnew] at hmem
        cases hmem
      · cases he : midLookupEntryBymain m o' with
        | some e => exact h.nodup o' e he
        | none => exact List.nodup_nil
    · rw [heq]
      exact h.nodup o' e he
  · intro o' e' he' b
    rw [midLookupMainAddr_register]
    rcases hentry he' with ⟨rfl, heq⟩ | ⟨hne, e, he, heq⟩
    · rw [heq, List.map_cons, List.mem_cons, hold]
      split
      · simp [*]
      · simp [*]
    · rw [heq, h.aliases o' e he b]
      split
      · rename_i hb
        rw [hb, hnew]
        simpa using Ne.symm hne
      · rfl
  · intro b o' hb
    rw [midLookupMainAddr_register] at hb
    have hmap := @midLookupEntryBymain_register m now random vtime a o o'
    have hsome : ((midLookupEntryBymain (m.register now random o a vtime) o').map MidEntry.aliases).isSome := by
      rw [hmap]
      split
      · rfl
      · rename_i hne
        rw [Option.isSome_map]
        split at hb
        · exact absurd (Option.some.inj hb).symm hne
        · exact h.entry b o' hb
    rwa [Option.isSome_map] at hsome

theorem MidWf.deleteMidEntry (h : MidWf m) {e : MidEntry} (he : midLookupEntryBymain m e.mainAddr = some e) :
    MidWf (olsrDeleteMidEntry m e) := by
  have hentry {o' : IpAddr} {e' : MidEntry} (he' : midLookupEntryBymain (olsrDeleteMidEntry m e) o' = some e') :
      o' ≠ e.mainAddr ∧ midLookupEntryBymain m o' = some e' := by
    rw [midLookupEntryBymain_olsrDeleteMidEntry] at he'
    split at he'
    · cases he'
    · exact ⟨‹_›, he'⟩
  refine ⟨(h.keys.foldl_dequeueAlias).1, fun o' e' he' => h.nodup o' e' (hentry he').2, ?_, ?_⟩
  · intro o' e' he' a
    obtain ⟨hne, he''⟩ := hentry he'
    rw [h.keys.lookup_olsrDeleteMidEntry, h.aliases o' e' he'' a, iff_self_and]
    rintro - ⟨ho, -⟩
    exact hne ho
  · intro a o' ha
    obtain ⟨ha, hnot⟩ := h.keys.lookup_olsrDeleteMidEntry.1 ha
    rw [midLookupEntryBymain_olsrDeleteMidEntry, if_neg]
    · exact h.entry a o' ha
    · rintro rfl
      exact hnot ⟨rfl, (h.aliases _ e he a).2 ha⟩

/-- The alias lists of the entries are the same. -/
theorem MidWf.updateEntry (h : MidWf m) {f : MidEntry → MidEntry} (hmain : ∀ e, (f e).mainAddr = e.mainAddr)
    (haliases : ∀ e, (f e).aliases = e.aliases) : MidWf (m.updateEntry o f) := by
  have hentry {o' : IpAddr} {e' : MidEntry} (he' : midLookupEntryBymain (m.updateEntry o f) o' = some e') :
      ∃ e, midLookupEntryBymain m o' = some e ∧ e'.aliases = e.aliases := by
    rw [midLookupEntryBymain_updateEntry hmain] at he'
    split at he'
    · rename_i ho
      obtain ⟨e, he, rfl⟩ := Option.map_eq_some_iff.1 he'
      exact ⟨e, ho ▸ he, haliases e⟩
    · exact ⟨e', he', rfl⟩
  refine ⟨h.keys, ?_, ?_, ?_⟩
  · intro o' e' he'
    obtain ⟨e, he, heq⟩ := hentry he'
    rw [heq]; exact h.nodup o' e he
  · intro o' e' he' a
    obtain ⟨e, he, heq⟩ := hentry he'
    rw [heq]; exact h.aliases o' e he a
  · intro a o' ha
    have hsome := h.entry a o' ha
    rw [midLookupEntryBymain_updateEntry hmain]
    split
    · rename_i ho
      rw [Option.isSome_map, ← ho]
      exact hsome
    · exact hsome

/-! ## Pruned aliases -/

theorem aliasAddr_refreshAlias (now vtime : Nat) (declared : List IpAddr) (a : MidAddress) :
    (refreshAlias now vtime declared a).aliasAddr = a.aliasAddr := by
  unfold refreshAlias
  split <;> rfl

theorem AliasKeys.lookup_prune (h : AliasKeys m) {declared : List IpAddr} {e : MidEntry} :
    midLookupMainAddr (m.prune now vtime declared e) b = some o' ↔
      midLookupMainAddr m b = some o' ∧ ¬ (o' = e.mainAddr ∧ b ∈ prunedAliases now declared e) :=
  (h.foldl_dequeueAlias (l := prunedAliases now declared e)).2 b o'

theorem midLookupEntryBymain_prune {declared : List IpAddr} {e : MidEntry} :
    midLookupEntryBymain (m.prune now vtime declared e) o' =
      if o' = e.mainAddr then (midLookupEntryBymain m e.mainAddr).map fun e =>
        { e with aliases := (e.aliases.filter (keepsAlias now declared)).map (refreshAlias now vtime declared) }
      else midLookupEntryBymain m o' := by
  unfold MidSet.prune
  rw [midLookupEntryBymain_updateEntry, midLookupEntryBymain_foldl_dequeueAlias,
    midLookupEntryBymain_foldl_dequeueAlias]
  exact fun _ => rfl

theorem map_aliasAddr_kept (declared : List IpAddr) (l : List MidAddress) :
    ((l.filter (keepsAlias now declared)).map (refreshAlias now vtime declared)).map MidAddress.aliasAddr =
      (l.filter (keepsAlias now declared)).map MidAddress.aliasAddr := by
  rw [List.map_map]
  exact List.map_congr_left fun x _ => aliasAddr_refreshAlias ..

/-- No alias is kept and pruned at once. -/
theorem mem_keptAliases {declared : List IpAddr} {e : MidEntry} (hnodup : (e.aliases.map MidAddress.aliasAddr).Nodup) :
    a ∈ ((e.aliases.filter (keepsAlias now declared)).map (refreshAlias now vtime declared)).map MidAddress.aliasAddr ↔
      a ∈ e.aliases.map MidAddress.aliasAddr ∧ a ∉ prunedAliases now declared e := by
  rw [map_aliasAddr_kept]
  unfold prunedAliases
  simp only [List.mem_map, List.mem_filter, Bool.not_eq_true', not_exists, not_and]
  constructor
  · rintro ⟨x, ⟨hx, hkeep⟩, rfl⟩
    refine ⟨⟨x, hx, rfl⟩, fun y hy heq => ?_⟩
    obtain rfl := List.inj_on_of_nodup_map hnodup hy.1 hx heq
    rw [hkeep] at hy
    cases hy.2
  · rintro ⟨⟨x, hx, rfl⟩, hno⟩
    refine ⟨x, ⟨hx, ?_⟩, rfl⟩
    by_contra hnot
    exact hno x ⟨hx, by simpa using hnot⟩ rfl

theorem MidWf.prune (h : MidWf m) {declared : List IpAddr} {e : MidEntry}
    (he : midLookupEntryBymain m e.mainAddr = some e) : MidWf (m.prune now vtime declared e) := by
  have hentry {o' : IpAddr} {e' : MidEntry} (he' : midLookupEntryBymain (m.prune now vtime declared e) o' = some e') :
      (o' = e.mainAddr ∧ e'.aliases = (e.aliases.filter (keepsAlias now declared)).map
      (refreshAlias now vtime declared)) ∨
      (o' ≠ e.mainAddr ∧ midLookupEntryBymain m o' = some e') := by
    rw [midLookupEntryBymain_prune, he] at he'
    split at he'
    · rename_i ho
      obtain rfl := Option.some.inj he'
      exact .inl ⟨ho, rfl⟩
    · exact .inr ⟨‹_›, he'⟩
  have hnodup := h.nodup _ e he
  refine ⟨(h.keys.foldl_dequeueAlias).1, ?_, ?_, ?_⟩
  · intro o' e' he'
    rcases hentry he' with ⟨rfl, heq⟩ | ⟨-, he''⟩
    · rw [heq, map_aliasAddr_kept]
      exact hnodup.sublist (List.filter_sublist.map _)
    · exact h.nodup o' e' he''
  · intro o' e' he' a
    rw [h.keys.lookup_prune]
    rcases hentry he' with ⟨rfl, heq⟩ | ⟨hne, he''⟩
    · rw [heq, mem_keptAliases hnodup, h.aliases _ e he a]
      simp
    · rw [h.aliases o' e' he'' a]
      simp [hne]
  · intro a o' ha
    obtain ⟨ha, -⟩ := h.keys.lookup_prune.1 ha
    have hsome := h.entry a o' ha
    rw [midLookupEntryBymain_prune]
    split
    · rename_i ho
      rw [Option.isSome_map, ← ho]
      exact hsome
    · exact hsome

end Olsrd.Neighbor
