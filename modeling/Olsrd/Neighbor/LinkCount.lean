/-
Links refer to neighbour entries, and an entry counts the links that refer to it. The count is carried
through everything but the insertion of an alias for a node with a neighbour entry under that alias.
-/
import Olsrd.Neighbor.Keys

namespace Olsrd.Neighbor

variable {env : Env} {s s' : Nbh}

/-! ## References -/

/-- A link and the neighbour entry it refers to. -/
def LinkEntry.ref (l : LinkEntry) : Ptr × Ptr := (l.id, l.neighbor)

def refs (s : Nbh) : List (Ptr × Ptr) := s.links.map LinkEntry.ref

/-- The number of links that refer to `p`. -/
def refCount (r : List (Ptr × Ptr)) (p : Ptr) : Nat := r.countP fun x => x.2 == p

def countOf (s : Nbh) (p : Ptr) : Option Int := (s.nbr p).map NeighborEntry.linkcount

theorem countOf_eq {p : Ptr} {e : NeighborEntry} (he : s.nbr p = some e) : countOf s p = some e.linkcount := by
  unfold countOf; rw [he]; rfl

theorem mem_refs {l : LinkEntry} (hl : l ∈ s.links) : l.ref ∈ refs s := List.mem_map_of_mem hl

/-- Every reference is to an entry, and every entry counts its references, of which there is one at least. -/
structure Counted (s : Nbh) : Prop where
  live : ∀ x ∈ refs s, (countOf s x.2).isSome
  count : ∀ p n, countOf s p = some n → n = refCount (refs s) p ∧ 0 < refCount (refs s) p
  nodup : ((refs s).map Prod.fst).Nodup
  fresh : ∀ x ∈ refs s, x.1 < s.fresh

structure SameCounts (s s' : Nbh) : Prop where
  counts : ∀ p, countOf s' p = countOf s p
  refs : Neighbor.refs s' = Neighbor.refs s
  fresh : s.fresh ≤ s'.fresh

namespace SameCounts

theorem trans {s'' : Nbh} (h : SameCounts s s') (h' : SameCounts s' s'') : SameCounts s s'' :=
  ⟨fun p => (h'.counts p).trans (h.counts p), h'.refs.trans h.refs, h.fresh.trans h'.fresh⟩

theorem of_eq (hnbr : s'.nbr = s.nbr) (hlinks : s'.links = s.links) (hfresh : s.fresh ≤ s'.fresh) : SameCounts s s' :=
  ⟨fun p => by unfold countOf; rw [hnbr], by unfold Neighbor.refs; rw [hlinks], hfresh⟩

theorem updateLink (s : Nbh) (id : Ptr) {f : LinkEntry → LinkEntry} (hf : ∀ l, (f l).ref = l.ref) :
    SameCounts s (s.updateLink id f) := by
  refine ⟨fun _ => rfl, ?_, le_refl _⟩
  unfold Neighbor.refs Nbh.updateLink
  rw [List.map_map]
  refine List.map_congr_left fun l _ => ?_
  show LinkEntry.ref (if l.id = id then f l else l) = l.ref
  split
  · exact hf l
  · rfl

theorem setNbr {p : Ptr} {e f : NeighborEntry} (he : s.nbr p = some e) (hc : f.linkcount = e.linkcount) :
    SameCounts s (s.setNbr p f) := by
  refine ⟨fun q => ?_, rfl, le_refl _⟩
  unfold countOf Nbh.setNbr
  by_cases hq : q = p
  · subst hq; simp [he, hc]
  · simp [Function.update_of_ne hq]

theorem rekeyed {p : Ptr} {e : NeighborEntry} (he : s.nbr p = some e) (a : IpAddr) : SameCounts s (rekeyed s p e a) :=
  (setNbr (f := { e with mainAddr := a }) he rfl).trans (of_eq rfl rfl (le_refl _))

end SameCounts

theorem TwoHopOnly.sameCounts (h : TwoHopOnly s s') : SameCounts s s' := by
  refine ⟨fun p => ?_, by unfold refs; rw [h.links], h.fresh⟩
  have hp := congrArg (Option.map fun c => c.2.2.2) (h.nbr p)
  rw [Option.map_map, Option.map_map] at hp
  exact hp

theorem sameCounts_updateNeighborStatus {p : Ptr} {lnk : LinkStatus} (h : updateNeighborStatus env s p lnk = some s') :
    SameCounts s s' := by
  obtain ⟨s₁, e, e₁, h₁, -, he₁, rfl⟩ := updateNeighborStatus_cases h
  have hset : SameCounts s₁ (s₁.setNbr p { e₁ with sym := decide (lnk = .sym) }) := .setNbr he₁ rfl
  exact h₁.sameCounts.trans (hset.trans (.of_eq rfl rfl (le_refl _)))

theorem ref_sensedLink (now random : Nat) (message : HelloMessage) (ifc : Interface) (hyst : Option LinkStatus)
    (l : LinkEntry) : (sensedLink now random message ifc hyst l).ref = l.ref := by
  unfold sensedLink
  dsimp only
  cases checkLinkStatus ifc .unspec message.neighbors <;> (dsimp only; split <;> [split; skip]) <;> rfl

namespace Counted

theorem same (h : Counted s) (h' : SameCounts s s') : Counted s' where
  live := by
    rw [h'.refs]
    intro x hx
    rw [h'.counts]
    exact h.live x hx
  count := by
    rw [h'.refs]
    intro p n hn
    rw [h'.counts] at hn
    exact h.count p n hn
  nodup := by rw [h'.refs]; exact h.nodup
  fresh := by
    rw [h'.refs]
    exact fun x hx => (h.fresh x hx).trans_le h'.fresh

/-- Entries are there exactly as long as links refer to them. -/
theorem isSome_iff (h : Counted s) {p : Ptr} : (s.nbr p).isSome ↔ ∃ l ∈ s.links, l.neighbor = p := by
  constructor
  · intro hp
    obtain ⟨e, he⟩ := Option.isSome_iff_exists.1 hp
    obtain ⟨x, hx, hxp⟩ := List.countP_pos_iff.1 (h.count p _ (countOf_eq he)).2
    obtain ⟨l, hl, rfl⟩ := List.mem_map.1 hx
    exact ⟨l, hl, beq_iff_eq.1 hxp⟩
  · rintro ⟨l, hl, rfl⟩
    have hlive := h.live _ (mem_refs hl)
    unfold countOf at hlive
    rwa [Option.isSome_map] at hlive

/-- A new link, to an entry that is as before or was not there before. -/
theorem createLink (h : Counted s) {s₁ : Nbh} {p : Ptr} {e : NeighborEntry} {l : LinkEntry}
    (hother : ∀ q, q ≠ p → countOf s₁ q = countOf s q) (he : s₁.nbr p = some e)
    (hcount : e.linkcount = refCount (refs s) p) (hl : l.ref = (s.fresh, p)) (hfresh : s.fresh < s₁.fresh) :
    Counted { s₁.setNbr p { e with linkcount := e.linkcount + 1 } with links := s.links ++ [l] } := by
  have hrefs : refs { s₁.setNbr p { e with linkcount := e.linkcount + 1 } with links := s.links ++ [l] } =
      refs s ++ [(s.fresh, p)] := by
    unfold refs; rw [List.map_append, List.map_singleton, hl]
  have hnew : ∀ q, refCount (refs s ++ [(s.fresh, p)]) q = refCount (refs s) q + if p = q then 1 else 0 := by
    intro q
    unfold refCount
    rw [List.countP_append, List.countP_singleton]
    simp
  have hset : ∀ q, countOf { s₁.setNbr p { e with linkcount := e.linkcount + 1 } with links := s.links ++ [l] } q =
      if q = p then some (e.linkcount + 1) else countOf s q := by
    intro q
    by_cases hq : q = p
    · subst hq; simp [countOf, Nbh.setNbr]
    · rw [if_neg hq, ← hother q hq]; simp [countOf, Nbh.setNbr, hq]
  refine ⟨?_, ?_, ?_, ?_⟩
  · rw [hrefs]
    intro x hx
    rw [hset]
    rcases List.mem_append.1 hx with hx | hx
    · split
      · rfl
      · exact h.live x hx
    · obtain rfl := List.mem_singleton.1 hx
      simp
  · rw [hrefs]
    intro q n hn
    rw [hset] at hn
    rw [hnew]
    by_cases hq : q = p
    · subst hq
      rw [if_pos rfl] at hn ⊢
      obtain rfl := Option.some.inj hn
      exact ⟨by rw [hcount]; norm_cast, Nat.succ_pos _⟩
    · rw [if_neg hq] at hn
      rw [if_neg (Ne.symm hq)]
      exact h.count q n hn
  · rw [hrefs, List.map_append, List.nodup_append]
    refine ⟨h.nodup, List.nodup_singleton _, ?_⟩
    rintro a ha b hb rfl
    obtain ⟨x, hx, rfl⟩ := List.mem_map.1 ha
    have hlt := h.fresh x hx
    rw [List.mem_singleton.1 hb] at hlt
    exact lt_irrefl _ hlt
  · rw [hrefs]
    intro x hx
    show x.1 < s₁.fresh
    rcases List.mem_append.1 hx with hx | hx
    · exact (h.fresh x hx).trans hfresh
    · obtain rfl := List.mem_singleton.1 hx
      exact hfresh

/-- No link refers to a pointer that has not been taken. -/
theorem refCount_of_none (h : Counted s) {p : Ptr} (hp : countOf s p = none) : refCount (refs s) p = 0 := by
  unfold refCount
  rw [List.countP_eq_zero]
  intro x hx hxp
  have hlive := h.live x hx
  rw [beq_iff_eq.1 hxp, hp] at hlive
  cases hlive

theorem addLinkEntry (h : Counted s) (hw : TableWf s) {random : Nat} {localAddr remote remoteMain : IpAddr}
    {vtime : Nat} {ifc : Interface} {l : LinkEntry}
    (hadd : addLinkEntry s random localAddr remote remoteMain vtime ifc = some (s', l)) : Counted s' := by
  rcases addLinkEntry_cases hadd with hl | ⟨-, s₁, p, e, heq, he, rfl, rfl⟩
  · exact lookupLinkEntry_invariant h (fun p e hm => h.same (.rekeyed hm.2.1 _)) hl
  · rcases neighborFor_cases s.allocated remoteMain with ⟨q, b, -, heq'⟩ | ⟨hno, heq'⟩
    · obtain ⟨rfl, rfl⟩ := Prod.mk.inj (heq'.symm.trans heq)
      exact h.createLink (fun _ _ => rfl) he (h.count q _ (countOf_eq (s := s) he)).1 rfl (Nat.lt_succ_self _)
    · obtain ⟨rfl, rfl⟩ := Prod.mk.inj (heq'.symm.trans heq)
      have hnone : countOf s s.allocated.fresh = none := by
        have hkey := hw.fresh s.allocated.fresh (Nat.le_succ _)
        unfold keyOf at hkey
        unfold countOf
        rw [Option.map_eq_none_iff] at hkey ⊢
        exact hkey
      have he' : e = newNeighborEntry remoteMain := by
        simpa [inserted] using he.symm
      refine h.createLink (fun q hq => ?_) he ?_ rfl (Nat.lt_succ_of_lt (Nat.lt_succ_self _))
      · simp [countOf, inserted, hq]; rfl
      · rw [h.refCount_of_none hnone, he']; rfl

/-- The references that are left without a link. -/
theorem refCount_filter {r : List (Ptr × Ptr)} (hr : (r.map Prod.fst).Nodup) {x : Ptr × Ptr} (hx : x ∈ r) (p : Ptr) :
    refCount r p = refCount (r.filter fun y => y.1 != x.1) p + if x.2 = p then 1 else 0 := by
  have herase : r.filter (fun y => y.1 != x.1) = r.erase x := by
    rw [(List.Nodup.of_map _ hr).erase_eq_filter]
    refine List.filter_congr fun y hy => ?_
    rw [Bool.eq_iff_iff, bne_iff_ne, bne_iff_ne, not_iff_not]
    exact ⟨fun hyx => List.inj_on_of_nodup_map hr hy hx hyx, congrArg Prod.fst⟩
  unfold refCount
  rw [herase, (List.perm_cons_erase hx).countP_eq, List.countP_cons]
  simp

/-- A link goes; its entry has one link less, or is gone. -/
theorem dropLink (h : Counted s) {s₁ : Nbh} {l : LinkEntry} (hl : l ∈ s.links) {b : Bool}
    (hother : ∀ q, q ≠ l.neighbor → countOf s₁ q = countOf s q) (hlinks : s₁.links = s.links)
    (hfresh : s.fresh ≤ s₁.fresh)
    (hcount : (refCount (refs s) l.neighbor = 1 ∧ countOf s₁ l.neighbor = none) ∨
      (refCount (refs s) l.neighbor ≠ 1 ∧ countOf s₁ l.neighbor = some ((refCount (refs s) l.neighbor : Int) - 1))) :
    Counted { s₁ with links := s₁.links.filter (fun l' => l'.id != l.id), changesNeighborhood := b } := by
  have hx : l.ref ∈ refs s := mem_refs hl
  have hrefs : refs { s₁ with links := s₁.links.filter (fun l' => l'.id != l.id), changesNeighborhood := b } =
      (refs s).filter fun y => y.1 != l.ref.1 := by
    unfold refs; rw [List.filter_map, hlinks]; rfl
  have hdrop : ∀ p, refCount (refs s) p =
      refCount ((refs s).filter fun y => y.1 != l.ref.1) p + if l.neighbor = p then 1 else 0 :=
    refCount_filter h.nodup hx
  refine ⟨?_, ?_, ?_, ?_⟩
  · rw [hrefs]
    intro y hy
    show (countOf s₁ y.2).isSome
    by_cases hyl : y.2 = l.neighbor
    · rcases hcount with ⟨hone, -⟩ | ⟨-, hsome⟩
      · have hzero : refCount ((refs s).filter fun y => y.1 != l.ref.1) l.neighbor = 0 := by
          have hl' := hdrop l.neighbor
          rw [if_pos rfl, hone] at hl'
          omega
        unfold refCount at hzero
        exact absurd (beq_iff_eq.2 hyl) (List.countP_eq_zero.1 hzero y hy)
      · rw [hyl, hsome]; rfl
    · rw [hother _ hyl]
      exact h.live y (List.mem_of_mem_filter hy)
  · rw [hrefs]
    intro p n hn
    change countOf s₁ p = some n at hn
    have hp := hdrop p
    by_cases hpl : p = l.neighbor
    · subst hpl
      rw [if_pos rfl] at hp
      rcases hcount with ⟨-, hnone⟩ | ⟨hne, hsome⟩
      · rw [hnone] at hn; cases hn
      · rw [hsome] at hn
        obtain rfl := Option.some.inj hn
        omega
    · rw [if_neg (fun hlp => hpl hlp.symm), Nat.add_zero] at hp
      rw [← hp]
      rw [hother p hpl] at hn
      exact h.count p n hn
  · rw [hrefs]
    exact h.nodup.sublist (List.filter_sublist.map _)
  · rw [hrefs]
    intro y hy
    exact (h.fresh y (List.mem_of_mem_filter hy)).trans_le hfresh

theorem deleteLinkEntry (h : Counted s) {l : LinkEntry} (hl : l ∈ s.links)
    (hfound : ∀ e, s.nbr l.neighbor = some e → e.linkcount = 1 →
      olsrLookupNeighborTableAlias s e.mainAddr = some l.neighbor)
    (hdel : olsrDeleteLinkEntry s l = some s') : Counted s' := by
  obtain ⟨e, s₁, he, rfl, hcases⟩ := deleteLinkEntry_cases hdel
  have hcount : e.linkcount = refCount (refs s) l.neighbor := (h.count _ _ (countOf_eq he)).1
  rcases hcases with ⟨hone, h₁⟩ | ⟨hne, rfl⟩
  · rcases deleteNeighborTable_cases h₁ with ⟨hno, -⟩ | ⟨p, s₂, hp, h₂, rfl⟩
    · rw [hfound e he hone] at hno; cases hno
    · obtain rfl := Option.some.inj ((hfound e he hone).symm.trans hp)
      refine h.dropLink hl (fun q hq => ?_) h₂.links h₂.fresh (.inl ⟨by omega, ?_⟩)
      · rw [← h₂.sameCounts.counts q]
        simp [countOf, Nbh.freeNbr, hq]
      · simp [countOf, Nbh.freeNbr]
  · refine h.dropLink hl (fun q hq => ?_) rfl (le_refl _) (.inr ⟨by omega, ?_⟩)
    · simp [countOf, Nbh.setNbr, hq]
    · simp [countOf, Nbh.setNbr, hcount]

/-- The links of a list are deleted one after the other, each while it is there. -/
theorem rounds_deleteLink {env : Env} : ∀ {ls : List LinkEntry} {s : Nbh}, (ls.map LinkEntry.id).Nodup →
    (∀ l ∈ ls, l ∈ s.links) → Run.Rounds (fun s ev => ev.Enabled s) (step env) (ls.map Event.deleteLink) s
  | [], _, _, _ => trivial
  | l :: ls, s, hnodup, hin => by
    obtain ⟨hl, hnodup⟩ := List.nodup_cons.1 hnodup
    refine ⟨hin l (List.mem_cons_self ..), fun s' hs' => rounds_deleteLink hnodup fun l' hl' => ?_⟩
    have hne : l'.id ≠ l.id := fun heq => hl (heq ▸ List.mem_map_of_mem hl')
    rw [links_deleteLinkEntry hs']
    exact List.mem_filter.2 ⟨hin l' (List.mem_cons_of_mem _ hl'), by simpa using hne⟩

/-- An interface goes, and with it its links: a run of events that can happen. -/
theorem deleteLinkEntryByIp (h : Counted s) (env : Env) (intAddr : IpAddr) :
    olsrDeleteLinkEntryByIp s intAddr = Run.forEach (step env)
        ((s.links.filter fun l => l.localIfaceAddr = intAddr).map Event.deleteLink) s ∧
      Run.Rounds (fun s ev => ev.Enabled s) (step env)
        ((s.links.filter fun l => l.localIfaceAddr = intAddr).map Event.deleteLink) s := by
  constructor
  · have hloop : ∀ (ls : List LinkEntry) (s : Nbh),
        Run.forEach (fun s l => if l.localIfaceAddr = intAddr then olsrDeleteLinkEntry s l else some s) ls s =
          Run.forEach (step env) ((ls.filter fun l => l.localIfaceAddr = intAddr).map Event.deleteLink) s := by
      intro ls
      induction ls with
      | nil => exact fun _ => rfl
      | cons l ls ih =>
        intro s
        by_cases hl : l.localIfaceAddr = intAddr
        · rw [List.filter_cons_of_pos (by simpa using hl), List.map_cons, Run.forEach, Run.forEach, if_pos hl]
          exact Option.bind_congr fun s' _ => ih s'
        · rw [List.filter_cons_of_neg (by simpa using hl), Run.forEach, if_neg hl]
          exact ih s
    exact hloop s.links s
  · have hids : (s.links.map LinkEntry.id).Nodup := by
      have hnodup := h.nodup
      unfold refs at hnodup
      rw [List.map_map] at hnodup
      exact hnodup
    exact rounds_deleteLink (hids.sublist (List.filter_sublist.map _)) fun l hl => List.mem_of_mem_filter hl

end Counted

/-! ## Aliases -/

theorem SameKeys.lookup (h : SameKeys s s') (a : IpAddr) :
    olsrLookupNeighborTableAlias s' a = olsrLookupNeighborTableAlias s a := by
  have hany : ∀ (t : Nbh) (p : Ptr), ((t.nbr p).any fun e => e.mainAddr == a) = (keyOf t p == some a) := by
    intro t p
    unfold keyOf
    cases t.nbr p with
    | none => rfl
    | some e => simp
  unfold olsrLookupNeighborTableAlias
  rw [h.nbrTable]
  simp only [hany, h.keys]

/-- Neighbour entries stay apart: none has the alias, and the main address and an alias do not both have one. -/
def KeepsApart (env : Env) (s : Nbh) (m a : IpAddr) : Prop :=
  olsrValidateAddress env.cnf a = true → olsrLookupNeighborTableAlias s a = none ∧
    (midLookupMainAddr s.mid a ≠ some m → ∀ x ∈ midLookupAliases s.mid m,
      olsrLookupNeighborTableAlias s x = none ∨ olsrLookupNeighborTableAlias s m = none)

/-- An alias that concerns no neighbour entry. -/
theorem mergeAlias_apart {m a : IpAddr}
    (hapart : olsrLookupNeighborTableAlias s a = none ∨ olsrLookupNeighborTableAlias s m = none)
    (h : mergeAlias m s a = some s') : TwoHopOnly s s' := by
  obtain ⟨s₁, b, h₁, rfl⟩ := mergeAlias_cases h
  have hdel := twoHopOnly_deleteTwoHopIfAny h₁
  rw [← hdel.sameKeys.lookup, ← hdel.sameKeys.lookup m] at hapart
  rcases mergeNeighbors_cases { s₁ with changesNeighborhood := b } (olsrLookupNeighborTableAlias s₁ a)
    (olsrLookupNeighborTableAlias s₁ m) with heq | ⟨tmp, real, htmp, hreal, -⟩
  · rw [heq]
    exact hdel.trans ⟨fun _ => rfl, rfl, rfl, rfl, rfl, le_refl _, rfl⟩
  · rw [htmp, hreal] at hapart
    simp at hapart

theorem insertMidAlias_apart {random : Nat} {m a : IpAddr} {vtime : Nat} (hapart : KeepsApart env s m a)
    (h : insertMidAlias env s random m a vtime = some s') :
    ∃ mid, (mid = s.mid ∨ (olsrLookupNeighborTableAlias s a = none ∧ mid = s.mid.register s.now random m a vtime)) ∧
      TwoHopOnly { s with mid := mid } s' := by
  by_cases hv : olsrValidateAddress env.cnf a = true
  · obtain ⟨hno, hmain⟩ := hapart hv
    rcases insertMidAlias_cases h with rfl | ⟨s₁, s₂, h₁, h₂, rfl⟩
    · exact ⟨_, .inl rfl, .refl _⟩
    · rcases replaceNeighbor_cases h₁ with ⟨-, rfl⟩ | ⟨old, s₀, mid, hold, -⟩
      · rcases insertMidTuple_cases h₂ with rfl | ⟨hnew, h₂⟩
        · exact ⟨_, .inl rfl, .changed s₂⟩
        · have hapart : ∀ x ∈ a :: midLookupAliases s₁.mid m,
              olsrLookupNeighborTableAlias s₁ x = none ∨ olsrLookupNeighborTableAlias s₁ m = none := by
            intro x hx
            rcases List.mem_cons.1 hx with rfl | hx
            · exact .inl hno
            · exact hmain hnew x hx
          refine ⟨s₁.mid.register s₁.now random m a vtime, .inr ⟨hno, rfl⟩, TwoHopOnly.trans ?_ (.changed s₂)⟩
          refine Run.forEach_invariant (fun t x t' hx ht hstep => ?_) (.refl _) h₂
          have hkeys : SameKeys s₁ t := (sameKeys_setMid s₁ _).trans ht.sameKeys
          refine ht.trans (mergeAlias_apart ?_ hstep)
          rw [hkeys.lookup, hkeys.lookup m]
          exact hapart x hx
      · rw [hno] at hold; cases hold
  · unfold insertMidAlias at h
    rw [if_pos (by simp [hv])] at h
    obtain rfl := Option.some.inj h
    exact ⟨_, .inl rfl, .refl _⟩

/-! ## Runs -/

/-- The events that sense and delete links, change main addresses and insert aliases, where aliases keep entries
apart and an entry that loses its last link is the one that its main address leads to. -/
def CountsKept (env : Env) (s : Nbh) : Event → Prop
  | .insertMidAlias _ m a _ => KeepsApart env s m a
  | .deleteLink l => ∀ e, s.nbr l.neighbor = some e → e.linkcount = 1 →
    olsrLookupNeighborTableAlias s e.mainAddr = some l.neighbor
  | .insertNeighbor _ | .deleteNeighbor _ => False
  | _ => True

instance decidableKeepsApart (env : Env) (s : Nbh) (m a : IpAddr) : Decidable (KeepsApart env s m a) :=
  inferInstanceAs (Decidable (_ → _ ∧ (_ → _)))

instance decidableCountsKept (env : Env) (s : Nbh) : ∀ ev : Event, Decidable (CountsKept env s ev)
  | .insertMidAlias _ m a _ => decidableKeepsApart env s m a
  | .deleteLink l => inferInstanceAs (Decidable (∀ e ∈ s.nbr l.neighbor, _ → _))
  | .insertNeighbor _ | .deleteNeighbor _ => .isFalse id
  | .tick _ | .helloLink _ | .lookupLink .. | .setLinkcost .. | .setWillingness .. | .processMessageNeighbors ..
  | .expireNbr2List _ | .expireLinkSym _ | .expireLinkHello .. | .deleteTwoHop _ | .changeMid _ => .isTrue trivial

theorem counted_emptyNbh : Counted emptyNbh where
  live := by simp [refs, emptyNbh]
  count := by simp [countOf, emptyNbh]
  nodup := by simp [refs, emptyNbh]
  fresh := by simp [refs, emptyNbh]

theorem Counted.helloLink (h : Counted s) (hw : TableWf s) {hin : HelloInput} {x : Nbh × Ptr}
    (hstep : helloLink env s hin = some x) : Counted x.1 := by
  obtain ⟨s₁, l, h₁, h₂, -⟩ := helloLink_cases hstep
  have hsensed : SameCounts s₁ (s₁.updateLink l.id (sensedLink s₁.now (hin.random 0) hin.message hin.inIf hin.hyst)) :=
    .updateLink s₁ l.id (ref_sensedLink _ _ _ _ _)
  exact (h.addLinkEntry hw h₁).same (hsensed.trans (sameCounts_updateNeighborStatus h₂))

theorem Counted.step (h : Counted s) (hw : TableWf s) {ev : Event} (hen : ev.Enabled s) (hok : CountsKept env s ev)
    (hstep : step env s ev = some s') : Counted s' := by
  cases ev with
  | tick now => obtain rfl := Option.some.inj hstep; exact h.same (.of_eq rfl rfl (le_refl _))
  | helloLink hin =>
    obtain ⟨x, hx, rfl⟩ := Option.map_eq_some_iff.1 hstep
    exact h.helloLink hw hx
  | lookupLink remote a ifc =>
    obtain ⟨⟨s₁, o⟩, hx, rfl⟩ := Option.map_eq_some_iff.1 hstep
    exact lookupLinkEntry_invariant h (fun p e hm => h.same (.rekeyed hm.2.1 _)) hx
  | insertMidAlias random m a vtime =>
    obtain ⟨mid, -, honly⟩ := insertMidAlias_apart hok hstep
    have hmid : SameCounts s { s with mid := mid } := .of_eq rfl rfl (le_refl _)
    exact h.same (hmid.trans honly.sameCounts)
  | setLinkcost id cost =>
    obtain rfl := Option.some.inj hstep
    exact h.same (.updateLink s id fun _ => rfl)
  | setWillingness p w =>
    rcases setWillingness_cases hstep with rfl | ⟨e, he, rfl⟩
    · exact h
    · have hset : SameCounts s (s.setNbr p { e with willingness := w }) := .setNbr he rfl
      exact h.same (hset.trans (TwoHopOnly.changed _).sameCounts)
  | processMessageNeighbors random p message => exact h.same (twoHopOnly_processMessageNeighbors hstep).sameCounts
  | expireNbr2List x => exact h.same (twoHopOnly_unlinkNbr2 hstep).sameCounts
  | expireLinkSym l =>
    have hcleared : SameCounts s (s.updateLink l.id fun l => { l with linkSymTimer := none }) :=
      .updateLink s l.id fun _ => rfl
    rcases expireLinkSym_cases hstep with ⟨-, rfl⟩ | ⟨-, s₁, s₂, rfl, h₂, rfl⟩
    · exact h.same hcleared
    · have hupdated := (SameCounts.updateLink _ l.id (by intro; rfl)).trans (sameCounts_updateNeighborStatus h₂)
      exact h.same ((hcleared.trans hupdated).trans (.of_eq rfl rfl (le_refl _)))
  | expireLinkHello l hyst =>
    exact h.same ((SameCounts.updateLink s l.id (by intro; rfl)).trans (sameCounts_updateNeighborStatus hstep))
  | deleteLink l => exact h.deleteLinkEntry hen hok hstep
  | insertNeighbor a => cases hok
  | deleteNeighbor a => cases hok
  | deleteTwoHop p => exact h.same (twoHopOnly_deleteTwoHop hstep).sameCounts
  | changeMid mid => obtain rfl := Option.some.inj hstep; exact h.same (.of_eq rfl rfl (le_refl _))

theorem reachable_counts (h : Reachable env (CountsKept env) s) : Counted s := by
  have hboth : TableWf s ∧ Counted s := by
    refine Run.Reaches.invariant (P := fun s => TableWf s ∧ Counted s) ?_ ?_ h
    · rintro _ rfl
      exact ⟨keyed_emptyNbh.toTableWf, counted_emptyNbh⟩
    · rintro s ev s' ⟨hw, hc⟩ ⟨hen, hok⟩ hstep
      exact ⟨hw.step hstep, hc.step hw hen hok hstep⟩
  exact hboth.2

/-- As long as aliases keep neighbour entries apart and main addresses lead to the entries that lose their last
link, links refer to entries of the table, entries count them, and an entry is there exactly as long as a link
refers to it. -/
theorem reachable_linkcount (h : Reachable env (CountsKept env) s) :
    (∀ l ∈ s.links, ∃ e, s.nbr l.neighbor = some e ∧ l.neighbor ∈ s.nbrTable (olsrIpHashing e.mainAddr)) ∧
      (∀ p e, s.nbr p = some e → e.linkcount = s.links.countP fun l => l.neighbor == p) ∧
      ∀ p, (s.nbr p).isSome ↔ ∃ l ∈ s.links, l.neighbor = p := by
  have hw := reachable_tableWf h
  have hc := reachable_counts h
  refine ⟨fun l hl => ?_, fun p e he => ?_, fun p => hc.isSome_iff⟩
  · obtain ⟨e, he⟩ := Option.isSome_iff_exists.1 (hc.isSome_iff.2 ⟨l, hl, rfl⟩)
    exact ⟨e, he, (hw.queued _ _).2 ⟨e.mainAddr, keyOf_eq he, rfl⟩⟩
  · rw [(hc.count p _ (countOf_eq he)).1]
    unfold refCount refs
    rw [List.countP_map]
    rfl

/-- The neighbour 10.0.0.2 has two links and an alias and loses one of the links, and 10.0.0.3 loses its only one. -/
def lostLinks : List Chooser :=
  [.hello (helloFrom [10, 0, 0, 2] [10, 0, 0, 2] []), .hello (helloFrom [10, 0, 1, 2] [10, 0, 0, 2] []),
    .hello (helloFrom [10, 0, 0, 3] [10, 0, 0, 3] []), .newAlias [10, 0, 0, 2] [10, 0, 2, 2], .deleteLink [10, 0, 1, 2],
    .deleteLink [10, 0, 0, 3]]

theorem reachable_linkcount_lostLinks : ∃ s : Nbh, (∃ e : NeighborEntry, s.nbr 1 = some e ∧ e.linkcount = 1) ∧
    (s.links.countP fun l => l.neighbor == 1) = 1 ∧ ∀ p, (s.nbr p).isSome = true → p = 1 := by
  have hrounds : Run.Rounds (fun s c => ∀ ev ∈ c s, CountsKept oneInterface s ev.1) (Chooser.run oneInterface)
      lostLinks emptyNbh := by decide +kernel
  have hrun : ((Run.forEach (Chooser.run oneInterface) lostLinks emptyNbh).any fun s =>
      s.links.map LinkEntry.neighbor == [1] && (s.nbr 1).any fun e => e.linkcount == 1) = true := by decide +kernel
  obtain ⟨s, hs, hrun⟩ := (Option.any_eq_true _ _).1 hrun
  obtain ⟨hlinks, he⟩ := Bool.and_eq_true_iff.1 hrun
  obtain ⟨e, he, hone⟩ := (Option.any_eq_true _ _).1 he
  obtain ⟨-, hcounts, hlive⟩ := reachable_linkcount (Chooser.reachable (.init rfl) hrounds hs)
  have hcount := hcounts 1 e he
  rw [beq_iff_eq.1 hone] at hcount
  refine ⟨s, ⟨e, he, beq_iff_eq.1 hone⟩, by exact_mod_cast hcount.symm, fun p hp => ?_⟩
  obtain ⟨l, hl, rfl⟩ := (hlive p).1 hp
  have hmem := List.mem_map_of_mem (f := LinkEntry.neighbor) hl
  rw [beq_iff_eq.1 hlinks] at hmem
  exact List.mem_singleton.1 hmem

/-- A neighbour with a link under 10.0.0.2 turns out to be 10.0.0.9: the new entry counts no link. -/
theorem aliasOfNeighbor_not_counted : ∃ s, Reachable oneInterface (fun _ _ => True) s ∧
    ∃ p e, s.nbr p = some e ∧ e.linkcount ≠ s.links.countP fun l => l.neighbor == p := by
  have hrun : ((olsrHelloTap oneInterface emptyNbh (helloFrom [10, 0, 0, 2] [10, 0, 0, 2] [])).any fun s₁ =>
      midLookupMainAddr s₁.mid [10, 0, 0, 2] == none &&
        (insertMidAlias oneInterface s₁ 0 [10, 0, 0, 9] [10, 0, 0, 2] 6000).any fun s =>
          (s.nbr 2).any fun e => e.linkcount != ((s.links.countP fun l => l.neighbor == 2 : Nat) : Int)) =
            true := by decide +kernel
  obtain ⟨s₁, hhello, hrest⟩ := (Option.any_eq_true _ _).1 hrun
  obtain ⟨hnone, hs⟩ := Bool.and_eq_true_iff.1 hrest
  obtain ⟨s, hs, he⟩ := (Option.any_eq_true _ _).1 hs
  obtain ⟨e, he, hne⟩ := (Option.any_eq_true _ _).1 he
  have hreach : Reachable oneInterface (fun _ _ => True) s₁ := reachable_hello (.init rfl) hhello
  exact ⟨s, .step (.insertMidAlias 0 [10, 0, 0, 9] [10, 0, 0, 2] 6000) hreach ⟨.inl (beq_iff_eq.1 hnone), trivial⟩ hs,
    2, e, he, bne_iff_ne.1 hne⟩

end Olsrd.Neighbor
