/-
The neighbours a TC advertises, in terms of the neighbourhood: the symmetric ones to which a usable link
leads. Which events change them, and which of these set `link_changes`.
-/
import Olsrd.Neighbor.LqTc
import Olsrd.Neighbor.LinkCount

namespace Olsrd.Neighbor

variable {env : Env} {s s' : Nbh}

/-! ## What a TC advertises -/

/-- What of a neighbour entry a TC depends on. -/
def faceOf (s : Nbh) (p : Ptr) : Option (IpAddr × Bool) := (s.nbr p).map fun e => (e.mainAddr, e.sym)

theorem faceOf_eq {p : Ptr} {e : NeighborEntry} (he : s.nbr p = some e) : faceOf s p = some (e.mainAddr, e.sym) := by
  unfold faceOf; rw [he]; rfl

/-- The link has a cost that is worth advertising. -/
def LinkEntry.Usable (l : LinkEntry) : Prop := l.linkcost < linkCostBroken

/-- The link leads to an entry for the main address `b`. -/
def LinkEntry.LeadsTo (s : Nbh) (l : LinkEntry) (b : IpAddr) : Prop := keyOf s l.neighbor = some b

/-- Some symmetric neighbour is called `a`. -/
def SymNamed (s : Nbh) (a : IpAddr) : Prop := ∃ p, faceOf s p = some (a, true)

/-- A usable link leads to the main address `b`. -/
def Linked (s : Nbh) (b : IpAddr) : Prop := ∃ l ∈ s.links, l.Usable ∧ l.LeadsTo s b

/-- What the neighbourhood has to advertise. -/
def Advertised (s : Nbh) (a : IpAddr) : Prop := SymNamed s a ∧ Linked s (midMainAddr s.mid a)

/-- No neighbour goes by an address of this node, so that no broken link is preferred for being on an interface of
that address. -/
def ForeignNames (s : Nbh) : Prop := ∀ a, SymNamed s a → ∀ l ∈ s.links, l.localIfaceAddr ≠ a

/-- The link that has been chosen so far. -/
def BestLink.chosen (b : BestLink) : Option LinkEntry := b.goodLink.or b.backupLink

/-- The best value so far is below that of a broken link exactly if a link has been chosen, and then a usable one. -/
structure BestLink.Fits (b : BestLink) : Prop where
  le : b.curr ≤ linkCostBroken.toNat
  lt_iff : b.curr < linkCostBroken.toNat ↔ b.chosen.isSome
  good : ∀ l, b.goodLink = some l → l.Usable
  backup : ∀ l, b.backupLink = some l → l.Usable

theorem BestLink.Fits.offer {b : BestLink} (hb : b.Fits) {remote : IpAddr} {l : LinkEntry}
    (hl : l.localIfaceAddr ≠ remote) : (b.offer s remote l l.linkcost.toNat).Fits ∧
      ((b.offer s remote l l.linkcost.toNat).chosen.isSome ↔ b.chosen.isSome ∨ l.Usable) := by
  unfold BestLink.offer
  by_cases hlt : l.linkcost.toNat < b.curr
  · have husable : l.Usable := UInt32.lt_iff_toNat_lt.2 (hlt.trans_le hb.le)
    have hcurr : l.linkcost.toNat < linkCostBroken.toNat := hlt.trans_le hb.le
    rw [if_pos (.inl hlt)]
    split
    · refine ⟨⟨hcurr.le, by simp [BestLink.chosen, hcurr], ?_, hb.backup⟩, by simp [BestLink.chosen, husable]⟩
      rintro l' hl'
      obtain rfl := Option.some.inj hl'
      exact husable
    · refine ⟨⟨hcurr.le, ?_, hb.good, ?_⟩, ?_⟩
      · simp [BestLink.chosen, hcurr]
      · rintro l' hl'
        obtain rfl := Option.some.inj hl'
        exact husable
      · simp [BestLink.chosen, husable]
  · rw [if_neg (by rintro (h | ⟨-, h⟩); exacts [hlt h, hl h])]
    refine ⟨hb, Iff.intro .inl ?_⟩
    rintro (h | h)
    · exact h
    · have hcost : l.linkcost.toNat < linkCostBroken.toNat := UInt32.lt_iff_toNat_lt.1 h
      exact hb.lt_iff.1 (by omega)

theorem bestLinkLoop_fits (hlq : 0 < env.cnf.lqLevel) {remote mainAddr : IpAddr} :
    ∀ {ls : List LinkEntry} {b b' : BestLink},
    (∀ l ∈ ls, l.localIfaceAddr ≠ remote) → b.Fits → bestLinkLoop env s remote mainAddr ls b = some b' →
    b'.Fits ∧ (b'.chosen.isSome ↔ b.chosen.isSome ∨ ∃ l ∈ ls, l.Usable ∧ l.LeadsTo s mainAddr)
  | [], b, b', _, hb, h => by
    obtain rfl := Option.some.inj h
    exact ⟨hb, by simp⟩
  | l :: ls, b, b', hls, hb, h => by
    obtain ⟨e, he, h⟩ := Option.bind_eq_some_iff.1 h
    have hkey : keyOf s l.neighbor = some e.mainAddr := keyOf_eq he
    by_cases hmain : e.mainAddr = mainAddr
    · rw [if_neg (not_not.2 hmain), if_neg hlq.ne'] at h
      obtain ⟨hoffer, hchosen⟩ := hb.offer (s := s) (hls l (List.mem_cons_self ..))
      obtain ⟨hfits, hiff⟩ := bestLinkLoop_fits hlq (fun l' hl' => hls l' (List.mem_cons_of_mem _ hl')) hoffer h
      refine ⟨hfits, ?_⟩
      rw [hiff, hchosen, or_assoc, List.exists_mem_cons_iff]
      simp [LinkEntry.LeadsTo, hkey, hmain]
    · rw [if_pos hmain] at h
      obtain ⟨hfits, hiff⟩ := bestLinkLoop_fits hlq (fun l' hl' => hls l' (List.mem_cons_of_mem _ hl')) hb h
      refine ⟨hfits, ?_⟩
      rw [hiff, List.exists_mem_cons_iff]
      simp [LinkEntry.LeadsTo, hkey, hmain]

theorem getBestLinkToNeighbor_spec (hlq : 0 < env.cnf.lqLevel) {a : IpAddr}
    (hforeign : ∀ l ∈ s.links, l.localIfaceAddr ≠ a)
    {o : Option LinkEntry} (h : getBestLinkToNeighbor env s a = some o) :
    (o.isSome ↔ Linked s (midMainAddr s.mid a)) ∧ ∀ l, o = some l → l.Usable := by
  obtain ⟨b, hb, h⟩ := Option.bind_eq_some_iff.1 h
  obtain rfl := Option.some.inj h
  rw [if_neg hlq.ne'] at hb
  obtain ⟨hfits, hiff⟩ := bestLinkLoop_fits hlq hforeign ⟨le_refl _, by simp [BestLink.chosen], by simp, by simp⟩ hb
  refine ⟨hiff.trans (by simp [BestLink.chosen, Linked]), fun l hl => ?_⟩
  rcases Option.or_eq_some_iff.1 hl with hl | ⟨-, hl⟩
  · exact hfits.good l hl
  · exact hfits.backup l hl

theorem mem_queueNeigh {platform : Platform} {v : IpVersion} {n x : Topology.TcMprAddr} :
    ∀ {l : List Topology.TcMprAddr}, x ∈ queueNeigh platform v n l ↔ x = n ∨ x ∈ l
  | [] => by simp [queueNeigh]
  | y :: l => by
    unfold queueNeigh
    split
    · exact List.mem_cons
    · rw [List.mem_cons, mem_queueNeigh, List.mem_cons]
      tauto

/-- With TC redundancy 2 a neighbour is queued if it is symmetric and a usable link leads to it. -/
theorem tcNeighbor_spec (htc : env.tcRedundancy = 2) (hlq : 0 < env.cnf.lqLevel) (hforeign : ForeignNames s)
    {x : TcInput} {p : Ptr} {o : Option Topology.TcMprAddr} (h : tcNeighbor env s x p = some o) (a : IpAddr) :
    (∃ n, o = some n ∧ n.1 = a) ↔ faceOf s p = some (a, true) ∧ Linked s (midMainAddr s.mid a) := by
  obtain ⟨e, he, h⟩ := Option.bind_eq_some_iff.1 h
  rw [faceOf_eq he]
  cases hsym : e.sym with
  | false =>
    rw [hsym] at h
    obtain rfl := Option.some.inj h
    simp
  | true =>
    rw [hsym, htc] at h
    obtain ⟨lnk, hlnk, h⟩ := Option.bind_eq_some_iff.1 h
    have hnamed : SymNamed s e.mainAddr := ⟨p, by rw [faceOf_eq he, hsym]⟩
    obtain ⟨hsome, husable⟩ := getBestLinkToNeighbor_spec hlq (hforeign _ hnamed) hlnk
    cases lnk with
    | none =>
      obtain rfl := Option.some.inj h
      have hno : ¬ Linked s (midMainAddr s.mid e.mainAddr) := by rw [← hsome]; simp
      simp only [Option.some.injEq, Prod.mk.injEq, and_true, reduceCtorEq, false_and, exists_false, false_iff, not_and]
      rintro rfl
      exact hno
    | some l =>
      have hnot : ¬ l.linkcost ≥ linkCostBroken := UInt32.not_le.2 (husable l rfl)
      dsimp only at h
      rw [if_neg hnot] at h
      obtain rfl := Option.some.inj h
      have hyes : Linked s (midMainAddr s.mid e.mainAddr) := hsome.1 rfl
      constructor
      · rintro ⟨n, hn, rfl⟩
        obtain rfl := Option.some.inj hn
        exact ⟨rfl, hyes⟩
      · rintro ⟨hface, -⟩
        obtain ⟨rfl, -⟩ := Prod.mk.inj (Option.some.inj hface)
        exact ⟨_, rfl, rfl⟩

theorem forEach_queueNeighbor (htc : env.tcRedundancy = 2) (hlq : 0 < env.cnf.lqLevel) (hforeign : ForeignNames s)
    {x : TcInput} (a : IpAddr) : ∀ {ps : List Ptr} {ns ns' : List Topology.TcMprAddr},
    Run.forEach (queueNeighbor env s x) ps ns = some ns' → (a ∈ ns'.map Prod.fst ↔ a ∈ ns.map Prod.fst ∨
      ∃ p ∈ ps, faceOf s p = some (a, true) ∧ Linked s (midMainAddr s.mid a))
  | [], ns, ns', h => by
    obtain rfl := Option.some.inj h
    simp
  | p :: ps, ns, ns', h => by
    obtain ⟨ns₁, h₁, h⟩ := Run.forEach_cons.1 h
    obtain ⟨o, ho, h₁⟩ := Option.bind_eq_some_iff.1 h₁
    have hone := tcNeighbor_spec htc hlq hforeign ho a
    have hns₁ : a ∈ ns₁.map Prod.fst ↔ a ∈ ns.map Prod.fst ∨ ∃ n, o = some n ∧ n.1 = a := by
      cases o with
      | none =>
        obtain rfl := Option.some.inj h₁
        simp
      | some n =>
        obtain rfl := Option.some.inj h₁
        simp only [List.mem_map, mem_queueNeigh, Option.some.injEq]
        constructor
        · rintro ⟨m, rfl | hm, rfl⟩
          · exact .inr ⟨m, rfl, rfl⟩
          · exact .inl ⟨m, hm, rfl⟩
        · rintro (⟨m, hm, rfl⟩ | ⟨m, rfl, rfl⟩)
          · exact ⟨m, .inr hm, rfl⟩
          · exact ⟨_, .inl rfl, rfl⟩
    rw [forEach_queueNeighbor htc hlq hforeign a h, hns₁, hone, or_assoc, List.exists_mem_cons_iff]

theorem olsrIpHashing_lt (a : IpAddr) : olsrIpHashing a < hashsize := Nat.lt_succ_of_le (olsrIpHashing_le a)

/-- A TC advertises what there is to advertise. -/
theorem createLqTc_advertises (htc : env.tcRedundancy = 2) (hlq : 0 < env.cnf.lqLevel) (hw : TableWf s)
    (hforeign : ForeignNames s) {ansn : UInt16} {x : TcInput} {m : LqTcMessage} (h : createLqTc env s ansn x = some m)
    (a : IpAddr) : m.Advertises a ↔ Advertised s a := by
  obtain ⟨ns, hns, h⟩ := Option.bind_eq_some_iff.1 h
  obtain rfl := Option.some.inj h
  refine (forEach_queueNeighbor htc hlq hforeign a hns).trans ?_
  constructor
  · rintro (hnil | ⟨p, -, hface, hlinked⟩)
    · simp at hnil
    · exact ⟨⟨p, hface⟩, hlinked⟩
  · rintro ⟨⟨p, hface⟩, hlinked⟩
    have hkey : keyOf s p = some a := by
      obtain ⟨e, he, heq⟩ := Option.map_eq_some_iff.1 hface
      obtain ⟨rfl, -⟩ := Prod.mk.inj heq
      exact keyOf_eq he
    have hmem : p ∈ s.nbrTable (olsrIpHashing a) := (hw.queued _ _).2 ⟨a, hkey, rfl⟩
    exact .inr ⟨p, List.mem_flatMap.2 ⟨_, List.mem_range.2 (olsrIpHashing_lt a), hmem⟩, hface, hlinked⟩

/-! ## Links and the flag -/

/-- Links have names of their own and lead to pointers that have been given out; a signal that has been given is
still there. -/
structure LinksWf (signalled : Bool) (s : Nbh) : Prop where
  nodup : ((refs s).map Prod.fst).Nodup
  ids : ∀ x ∈ refs s, x.1 < s.fresh
  neighbors : ∀ x ∈ refs s, x.2 < s.fresh
  pending : signalled = true → s.linkChanges = true

theorem TableWf.lookup_lt (h : TableWf s) {a : IpAddr} {p : Ptr} (hp : olsrLookupNeighborTableAlias s a = some p) :
    p < s.fresh := by
  by_contra hge
  have hkey := keyOf_of_lookup hp
  rw [h.fresh p (not_lt.1 hge)] at hkey
  cases hkey

namespace LinksWf

variable {b : Bool}

theorem of_refs (h : LinksWf b s) (hrefs : refs s' = refs s) (hfresh : s.fresh ≤ s'.fresh)
    (hflag : s.linkChanges = true → s'.linkChanges = true) : LinksWf b s' where
  nodup := by rw [hrefs]; exact h.nodup
  ids := by rw [hrefs]; exact fun x hx => (h.ids x hx).trans_le hfresh
  neighbors := by rw [hrefs]; exact fun x hx => (h.neighbors x hx).trans_le hfresh
  pending hb := hflag (h.pending hb)

theorem twoHopOnly (h : LinksWf b s) (honly : TwoHopOnly s s') : LinksWf b s' :=
  h.of_refs (by unfold refs; rw [honly.links]) honly.fresh (by rw [honly.linkChanges]; exact id)

theorem updateLink (h : LinksWf b s) (id : Ptr) {f : LinkEntry → LinkEntry} (hf : ∀ l, (f l).ref = l.ref) :
    LinksWf b (s.updateLink id f) :=
  h.of_refs (SameCounts.updateLink s id hf).refs (le_refl _) (fun hs => hs)

theorem updateNeighborStatus (h : LinksWf b s) {p : Ptr} {lnk : LinkStatus}
    (hupdate : updateNeighborStatus env s p lnk = some s') : LinksWf b s' := by
  have hsame := sameCounts_updateNeighborStatus hupdate
  refine h.of_refs hsame.refs hsame.fresh fun hs => ?_
  obtain ⟨s₁, e, e₁, -, -, -, rfl⟩ := updateNeighborStatus_cases hupdate
  show (s.linkChanges || _) = true
  rw [hs, Bool.true_or]

theorem addLinkEntry (h : LinksWf b s) (hw : TableWf s) {random : Nat} {localAddr remote remoteMain : IpAddr}
    {vtime : Nat} {ifc : Interface} {l : LinkEntry}
    (hadd : addLinkEntry s random localAddr remote remoteMain vtime ifc = some (s', l)) : LinksWf b s' := by
  rcases addLinkEntry_cases hadd with hl | ⟨-, s₁, p, e, heq, he, rfl, rfl⟩
  · exact lookupLinkEntry_invariant h (fun p e _ => h.of_refs rfl (le_refl _) (fun hs => hs)) hl
  · have hfrom : s.fresh < s₁.fresh ∧ p < s₁.fresh ∧ s₁.linkChanges = s.linkChanges := by
      rcases neighborFor_cases s.allocated remoteMain with ⟨q, a, hq, heq'⟩ | ⟨-, heq'⟩
      · obtain ⟨rfl, rfl⟩ := Prod.mk.inj (heq'.symm.trans heq)
        exact ⟨Nat.lt_succ_self _, (hw.same (TwoHopOnly.allocated s).sameKeys).lookup_lt hq, rfl⟩
      · obtain ⟨rfl, rfl⟩ := Prod.mk.inj (heq'.symm.trans heq)
        exact ⟨Nat.lt_succ_of_lt (Nat.lt_succ_self _), Nat.lt_succ_self _, rfl⟩
    obtain ⟨hfresh, hp, hflag⟩ := hfrom
    have hnew : (newLinkEntry s.fresh s.now random localAddr remote ifc p vtime).ref = (s.fresh, p) := rfl
    refine ⟨?_, ?_, ?_, fun hb => hflag.trans (h.pending hb)⟩
    · unfold refs
      rw [List.map_append, List.map_append, List.map_singleton, List.map_singleton, hnew]
      refine List.nodup_append.2 ⟨h.nodup, List.nodup_singleton _, ?_⟩
      rintro i hi j hj rfl
      obtain ⟨x, hx, rfl⟩ := List.mem_map.1 hi
      exact (h.ids x hx).ne (List.mem_singleton.1 hj)
    · intro x hx
      show x.1 < s₁.fresh
      unfold refs at hx
      rw [List.map_append, List.map_singleton, hnew, List.mem_append, List.mem_singleton] at hx
      rcases hx with hx | rfl
      · exact (h.ids x hx).trans hfresh
      · exact hfresh
    · intro x hx
      show x.2 < s₁.fresh
      unfold refs at hx
      rw [List.map_append, List.map_singleton, hnew, List.mem_append, List.mem_singleton] at hx
      rcases hx with hx | rfl
      · exact (h.neighbors x hx).trans hfresh
      · exact hp

theorem helloLink (h : LinksWf b s) (hw : TableWf s) {hin : HelloInput} {x : Nbh × Ptr}
    (hstep : helloLink env s hin = some x) : LinksWf b x.1 := by
  obtain ⟨s₁, l, h₁, h₂, -⟩ := helloLink_cases hstep
  exact ((h.addLinkEntry hw h₁).updateLink l.id (ref_sensedLink _ _ _ _ _)).updateNeighborStatus h₂

theorem deleteNeighbor (h : LinksWf b s) {a : IpAddr} (hdel : olsrDeleteNeighborTable s a = some s') :
    LinksWf b s' := by
  rcases deleteNeighborTable_cases hdel with ⟨-, rfl⟩ | ⟨p, s₁, -, h₁, rfl⟩
  · exact h
  · exact (h.twoHopOnly h₁).of_refs rfl (le_refl _) (fun hs => hs)

theorem deleteLink (h : LinksWf b s) {l : LinkEntry} (hdel : olsrDeleteLinkEntry s l = some s') : LinksWf b s' := by
  obtain ⟨e, s₁, he, rfl, hcases⟩ := deleteLinkEntry_cases hdel
  have h₁ : LinksWf b s₁ := by
    rcases hcases with ⟨-, h₁⟩ | ⟨-, rfl⟩
    · exact h.deleteNeighbor h₁
    · exact h.of_refs rfl (le_refl _) (fun hs => hs)
  have hsub : (refs { s₁ with links := s₁.links.filter (fun l' => l'.id != l.id), changesNeighborhood := true }).Sublist
      (refs s₁) := List.filter_sublist.map _
  exact ⟨h₁.nodup.sublist (hsub.map _), fun x hx => h₁.ids x (hsub.subset hx),
    fun x hx => h₁.neighbors x (hsub.subset hx), h₁.pending⟩

theorem replaceLinks (h : LinksWf b s) (old : Ptr) {new : Ptr} (hnew : new < s.fresh) :
    LinksWf b (replaceNeighborLinkSet s old new) := by
  have hrefs : refs (replaceNeighborLinkSet s old new) =
      (refs s).map fun x => (x.1, if x.2 = old then new else x.2) := by
    unfold refs replaceNeighborLinkSet
    rw [List.map_map, List.map_map]
    refine List.map_congr_left fun l _ => ?_
    show LinkEntry.ref (if l.neighbor = old then _ else l) = (l.id, if l.neighbor = old then new else l.neighbor)
    split <;> rfl
  refine ⟨?_, ?_, ?_, h.pending⟩
  · rw [hrefs, List.map_map]
    exact h.nodup
  · rw [hrefs]
    intro x hx
    obtain ⟨y, hy, rfl⟩ := List.mem_map.1 hx
    exact h.ids y hy
  · rw [hrefs]
    intro x hx
    obtain ⟨y, hy, rfl⟩ := List.mem_map.1 hx
    show (if y.2 = old then new else y.2) < s.fresh
    split
    · exact hnew
    · exact h.neighbors y hy

theorem insertNeighbor (h : LinksWf b s) (a : IpAddr) : LinksWf b (olsrInsertNeighborTable s a).1 := by
  rcases insertNeighborTable_cases s a with ⟨p, -, heq⟩ | ⟨-, heq⟩
  · rw [heq]; exact h
  · rw [heq]; exact h.of_refs rfl (Nat.le_succ _) (fun hs => hs)

theorem replaceNeighbor (h : LinksWf b s) (hw : TableWf s) {m a : IpAddr} (hrep : replaceNeighbor s m a = some s') :
    LinksWf b s' := by
  rcases replaceNeighbor_cases hrep with ⟨-, rfl⟩ | ⟨old, s₁, mid, -, h₁, rfl⟩
  · exact h
  · have hw₁ : TableWf s₁ := keyClosed_tableWf.any.deleteNeighbor hw h₁
    have hnew : (olsrInsertNeighborTable s₁ m).2 < (olsrInsertNeighborTable s₁ m).1.fresh := by
      rcases insertNeighborTable_cases s₁ m with ⟨p, hp, heq⟩ | ⟨-, heq⟩
      · rw [heq]; exact hw₁.lookup_lt hp
      · rw [heq]; exact Nat.lt_succ_self _
    exact (((h.deleteNeighbor h₁).insertNeighbor m).replaceLinks old hnew).of_refs rfl (le_refl _) (fun hs => hs)

theorem mergeAlias (h : LinksWf b s) (hw : TableWf s) {m a : IpAddr} (hmerge : mergeAlias m s a = some s') :
    LinksWf b s' := by
  obtain ⟨s₁, c, h₁, rfl⟩ := mergeAlias_cases hmerge
  have honly := twoHopOnly_deleteTwoHopIfAny h₁
  have h₂ : LinksWf b { s₁ with changesNeighborhood := c } :=
    (h.twoHopOnly honly).of_refs rfl (le_refl _) (fun hs => hs)
  rcases mergeNeighbors_cases { s₁ with changesNeighborhood := c } (olsrLookupNeighborTableAlias s₁ a)
    (olsrLookupNeighborTableAlias s₁ m) with heq | ⟨tmp, real, -, hreal, heq⟩
  · rw [heq]; exact h₂
  · rw [heq]
    have hlt : real < s₁.fresh := (hw.same honly.sameKeys).lookup_lt hreal
    exact (h₂.replaceLinks tmp hlt).of_refs rfl (le_refl _) (fun hs => hs)

theorem insertMidAlias (h : LinksWf b s) (hw : TableWf s) {random : Nat} {m a : IpAddr} {vtime : Nat}
    (hins : insertMidAlias env s random m a vtime = some s') : LinksWf b s' := by
  rcases insertMidAlias_cases hins with rfl | ⟨s₁, s₂, h₁, h₂, rfl⟩
  · exact h
  · have hs₁ := h.replaceNeighbor hw h₁
    have hw₁ := keyClosed_tableWf.any.replaceNeighbor hw trivial h₁
    have hs₂ : LinksWf b s₂ := by
      rcases insertMidTuple_cases h₂ with rfl | ⟨-, h₂⟩
      · exact hs₁
      · have hboth : TableWf s₂ ∧ LinksWf b s₂ := by
          refine Run.forEach_invariant (P := fun s => TableWf s ∧ LinksWf b s) ?_ ?_ h₂
          · rintro t x t' - ⟨ht, hl⟩ hmerge
            exact ⟨keyClosed_tableWf.any.mergeAlias ht hmerge, hl.mergeAlias ht hmerge⟩
          · exact ⟨hw₁.same (sameKeys_setMid s₁ _), hs₁.of_refs rfl (le_refl _) (fun hs => hs)⟩
        exact hboth.2
    exact hs₂.of_refs rfl (le_refl _) (fun hs => hs)

theorem step (h : LinksWf b s) (hw : TableWf s) {ev : Event} (hstep : step env s ev = some s') : LinksWf b s' := by
  cases ev with
  | tick now => obtain rfl := Option.some.inj hstep; exact h.of_refs rfl (le_refl _) (fun hs => hs)
  | helloLink hin =>
    obtain ⟨x, hx, rfl⟩ := Option.map_eq_some_iff.1 hstep
    exact h.helloLink hw hx
  | lookupLink remote a ifc =>
    obtain ⟨⟨s₁, o⟩, hx, rfl⟩ := Option.map_eq_some_iff.1 hstep
    exact lookupLinkEntry_invariant h (fun p e _ => h.of_refs rfl (le_refl _) (fun hs => hs)) hx
  | insertMidAlias random m a vtime => exact h.insertMidAlias hw hstep
  | setLinkcost id cost => obtain rfl := Option.some.inj hstep; exact h.updateLink id fun _ => rfl
  | setWillingness p w =>
    rcases setWillingness_cases hstep with rfl | ⟨e, he, rfl⟩
    · exact h
    · exact h.of_refs rfl (le_refl _) (fun hs => hs)
  | processMessageNeighbors random p message => exact h.twoHopOnly (twoHopOnly_processMessageNeighbors hstep)
  | expireNbr2List x => exact h.twoHopOnly (twoHopOnly_unlinkNbr2 hstep)
  | expireLinkSym l =>
    have hcleared : LinksWf b (s.updateLink l.id fun l => { l with linkSymTimer := none }) :=
      h.updateLink l.id fun _ => rfl
    rcases expireLinkSym_cases hstep with ⟨-, rfl⟩ | ⟨-, s₁, s₂, rfl, h₂, rfl⟩
    · exact hcleared
    · have h₂ := (hcleared.updateLink l.id (by intro; rfl)).updateNeighborStatus h₂
      exact h₂.of_refs rfl (le_refl _) (fun hs => hs)
  | expireLinkHello l hyst => exact (h.updateLink l.id (by intro; rfl)).updateNeighborStatus hstep
  | deleteLink l => exact h.deleteLink hstep
  | insertNeighbor a => obtain rfl := Option.some.inj hstep; exact h.insertNeighbor a
  | deleteNeighbor a => exact h.deleteNeighbor hstep
  | deleteTwoHop p => exact h.twoHopOnly (twoHopOnly_deleteTwoHop hstep)
  | changeMid mid => obtain rfl := Option.some.inj hstep; exact h.of_refs rfl (le_refl _) (fun hs => hs)

end LinksWf

/-! ## What changes the advertised neighbours -/

/-- What of a link a TC depends on. -/
def LinkEntry.offered (l : LinkEntry) : Ptr × UInt32 := (l.neighbor, l.linkcost)

structure SameOffer (s s' : Nbh) : Prop where
  faces : ∀ p, faceOf s' p = faceOf s p
  offered : s'.links.map LinkEntry.offered = s.links.map LinkEntry.offered
  mid : s'.mid = s.mid

/-- The links that lead to `b`, by what a TC depends on. -/
theorem linked_iff {b : IpAddr} : Linked s b ↔ ∃ x ∈ s.links.map LinkEntry.offered, x.2 < linkCostBroken ∧
    (faceOf s x.1).map Prod.fst = some b := by
  have hkey : ∀ p, keyOf s p = (faceOf s p).map Prod.fst := by
    intro p
    unfold keyOf faceOf
    rw [Option.map_map]
    rfl
  constructor
  · rintro ⟨l, hl, husable, hleads⟩
    exact ⟨l.offered, List.mem_map_of_mem hl, husable, (hkey _).symm.trans hleads⟩
  · rintro ⟨x, hx, husable, hleads⟩
    obtain ⟨l, hl, rfl⟩ := List.mem_map.1 hx
    exact ⟨l, hl, husable, (hkey _).trans hleads⟩

namespace SameOffer

theorem trans {s'' : Nbh} (h : SameOffer s s') (h' : SameOffer s' s'') : SameOffer s s'' :=
  ⟨fun p => (h'.faces p).trans (h.faces p), h'.offered.trans h.offered, h'.mid.trans h.mid⟩

theorem setNbr {p : Ptr} {e f : NeighborEntry} (he : s.nbr p = some e) (hmain : f.mainAddr = e.mainAddr)
    (hsym : f.sym = e.sym) : SameOffer s (s.setNbr p f) := by
  refine ⟨fun q => ?_, rfl, rfl⟩
  unfold faceOf Nbh.setNbr
  by_cases hq : q = p
  · subst hq; simp [he, hmain, hsym]
  · simp [Function.update_of_ne hq]

theorem updateLink (s : Nbh) (id : Ptr) {f : LinkEntry → LinkEntry} (hf : ∀ l, (f l).offered = l.offered) :
    SameOffer s (s.updateLink id f) := by
  refine ⟨fun _ => rfl, ?_, rfl⟩
  unfold Nbh.updateLink
  rw [List.map_map]
  refine List.map_congr_left fun l _ => ?_
  show LinkEntry.offered (if l.id = id then f l else l) = l.offered
  split
  · exact hf l
  · rfl

theorem symNamed (h : SameOffer s s') (a : IpAddr) : SymNamed s' a ↔ SymNamed s a :=
  exists_congr fun p => by rw [h.faces]

theorem linked (h : SameOffer s s') (b : IpAddr) : Linked s' b ↔ Linked s b := by
  rw [linked_iff, linked_iff, h.offered]
  exact exists_congr fun x => and_congr_right fun _ => and_congr_right fun _ => by rw [h.faces]

theorem advertised (h : SameOffer s s') (a : IpAddr) : Advertised s' a ↔ Advertised s a := by
  unfold Advertised
  rw [h.symNamed, h.mid, h.linked]

end SameOffer

theorem TwoHopOnly.sameOffer (h : TwoHopOnly s s') : SameOffer s s' := by
  refine ⟨fun p => ?_, by rw [h.links], h.mid⟩
  have hp := congrArg (Option.map fun c => (c.1, c.2.1)) (h.nbr p)
  rw [Option.map_map, Option.map_map] at hp
  exact hp

theorem offered_sensedLink (now random : Nat) (message : HelloMessage) (ifc : Interface) (hyst : Option LinkStatus)
    (l : LinkEntry) : (sensedLink now random message ifc hyst l).offered = l.offered := by
  unfold sensedLink
  dsimp only
  cases checkLinkStatus ifc .unspec message.neighbors <;> (dsimp only; split <;> [split; skip]) <;> rfl

/-- Nothing a TC depends on changes, or the change has been signalled. -/
def Noticed (s s' : Nbh) : Prop := s'.linkChanges = true ∨ ∀ a, Advertised s' a ↔ Advertised s a

theorem SameOffer.noticed (h : SameOffer s s') : Noticed s s' := .inr h.advertised

/-- A new status of a neighbour is signalled. -/
theorem updateNeighborStatus_noticed (htc : env.tcRedundancy = 2) {p : Ptr} {lnk : LinkStatus}
    (h : updateNeighborStatus env s p lnk = some s') : Noticed s s' := by
  obtain ⟨s₁, e, e₁, h₁, he, he₁, rfl⟩ := updateNeighborStatus_cases h
  obtain ⟨e', he', hcore⟩ := h₁.exists_nbr he
  obtain rfl := Option.some.inj (he₁.symm.trans he')
  by_cases hsym : e.sym = decide (lnk = .sym)
  · have hsym₁ : decide (lnk = .sym) = e₁.sym := hsym.symm.trans (congrArg (fun c => c.2.1) hcore).symm
    have hset : SameOffer s₁ (s₁.setNbr p { e₁ with sym := decide (lnk = .sym) }) := .setNbr he₁ rfl hsym₁
    have hboth := h₁.sameOffer.trans hset
    exact SameOffer.noticed ⟨hboth.faces, hboth.offered, hboth.mid⟩
  · refine .inl ?_
    show (s.linkChanges || (decide (env.tcRedundancy > 1) && (e.sym != decide (lnk = .sym)))) = true
    rw [htc, bne_iff_ne.2 hsym]
    simp

theorem Noticed.of_advertised {s₁ : Nbh} (h : ∀ a, Advertised s₁ a ↔ Advertised s a) (h' : Noticed s₁ s') :
    Noticed s s' := by
  rcases h' with hflag | hsame
  · exact .inl hflag
  · exact .inr fun a => (hsame a).trans (h a)

/-- Some symmetric neighbour is known by an address of the node `b`. -/
def Sought (s : Nbh) (b : IpAddr) : Prop := ∃ a, SymNamed s a ∧ midMainAddr s.mid a = b

theorem advertised_congr (hnamed : ∀ a, SymNamed s' a ↔ SymNamed s a)
    (hmid : ∀ a, SymNamed s a → midMainAddr s'.mid a = midMainAddr s.mid a)
    (hlinked : ∀ b, Sought s b → (Linked s' b ↔ Linked s b)) (a : IpAddr) : Advertised s' a ↔ Advertised s a := by
  unfold Advertised
  rw [hnamed]
  refine and_congr_right fun ha => ?_
  rw [hmid a ha]
  exact hlinked _ ⟨a, ha, rfl⟩

/-- No link to `p` is usable. -/
def Idle (s : Nbh) (p : Ptr) : Prop := ∀ l ∈ s.links, l.neighbor = p → ¬ l.Usable

/-- The entry `p` has nothing to do with what is advertised, neither under the main address `b` nor under `c`. -/
def Aside (s : Nbh) (p : Ptr) (b c : IpAddr) : Prop :=
  faceOf s p = some (b, false) ∧ (Idle s p ∨ (¬ Sought s b ∧ ¬ Sought s c))

/-- The entry of a neighbour that is not advertised gets another main address, or goes. -/
theorem advertised_of_aside {p : Ptr} {b c : IpAddr} (haside : Aside s p b c) (hlinks : s'.links = s.links)
    (hmid : s'.mid = s.mid) (hother : ∀ q, q ≠ p → faceOf s' q = faceOf s q)
    (hface : faceOf s' p = none ∨ faceOf s' p = some (c, false)) (a : IpAddr) : Advertised s' a ↔ Advertised s a := by
  obtain ⟨hp, hquiet⟩ := haside
  refine advertised_congr (fun x => ?_) (fun x _ => by rw [hmid]) (fun d hd => ?_) a
  · refine exists_congr fun q => ?_
    by_cases hq : q = p
    · subst hq
      rw [hp]
      rcases hface with h | h <;> simp [h]
    · rw [hother q hq]
  · rw [linked_iff, linked_iff, hlinks]
    refine exists_congr fun x => and_congr_right fun hx => and_congr_right fun husable => ?_
    by_cases hq : x.1 = p
    · rcases hquiet with hidle | ⟨hb, hc⟩
      · obtain ⟨l, hl, rfl⟩ := List.mem_map.1 hx
        exact absurd husable (hidle l hl hq)
      · have hdb : b ≠ d := by rintro rfl; exact hb hd
        have hdc : c ≠ d := by rintro rfl; exact hc hd
        rw [hq, hp]
        rcases hface with h | h <;> simp [h, hdb, hdc]
    · rw [hother _ hq]

theorem rekeyed_advertised {p : Ptr} {e : NeighborEntry} {c : IpAddr} (he : s.nbr p = some e)
    (haside : Aside s p e.mainAddr c) (a : IpAddr) : Advertised (rekeyed s p e c) a ↔ Advertised s a := by
  have hsym : e.sym = false := by
    have hface := haside.1
    rw [faceOf_eq he] at hface
    exact (Prod.mk.inj (Option.some.inj hface)).2
  refine advertised_of_aside haside (by rfl) (by rfl) (fun q hq => ?_) (.inr ?_) a
  · unfold faceOf rekeyed Nbh.setNbr
    simp [Function.update_of_ne hq]
  · unfold faceOf rekeyed Nbh.setNbr
    simp [hsym]

/-- The neighbour entry found under `b` has nothing to do with what is advertised. -/
def DeleteAside (s : Nbh) (b : IpAddr) : Prop := ∀ p, olsrLookupNeighborTableAlias s b = some p → Aside s p b b

theorem deleteNeighbor_advertised {b : IpAddr} (haside : DeleteAside s b) (h : olsrDeleteNeighborTable s b = some s')
    (a : IpAddr) : Advertised s' a ↔ Advertised s a := by
  rcases deleteNeighborTable_cases h with ⟨-, rfl⟩ | ⟨p, s₁, hp, h₁, rfl⟩
  · exact Iff.rfl
  · refine advertised_of_aside (haside p hp) (by exact h₁.links) (by exact h₁.mid) (fun q hq => ?_) (.inl ?_) a
    · rw [← h₁.sameOffer.faces q]
      unfold faceOf Nbh.freeNbr
      simp [Function.update_of_ne hq]
    · unfold faceOf Nbh.freeNbr
      simp

/-- Without the link `l` to an entry of the main address `b`, `b` is linked as before. -/
def Dispensable (s : Nbh) (l : LinkEntry) (b : IpAddr) : Prop :=
  Sought s b → ¬ l.Usable ∨ ∃ l' ∈ s.links, l'.id ≠ l.id ∧ l'.Usable ∧ l'.LeadsTo s b

/-- A link goes that is dispensable. -/
theorem dropLink_advertised (hnodup : ((refs s).map Prod.fst).Nodup) {l : LinkEntry} (hl : l ∈ s.links) {b : IpAddr}
    (hleads : ∀ d, l.LeadsTo s d → d = b) (hdisp : Dispensable s l b) (a : IpAddr) :
    Advertised { s with links := s.links.filter fun l' => l'.id != l.id } a ↔ Advertised s a := by
  refine advertised_congr (by intro x; rfl) (by intro x _; rfl) (fun d hd => ?_) a
  have hids : (s.links.map LinkEntry.id).Nodup := by
    unfold refs at hnodup
    rw [List.map_map] at hnodup
    exact hnodup
  constructor
  · rintro ⟨l', hl', husable, hto⟩
    exact ⟨l', List.mem_of_mem_filter hl', husable, hto⟩
  · rintro ⟨l', hl', husable, hto⟩
    by_cases hid : l'.id = l.id
    · obtain rfl : l' = l := List.inj_on_of_nodup_map hids hl' hl hid
      obtain rfl := hleads d hto
      rcases hdisp hd with hno | ⟨l'', hl'', hne, husable', hto'⟩
      · exact absurd husable hno
      · exact ⟨l'', List.mem_filter.2 ⟨hl'', by simpa using hne⟩, husable', hto'⟩
    · exact ⟨l', List.mem_filter.2 ⟨hl', by simpa using hid⟩, husable, hto⟩

/-- A link that can be deleted without a change of what is advertised: if its neighbour goes with it, that one has
nothing to do with it either. -/
def LinkAside (s : Nbh) (l : LinkEntry) (e : NeighborEntry) : Prop :=
  (e.linkcount = 1 → DeleteAside s e.mainAddr) ∧ Dispensable s l e.mainAddr

theorem deleteLink_advertised {b : Bool} (hwf : LinksWf b s) {l : LinkEntry} (hl : l ∈ s.links)
    (haside : ∀ e, s.nbr l.neighbor = some e → LinkAside s l e) (h : olsrDeleteLinkEntry s l = some s') (a : IpAddr) :
    Advertised s' a ↔ Advertised s a := by
  obtain ⟨e, s₁, he, rfl, hcases⟩ := deleteLinkEntry_cases h
  obtain ⟨hentry, hdisp⟩ := haside e he
  have hleads : ∀ d, l.LeadsTo s d → d = e.mainAddr := by
    intro d hd
    exact Option.some.inj (hd.symm.trans (keyOf_eq he))
  have hdrop := dropLink_advertised hwf.nodup hl hleads hdisp a
  refine Iff.trans ?_ hdrop
  rcases hcases with ⟨hone, h₁⟩ | ⟨-, rfl⟩
  · rcases deleteNeighborTable_cases h₁ with ⟨-, rfl⟩ | ⟨p, s₂, hp, h₂, rfl⟩
    · exact Iff.rfl
    · obtain ⟨hface, hquiet⟩ := hentry hone p hp
      -- with fewer links an entry that was aside still is
      have haside : Aside { s with links := s.links.filter fun l' => l'.id != l.id } p e.mainAddr e.mainAddr :=
        ⟨hface, hquiet.imp_left fun hidle l' hl' => hidle l' (List.mem_of_mem_filter hl')⟩
      refine advertised_of_aside haside ?_ (by exact h₂.mid) (fun q hq => ?_) (.inl ?_) a
      · show s₂.links.filter _ = s.links.filter _
        rw [h₂.links]
      · show (Function.update s₂.nbr p none q).map _ = _
        rw [Function.update_of_ne hq]
        exact h₂.sameOffer.faces q
      · show (Function.update s₂.nbr p none p).map _ = none
        rw [Function.update_self]
        rfl
  · have hset : SameOffer s (s.setNbr l.neighbor { e with linkcount := e.linkcount - 1 }) := .setNbr he rfl rfl
    refine SameOffer.advertised ?_ a
    exact ⟨hset.faces, rfl, rfl⟩

/-! ## Events -/

/-- The event changes nothing that is advertised without a signal: neighbours that get another main address, are
deleted, or lose a link have nothing to do with it, aliases keep neighbour entries apart, and symmetric neighbours
keep the main address they are known by. -/
def Quiet (env : Env) (s : Nbh) : Event → Prop
  | .helloLink h => ∀ p e, Moves s h.fromAddr h.message.sourceAddr h.inIf p e →
    Aside s p e.mainAddr h.message.sourceAddr
  | .lookupLink remote a ifc => ∀ p e, Moves s remote a ifc p e → Aside s p e.mainAddr a
  | .insertMidAlias _ m a _ => KeepsApart env s m a
  | .deleteLink l => ∀ e, s.nbr l.neighbor = some e → LinkAside s l e
  | .deleteNeighbor a => DeleteAside s a
  | .changeMid mid => ∀ a, SymNamed s a → midMainAddr mid a = midMainAddr s.mid a
  | _ => True

theorem lookupLinkEntry_advertised {remote c : IpAddr} {ifc : Interface} {o : Option LinkEntry}
    (hok : ∀ p e, Moves s remote c ifc p e → Aside s p e.mainAddr c)
    (h : lookupLinkEntry s remote c ifc = some (s', o)) (a : IpAddr) : Advertised s' a ↔ Advertised s a :=
  lookupLinkEntry_invariant (P := fun t => Advertised t a ↔ Advertised s a) Iff.rfl
    (fun p e hm => rekeyed_advertised hm.2.1 (hok p e hm) a) h

/-- A new neighbour has no link yet, and is not symmetric. -/
theorem inserted_advertised {b : Bool} (hw : TableWf s) (hwf : LinksWf b s) (c : IpAddr) (a : IpAddr) :
    Advertised (inserted s c) a ↔ Advertised s a := by
  have hfresh : faceOf s s.fresh = none := by
    have hkey := hw.fresh s.fresh (le_refl _)
    unfold keyOf at hkey
    unfold faceOf
    rw [Option.map_eq_none_iff] at hkey ⊢
    exact hkey
  have hother : ∀ q, q ≠ s.fresh → faceOf (inserted s c) q = faceOf s q := by
    intro q hq
    unfold faceOf inserted
    simp [Function.update_of_ne hq]
  have hnew : faceOf (inserted s c) s.fresh = some (c, false) := by
    unfold faceOf inserted
    simp [newNeighborEntry]
  refine advertised_congr (fun x => ?_) (by intro x _; rfl) (fun d _ => ?_) a
  · refine exists_congr fun q => ?_
    by_cases hq : q = s.fresh
    · rw [hq, hfresh, hnew]; simp
    · rw [hother q hq]
  · rw [linked_iff, linked_iff]
    refine exists_congr fun x => and_congr_right fun hx => and_congr_right fun _ => ?_
    obtain ⟨l, hl, rfl⟩ := List.mem_map.1 hx
    have hlt : l.neighbor < s.fresh := hwf.neighbors _ (mem_refs hl)
    rw [hother l.offered.1 hlt.ne]

/-- A new link is not usable yet. -/
theorem addLinkEntry_advertised {b : Bool} (hw : TableWf s) (hwf : LinksWf b s) {random : Nat}
    {localAddr remote c : IpAddr} {vtime : Nat} {ifc : Interface} {l : LinkEntry}
    (hok : ∀ p e, Moves s remote c ifc p e → Aside s p e.mainAddr c)
    (h : addLinkEntry s random localAddr remote c vtime ifc = some (s', l)) (a : IpAddr) :
    Advertised s' a ↔ Advertised s a := by
  rcases addLinkEntry_cases h with hl | ⟨-, s₁, p, e, heq, he, rfl, rfl⟩
  · exact lookupLinkEntry_advertised hok hl a
  · have hsame : s₁.links = s.links ∧ (Advertised s₁ a ↔ Advertised s a) := by
      rcases neighborFor_cases s.allocated c with ⟨q, d, -, heq'⟩ | ⟨-, heq'⟩
      · obtain ⟨rfl, -⟩ := Prod.mk.inj (heq'.symm.trans heq)
        exact ⟨rfl, Iff.rfl⟩
      · obtain ⟨rfl, -⟩ := Prod.mk.inj (heq'.symm.trans heq)
        have honly := TwoHopOnly.allocated s
        exact ⟨rfl, inserted_advertised (hw.same honly.sameKeys) (hwf.twoHopOnly honly) c a⟩
    obtain ⟨hlinks, hadv⟩ := hsame
    refine Iff.trans ?_ hadv
    have hset : SameOffer s₁ (s₁.setNbr p { e with linkcount := e.linkcount + 1 }) := .setNbr he rfl rfl
    refine Iff.trans (advertised_congr ?_ ?_ (fun d _ => ?_) a) (hset.advertised a)
    · intro x; rfl
    · intro x _; rfl
    · constructor
      · rintro ⟨l', hl', husable, hto⟩
        rcases List.mem_append.1 hl' with hl' | hl'
        · exact ⟨l', hlinks ▸ hl', husable, hto⟩
        · obtain rfl := List.mem_singleton.1 hl'
          exact absurd husable (UInt32.lt_irrefl linkCostBroken)
      · rintro ⟨l', hl', husable, hto⟩
        exact ⟨l', List.mem_append_left _ (hlinks ▸ hl'), husable, hto⟩

theorem helloLink_noticed {b : Bool} (htc : env.tcRedundancy = 2) (hw : TableWf s) (hwf : LinksWf b s) {h : HelloInput}
    {x : Nbh × Ptr} (hok : Quiet env s (.helloLink h)) (hstep : helloLink env s h = some x) : Noticed s x.1 := by
  obtain ⟨s₁, l, h₁, h₂, -⟩ := helloLink_cases hstep
  have hsensed := SameOffer.updateLink s₁ l.id (offered_sensedLink s₁.now (h.random 0) h.message h.inIf h.hyst)
  refine Noticed.of_advertised (fun a => ?_) (updateNeighborStatus_noticed htc h₂)
  exact (hsensed.advertised a).trans (addLinkEntry_advertised hw hwf hok h₁ a)

theorem midMainAddr_register {m : MidSet} {now random : Nat} {mainAddr adr : IpAddr} {vtime : Nat} {x : IpAddr}
    (hx : x ≠ adr) : midMainAddr (m.register now random mainAddr adr vtime) x = midMainAddr m x := by
  have hreverse : (m.register now random mainAddr adr vtime).reverseMidSet =
      Function.update m.reverseMidSet (olsrIpHashing adr) ((adr, mainAddr) :: m.reverseMidSet (olsrIpHashing adr)) := by
    unfold MidSet.register MidSet.updateEntry
    split <;> rfl
  unfold midMainAddr midLookupMainAddr
  rw [hreverse]
  by_cases hhash : olsrIpHashing x = olsrIpHashing adr
  · rw [hhash, Function.update_self, List.find?_cons_of_neg]
    simpa using hx.symm
  · rw [Function.update_of_ne hhash]

theorem insertMidAlias_advertised (hw : TableWf s) {random : Nat} {m c : IpAddr} {vtime : Nat}
    (hapart : KeepsApart env s m c) (h : insertMidAlias env s random m c vtime = some s') (a : IpAddr) :
    Advertised s' a ↔ Advertised s a := by
  obtain ⟨mid, hmid, honly⟩ := insertMidAlias_apart hapart h
  refine (honly.sameOffer.advertised a).trans ?_
  refine advertised_congr (by intro x; rfl) (fun x hx => ?_) (by intro d _; rfl) a
  rcases hmid with rfl | ⟨hno, rfl⟩
  · rfl
  · refine midMainAddr_register ?_
    rintro rfl
    obtain ⟨p, hp⟩ := hx
    obtain ⟨e, he, heq⟩ := Option.map_eq_some_iff.1 hp
    obtain ⟨rfl, -⟩ := Prod.mk.inj heq
    exact hw.lookup_eq_none.1 hno p (keyOf_eq he)

theorem stepNbh_cases {ev : Event} (h : stepNbh env s ev = some s') :
    (∃ id cost, ev = .setLinkcost id cost ∧ s' = olsrRelevantLinkcostChange (setLinkcost s id cost)) ∨
      step env s ev = some s' := by
  cases ev with
  | setLinkcost id cost => exact .inl ⟨id, cost, rfl, (Option.some.inj h).symm⟩
  | _ => exact .inr h

/-- What is advertised changes with a signal only. -/
theorem Noticed.step {b : Bool} (htc : env.tcRedundancy = 2) (hw : TableWf s) (hwf : LinksWf b s) {ev : Event}
    (hen : ev.Enabled s) (hok : Quiet env s ev) (hstep : stepNbh env s ev = some s') : Noticed s s' := by
  cases ev with
  | tick now => obtain rfl := Option.some.inj hstep; exact .inr fun _ => Iff.rfl
  | helloLink h =>
    obtain ⟨x, hx, rfl⟩ := Option.map_eq_some_iff.1 hstep
    exact helloLink_noticed htc hw hwf hok hx
  | lookupLink remote c ifc =>
    obtain ⟨⟨s₁, o⟩, hx, rfl⟩ := Option.map_eq_some_iff.1 hstep
    exact .inr (lookupLinkEntry_advertised hok hx)
  | insertMidAlias random m c vtime => exact .inr (insertMidAlias_advertised hw hok hstep)
  | setLinkcost id cost => obtain rfl := Option.some.inj hstep; exact .inl rfl
  | setWillingness p w =>
    rcases setWillingness_cases hstep with rfl | ⟨e, he, rfl⟩
    · exact .inr fun _ => Iff.rfl
    · have hset : SameOffer s (s.setNbr p { e with willingness := w }) := .setNbr he rfl rfl
      exact (hset.trans (TwoHopOnly.changed _).sameOffer).noticed
  | processMessageNeighbors random p message => exact (twoHopOnly_processMessageNeighbors hstep).sameOffer.noticed
  | expireNbr2List x => exact (twoHopOnly_unlinkNbr2 hstep).sameOffer.noticed
  | expireLinkSym l =>
    have hcleared : SameOffer s (s.updateLink l.id fun l => { l with linkSymTimer := none }) :=
      .updateLink s l.id fun _ => rfl
    rcases expireLinkSym_cases hstep with ⟨-, rfl⟩ | ⟨-, s₁, s₂, rfl, h₂, rfl⟩
    · exact hcleared.noticed
    · have hnoticed := Noticed.of_advertised (SameOffer.updateLink _ l.id (by intro; rfl)).advertised
        (updateNeighborStatus_noticed htc h₂)
      exact Noticed.of_advertised hcleared.advertised (hnoticed.imp (fun hflag => hflag) fun hsame => hsame)
  | expireLinkHello l hyst =>
    exact Noticed.of_advertised (SameOffer.updateLink s l.id (by intro; rfl)).advertised
      (updateNeighborStatus_noticed htc hstep)
  | deleteLink l => exact .inr (deleteLink_advertised hwf hen hok hstep)
  | insertNeighbor c =>
    obtain rfl := Option.some.inj hstep
    rcases insertNeighborTable_cases s c with ⟨p, -, heq⟩ | ⟨-, heq⟩
    · rw [heq]; exact .inr fun _ => Iff.rfl
    · rw [heq]; exact .inr (inserted_advertised hw hwf c)
  | deleteNeighbor c => exact .inr (deleteNeighbor_advertised hok hstep)
  | deleteTwoHop p => exact (twoHopOnly_deleteTwoHop hstep).sameOffer.noticed
  | changeMid mid =>
    obtain rfl := Option.some.inj hstep
    exact .inr (advertised_congr (by intro x; rfl) hok (by intro d _; rfl))

end Olsrd.Neighbor
