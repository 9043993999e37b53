/-
What becomes of the links of a node. A HELLO message senses one link, or makes it; whatever else happens takes links
away or their symmetric timers, and leaves them where they are.
-/
import Olsrd.Neighbor.Status
import Olsrd.Neighbor.Advertised
import Olsrd.Sensing.Network

namespace Olsrd.Sensing

open Olsrd.Neighbor

/-! ## Links that stay -/

/-- Where a link is: its addresses, and the name of its interface. -/
def site (l : LinkEntry) : IpAddr × IpAddr × Option String := (l.localIfaceAddr, l.neighborIfaceAddr, l.ifName)

/-- What decides the status of a link. -/
def core (l : LinkEntry) : Ptr × (IpAddr × IpAddr × Option String) × Option Timer × Nat × Option LinkStatus :=
  (l.id, site l, l.linkSymTimer, l.asymTime, l.hysteresis)

/-- The links are the same, as far as their status goes, and the clock stands still. -/
structure Same (s s' : Nbh) : Prop where
  cores : s'.links.map core = s.links.map core
  now : s'.now = s.now

variable {env : Env} {s s' s'' : Nbh}

namespace Same

theorem of_links (hlinks : s'.links = s.links) (hnow : s'.now = s.now) : Same s s' := ⟨hlinks ▸ rfl, hnow⟩

theorem refl (s : Nbh) : Same s s := ⟨rfl, rfl⟩

theorem trans (h : Same s s') (h' : Same s' s'') : Same s s'' := ⟨h'.cores.trans h.cores, h'.now.trans h.now⟩

/-- Every link changes, but for its status. -/
theorem mapLinks {f : LinkEntry → LinkEntry} (hf : ∀ l, core (f l) = core l) (hlinks : s'.links = s.links.map f)
    (hnow : s'.now = s.now) : Same s s' := by
  refine ⟨?_, hnow⟩
  rw [hlinks, List.map_map]
  exact List.map_congr_left fun l _ => hf l

theorem updateLink (s : Nbh) (id : Ptr) {f : LinkEntry → LinkEntry} (hf : ∀ l, core (f l) = core l) :
    Same s (s.updateLink id f) := by
  refine mapLinks (fun l => ?_) rfl rfl
  split
  · exact hf l
  · rfl

theorem replaceNeighborLinkSet (s : Nbh) (old new : Ptr) : Same s (replaceNeighborLinkSet s old new) := by
  refine mapLinks (fun l => ?_) rfl rfl
  split <;> rfl

theorem twoHopOnly (h : TwoHopOnly s s') : Same s s' := of_links h.links h.now

theorem deleteNeighborTable {a : IpAddr} (h : olsrDeleteNeighborTable s a = some s') : Same s s' := by
  rcases deleteNeighborTable_cases h with ⟨-, rfl⟩ | ⟨p, s₁, -, honly, rfl⟩
  · exact .refl s'
  · exact of_links honly.links honly.now

theorem insertNeighborTable (s : Nbh) (a : IpAddr) : Same s (olsrInsertNeighborTable s a).1 := by
  rcases insertNeighborTable_cases s a with ⟨p, -, heq⟩ | ⟨-, heq⟩
  · rw [heq]
    exact .refl s
  · rw [heq]
    exact of_links rfl rfl

theorem updateNeighborStatus {p : Ptr} {lnk : LinkStatus} (h : updateNeighborStatus env s p lnk = some s') :
    Same s s' := by
  obtain ⟨s₁, e, e₁, honly, -, -, rfl⟩ := updateNeighborStatus_cases h
  exact of_links honly.links honly.now

theorem mergeAlias {m a : IpAddr} (h : mergeAlias m s a = some s') : Same s s' := by
  obtain ⟨s₁, b, h₁, rfl⟩ := mergeAlias_cases h
  have honly : Same s { s₁ with changesNeighborhood := b } :=
    (twoHopOnly (twoHopOnly_deleteTwoHopIfAny h₁)).trans (of_links rfl rfl)
  rcases mergeNeighbors_cases { s₁ with changesNeighborhood := b } (olsrLookupNeighborTableAlias s₁ a)
    (olsrLookupNeighborTableAlias s₁ m) with heq | ⟨tmp, real, -, -, heq⟩
  · rw [heq]
    exact honly
  · rw [heq]
    exact honly.trans ((replaceNeighborLinkSet _ tmp real).trans (of_links rfl rfl))

theorem insertMidAlias {random : Nat} {m a : IpAddr} {vtime : Nat}
    (h : insertMidAlias env s random m a vtime = some s') : Same s s' := by
  rcases insertMidAlias_cases h with rfl | ⟨s₁, s₂, h₁, h₂, rfl⟩
  · exact .refl s'
  have hreplace : Same s s₁ := by
    rcases replaceNeighbor_cases h₁ with ⟨-, rfl⟩ | ⟨old, s₃, mid, -, h₃, rfl⟩
    · exact .refl s₁
    · exact (deleteNeighborTable h₃).trans ((insertNeighborTable s₃ m).trans
        ((replaceNeighborLinkSet _ old _).trans (of_links rfl rfl)))
  have htuple : Same s₁ s₂ := by
    rcases insertMidTuple_cases h₂ with rfl | ⟨-, h₂⟩
    · exact .refl s₂
    · have hmid : Same s₁ { s₁ with mid := s₁.mid.register s₁.now random m a vtime } := of_links rfl rfl
      exact hmid.trans (Run.forEach_relation Same.refl (fun _ _ _ => Same.trans) (fun _ _ _ => mergeAlias) h₂)
  exact hreplace.trans (htuple.trans (of_links rfl rfl))

theorem lookupLinkEntry {remote remoteMain : IpAddr} {ifc : Interface} {o : Option LinkEntry}
    (h : lookupLinkEntry s remote remoteMain ifc = some (s', o)) : Same s s' := by
  rcases (lookupLinkEntry_cases h).2 with ⟨rfl, -⟩ | ⟨l, e, -, -, -, rfl⟩
  · exact .refl s'
  · exact of_links rfl rfl

theorem setWillingness {p : Ptr} {w : Nat} (h : setWillingness s p w = some s') : Same s s' := by
  rcases setWillingness_cases h with rfl | ⟨e, -, rfl⟩
  · exact .refl s'
  · exact of_links rfl rfl

end Same

/-! ## Links that go -/

/-- The same link, symmetric no longer than before. -/
structure Weaker (l' l : LinkEntry) : Prop where
  site : site l' = site l
  timer : l'.linkSymTimer = none ∨ l'.linkSymTimer = l.linkSymTimer
  hysteresis : l'.hysteresis ≠ some .sym ∨ l'.hysteresis = l.hysteresis

theorem Weaker.refl (l : LinkEntry) : Weaker l l := ⟨rfl, .inr rfl, .inr rfl⟩

theorem Weaker.trans {l₁ l₂ l₃ : LinkEntry} (h : Weaker l₃ l₂) (h' : Weaker l₂ l₁) : Weaker l₃ l₁ := by
  constructor
  · exact h.site.trans h'.site
  · rcases h.timer with hnone | heq
    · exact .inl hnone
    · exact heq ▸ h'.timer
  · rcases h.hysteresis with hne | heq
    · exact .inl hne
    · exact heq ▸ h'.hysteresis

/-- All links are links from before, and the clock stands still. -/
structure Kept (s s' : Nbh) : Prop where
  links : ∀ l' ∈ s'.links, ∃ l ∈ s.links, Weaker l' l
  sites : List.Sublist (s'.links.map site) (s.links.map site)
  now : s'.now = s.now

theorem map_site_of_cores (h : s'.links.map core = s.links.map core) : s'.links.map site = s.links.map site := by
  have hmap := congrArg (List.map fun c => c.2.1) h
  rwa [List.map_map, List.map_map] at hmap

/-- The events after which the links are the same. -/
def Neutral : Event → Prop
  | .tick _ | .helloLink _ | .expireLinkSym _ | .expireLinkHello .. | .deleteLink _ => False
  | _ => True

theorem Same.step {ev : Event} (hneutral : Neutral ev) (h : step env s ev = some s') : Same s s' := by
  cases ev with
  | tick now => exact hneutral.elim
  | helloLink hin => exact hneutral.elim
  | lookupLink remote a ifc =>
    obtain ⟨⟨s₁, o⟩, h₁, rfl⟩ := Option.map_eq_some_iff.1 h
    exact lookupLinkEntry h₁
  | insertMidAlias random m a vtime => exact insertMidAlias h
  | setLinkcost id cost => obtain rfl := Option.some.inj h; exact updateLink s id fun _ => rfl
  | setWillingness p w => exact setWillingness h
  | processMessageNeighbors random n message => exact twoHopOnly (twoHopOnly_processMessageNeighbors h)
  | expireNbr2List x => exact twoHopOnly (twoHopOnly_unlinkNbr2 h)
  | expireLinkSym l => exact hneutral.elim
  | expireLinkHello l hyst => exact hneutral.elim
  | deleteLink l => exact hneutral.elim
  | insertNeighbor a => obtain rfl := Option.some.inj h; exact insertNeighborTable s a
  | deleteNeighbor a => exact deleteNeighborTable h
  | deleteTwoHop t => exact twoHopOnly (twoHopOnly_deleteTwoHop h)
  | changeMid mid => obtain rfl := Option.some.inj h; exact of_links rfl rfl

namespace Kept

theorem of_same (h : Same s s') : Kept s s' := by
  refine ⟨fun l' hl' => ?_, map_site_of_cores h.cores ▸ .refl _, h.now⟩
  obtain ⟨l, hl, hcore⟩ := List.mem_map.1 (h.cores ▸ List.mem_map_of_mem (f := core) hl')
  unfold core at hcore
  simp only [Prod.mk.injEq] at hcore
  exact ⟨l, hl, hcore.2.1.symm, .inr hcore.2.2.1.symm, .inr hcore.2.2.2.2.symm⟩

theorem trans (h : Kept s s') (h' : Kept s' s'') : Kept s s'' := by
  refine ⟨fun l'' hl'' => ?_, h'.sites.trans h.sites, h'.now.trans h.now⟩
  obtain ⟨l', hl', hweak'⟩ := h'.links l'' hl''
  obtain ⟨l, hl, hweak⟩ := h.links l' hl'
  exact ⟨l, hl, hweak'.trans hweak⟩

theorem updateLink (s : Nbh) (id : Ptr) {f : LinkEntry → LinkEntry} (hf : ∀ l, Weaker (f l) l) :
    Kept s (s.updateLink id f) := by
  have hall : ∀ l, Weaker (if l.id = id then f l else l) l := by
    intro l
    split
    · exact hf l
    · exact .refl l
  refine ⟨fun l' hl' => ?_, ?_, rfl⟩
  · obtain ⟨l, hl, rfl⟩ := List.mem_map.1 hl'
    exact ⟨l, hl, hall l⟩
  · have hsites : (site ∘ fun l => if l.id = id then f l else l) = site := funext fun l => (hall l).site
    unfold Nbh.updateLink
    rw [List.map_map, hsites]

theorem deleteLinkEntry {l : LinkEntry} (h : olsrDeleteLinkEntry s l = some s') : Kept s s' := by
  obtain ⟨e, s₁, -, rfl, hcases⟩ := deleteLinkEntry_cases h
  have hfilter : Kept s₁ { s₁ with links := s₁.links.filter (fun l' => l'.id != l.id), changesNeighborhood := true } :=
    ⟨fun l' hl' => ⟨l', List.mem_of_mem_filter hl', .refl l'⟩, List.filter_sublist.map site, rfl⟩
  rcases hcases with ⟨-, h₁⟩ | ⟨-, rfl⟩
  · exact (of_same (.deleteNeighborTable h₁)).trans hfilter
  · have hset : Kept s (s.setNbr l.neighbor { e with linkcount := e.linkcount - 1 }) := of_same (.of_links rfl rfl)
    exact hset.trans hfilter

theorem expireLinkSym {l : LinkEntry} (h : olsrExpireLinkSymTimer env s l = some s') : Kept s s' := by
  have hclear : Kept s (s.updateLink l.id fun l => { l with linkSymTimer := none }) :=
    updateLink s l.id fun _ => ⟨rfl, .inl rfl, .inr rfl⟩
  rcases expireLinkSym_cases h with ⟨-, rfl⟩ | ⟨-, s₁, s₂, rfl, h₂, rfl⟩
  · exact hclear
  · have hprev := Same.updateLink (s.updateLink l.id fun l => { l with linkSymTimer := none }) l.id (f := fun l' =>
      { l' with prevStatus := lookupLinkStatus (s.updateLink l.id fun l => { l with linkSymTimer := none }) l' })
      fun _ => rfl
    exact hclear.trans (of_same (hprev.trans ((Same.updateNeighborStatus h₂).trans (.of_links rfl rfl))))

/-- Only a HELLO message makes links, and links symmetric. -/
theorem step {ev : Event} (hsilent : Silent ev) (h : step env s ev = some s') : Kept s s' := by
  by_cases hneutral : Neutral ev
  · exact of_same (.step hneutral h)
  cases ev with
  | tick now => exact hsilent.elim
  | helloLink hin => exact hsilent.elim
  | expireLinkSym l => exact expireLinkSym h
  | expireLinkHello l hyst =>
    have hset : Kept s (s.updateLink l.id fun l' => { l' with hysteresis := hyst }) :=
      updateLink s l.id fun _ => ⟨rfl, .inr rfl, .inl hsilent⟩
    exact hset.trans (of_same (.updateNeighborStatus h))
  | deleteLink l => exact deleteLinkEntry h
  | _ => exact absurd trivial hneutral

end Kept

/-! ## The link of a HELLO -/

/-- The link that a HELLO message is about, as it was found or as it is made. -/
def Target (s : Nbh) (h : HelloInput) (l : LinkEntry) : Prop :=
  (l ∈ s.links ∧ l.neighborIfaceAddr = h.fromAddr ∧ l.onInterface h.inIf = true) ∨
    (l.localIfaceAddr = h.inIf.ipAddr ∧ l.neighborIfaceAddr = h.fromAddr ∧ l.ifName = h.inIf.intName ∧
      l.linkSymTimer = none)

theorem target_of_findLink {h : HelloInput} {l : LinkEntry} (hfind : findLink s h.fromAddr h.inIf = some l) :
    Target s h l := by
  have hkey := List.find?_some hfind
  rw [Bool.and_eq_true, beq_iff_eq] at hkey
  exact .inl ⟨List.mem_of_find?_eq_some hfind, hkey⟩

theorem target_new {h : HelloInput} (p : Ptr) :
    Target s h (newLinkEntry s.fresh s.now (h.random 0) h.inIf.ipAddr h.fromAddr h.inIf p h.message.vtime) :=
  .inr ⟨rfl, rfl, rfl, rfl⟩

theorem id_inj {b : Bool} (hw : LinksWf b s) {l l' : LinkEntry} (hl : l ∈ s.links) (hl' : l' ∈ s.links)
    (hid : l.id = l'.id) : l = l' := by
  have hnodup : (s.links.map fun l => l.id).Nodup := by
    have hrefs := hw.nodup
    unfold refs at hrefs
    rwa [List.map_map] at hrefs
  exact List.inj_on_of_nodup_map hnodup hl hl' hid

/-- What `update_link_entry` makes of the symmetric timer: a new one if the message lists this node as heard. -/
theorem linkSymTimer_sensedLink {now random : Nat} {message : Neighbor.HelloMessage} {ifc : Interface}
    {hyst : Option LinkStatus}
    {l : LinkEntry} {t : Timer} (h : (sensedLink now random message ifc hyst l).linkSymTimer = some t) :
    l.linkSymTimer = some t ∨ ((checkLinkStatus ifc .unspec message.neighbors = .sym ∨
      checkLinkStatus ifc .unspec message.neighbors = .asym) ∧ t.clock ≤ now + message.vtime) := by
  unfold sensedLink at h
  dsimp only at h
  cases hstatus : checkLinkStatus ifc .unspec message.neighbors with
  | unspec => rw [hstatus] at h; dsimp only at h; split at h <;> [split at h; skip] <;> exact .inl h
  | hide => rw [hstatus] at h; dsimp only at h; split at h <;> [split at h; skip] <;> exact .inl h
  | lost => rw [hstatus] at h; dsimp only at h; split at h <;> [split at h; skip] <;> cases h
  | sym =>
    have hset : olsrSetTimer now random l.linkSymTimer message.vtime 0 = some t := by
      rw [hstatus] at h; dsimp only at h; split at h <;> [split at h; skip] <;> exact h
    exact .inr ⟨.inl rfl, clock_olsrSetTimer hset⟩
  | asym =>
    have hset : olsrSetTimer now random l.linkSymTimer message.vtime 0 = some t := by
      rw [hstatus] at h; dsimp only at h; split at h <;> [split at h; skip] <;> exact h
    exact .inr ⟨.inr rfl, clock_olsrSetTimer hset⟩

theorem site_sensedLink (now random : Nat) (message : Neighbor.HelloMessage) (ifc : Interface)
    (hyst : Option LinkStatus) (l : LinkEntry) : site (sensedLink now random message ifc hyst l) = site l := by
  have hplace := place_sensedLink now random message ifc hyst l
  unfold LinkEntry.place at hplace
  unfold site
  simp only [Prod.mk.injEq] at hplace ⊢
  tauto

/-- What a HELLO message makes of the links: the one it is about is sensed where it is, or a new one at the end. -/
theorem helloLink_links (hids : ∀ l ∈ s.links, l.id < s.fresh) {h : HelloInput} {x : Nbh × Ptr}
    (hstep : Neighbor.helloLink env s h = some x) :
    x.1.now = s.now ∧
      ((∃ l₀, findLink s h.fromAddr h.inIf = some l₀ ∧ x.1.links = s.links.map fun l =>
          if l.id = l₀.id then sensedLink s.now (h.random 0) h.message h.inIf h.hyst l else l) ∨
        findLink s h.fromAddr h.inIf = none ∧
          ∃ p, x.1.links = s.links ++ [sensedLink s.now (h.random 0) h.message h.inIf h.hyst
            (newLinkEntry s.fresh s.now (h.random 0) h.inIf.ipAddr h.fromAddr h.inIf p h.message.vtime)]) := by
  obtain ⟨s₁, l₀, h₁, h₂, -⟩ := helloLink_cases hstep
  have hstatus : Same _ x.1 := .updateNeighborStatus h₂
  have hlinks : x.1.links = s₁.links.map fun l =>
      if l.id = l₀.id then sensedLink s₁.now (h.random 0) h.message h.inIf h.hyst l else l := by
    obtain ⟨s₂, e, e₁, honly, -, -, heq⟩ := updateNeighborStatus_cases h₂
    rw [heq]
    exact honly.links
  rcases addLinkEntry_cases h₁ with hfound | ⟨hnone, s₂, p, e, hnbr, -, rfl, rfl⟩
  · obtain ⟨hfind, hcases⟩ := lookupLinkEntry_cases hfound
    have hsame : s₁.links = s.links ∧ s₁.now = s.now := by
      rcases hcases with ⟨rfl, -⟩ | ⟨l, e, -, -, -, rfl⟩
      · exact ⟨rfl, rfl⟩
      · exact ⟨rfl, rfl⟩
    rw [hsame.1, hsame.2] at hlinks
    exact ⟨hstatus.now.trans hsame.2, .inl ⟨l₀, hfind.symm, hlinks⟩⟩
  · have hnow : s₂.now = s.now := by
      rcases neighborFor_cases s.allocated h.message.sourceAddr with ⟨q, a, -, heq⟩ | ⟨-, heq⟩
      · rw [heq] at hnbr
        obtain ⟨rfl, -⟩ := Prod.mk.inj hnbr
        rfl
      · rw [heq] at hnbr
        obtain ⟨rfl, -⟩ := Prod.mk.inj hnbr
        rfl
    refine ⟨hstatus.now.trans hnow, .inr ⟨hnone, p, hlinks.trans ?_⟩⟩
    -- the others have names of their own
    have hothers : ∀ l ∈ s.links, l.id ≠ s.fresh := fun l hl => (hids l hl).ne
    show (s.links ++ [_]).map _ = _
    rw [List.map_append, List.map_singleton, if_pos rfl]
    refine congrArg₂ (· ++ ·) ?_ (congrArg (fun now => [sensedLink now _ _ _ _ _]) hnow)
    exact (List.map_congr_left fun l hl => if_neg (hothers l hl)).trans (List.map_id _)

/-- After a HELLO message every link but one is a link from before, and that one is sensed. -/
theorem helloLink_spec {b : Bool} (hw : LinksWf b s) {h : HelloInput} {x : Nbh × Ptr}
    (hstep : Neighbor.helloLink env s h = some x) :
    x.1.now = s.now ∧ ∀ l' ∈ x.1.links, (∃ l ∈ s.links, Weaker l' l) ∨
      ∃ l, Target s h l ∧ l' = sensedLink s.now (h.random 0) h.message h.inIf h.hyst l := by
  obtain ⟨hnow, hlinks⟩ := helloLink_links (fun l hl => hw.ids _ (List.mem_map_of_mem hl)) hstep
  refine ⟨hnow, fun l' hl' => ?_⟩
  rcases hlinks with ⟨l₀, hfind, hlinks⟩ | ⟨-, p, hlinks⟩
  · rw [hlinks] at hl'
    obtain ⟨l, hl, rfl⟩ := List.mem_map.1 hl'
    split
    · next hid =>
      obtain rfl := id_inj hw hl (List.mem_of_find?_eq_some hfind) hid
      exact .inr ⟨l, target_of_findLink hfind, rfl⟩
    · exact .inl ⟨l, hl, .refl l⟩
  · rw [hlinks] at hl'
    rcases List.mem_append.1 hl' with hl' | hl'
    · exact .inl ⟨l', hl', .refl l'⟩
    · exact .inr ⟨_, target_new p, List.mem_singleton.1 hl'⟩

/-- The link of a HELLO message is there afterwards. -/
theorem exists_sensed {b : Bool} (hw : LinksWf b s) {h : HelloInput} {x : Nbh × Ptr}
    (hstep : Neighbor.helloLink env s h = some x) :
    ∃ l, Target s h l ∧ sensedLink s.now (h.random 0) h.message h.inIf h.hyst l ∈ x.1.links := by
  obtain ⟨-, hlinks⟩ := helloLink_links (fun l hl => hw.ids _ (List.mem_map_of_mem hl)) hstep
  rcases hlinks with ⟨l₀, hfind, hlinks⟩ | ⟨-, p, hlinks⟩
  · refine ⟨l₀, target_of_findLink hfind, ?_⟩
    rw [hlinks]
    exact List.mem_map.2 ⟨l₀, List.mem_of_find?_eq_some hfind, if_pos rfl⟩
  · refine ⟨_, target_new p, ?_⟩
    rw [hlinks]
    exact List.mem_append_right _ (List.mem_singleton.2 rfl)

/-- No two links are at the same place. -/
theorem nodup_helloLink {b : Bool} (hw : LinksWf b s) (hsites : (s.links.map site).Nodup) {h : HelloInput}
    {x : Nbh × Ptr} (hstep : Neighbor.helloLink env s h = some x) : (x.1.links.map site).Nodup := by
  obtain ⟨-, hlinks⟩ := helloLink_links (fun l hl => hw.ids _ (List.mem_map_of_mem hl)) hstep
  rcases hlinks with ⟨l₀, hfind, hlinks⟩ | ⟨hnone, p, hlinks⟩
  · have hsame : ∀ l ∈ s.links, (site ∘ fun l =>
        if l.id = l₀.id then sensedLink s.now (h.random 0) h.message h.inIf h.hyst l else l) l = site l := by
      intro l _
      dsimp only [Function.comp_apply]
      split
      · exact site_sensedLink _ _ _ _ _ l
      · rfl
    rw [hlinks, List.map_map, List.map_congr_left hsame]
    exact hsites
  · rw [hlinks, List.map_append, List.map_singleton, site_sensedLink, List.nodup_append]
    refine ⟨hsites, List.nodup_singleton _, fun a ha b hb hab => ?_⟩
    rw [List.mem_singleton] at hb
    subst hb
    obtain ⟨l, hl, hsite⟩ := List.mem_map.1 ha
    have hplace := hsite.trans hab
    unfold site newLinkEntry olsrSetLinkTimer at hplace
    rw [Prod.mk.injEq, Prod.mk.injEq] at hplace
    obtain ⟨hlocal, hremote, hname⟩ := hplace
    have hfound := List.find?_eq_none.1 hnone l hl
    rw [Bool.and_eq_true, beq_iff_eq, not_and] at hfound
    refine hfound hremote ?_
    unfold LinkEntry.onInterface
    rw [hname]
    cases hcase : h.inIf.intName with
    | none => exact beq_iff_eq.2 hlocal.symm
    | some name => exact beq_self_eq_true _

end Olsrd.Sensing
