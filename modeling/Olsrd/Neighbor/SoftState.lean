/-
Two hop links are soft state: each is to have a timer that takes it away when the validity of the last
HELLO message that listed it ends. The timer is only started when a link that is there is listed again.
-/
import Olsrd.Neighbor.CrossLinks

namespace Olsrd.Neighbor

variable {env : Env} {s s' : Nbh}

/-! ## Links that go -/

/-- Two hop links may go, and none comes or changes. -/
def Shrinks (s s' : Nbh) : Prop := ∀ n, ∀ x ∈ nbr2ListOf s' n, x ∈ nbr2ListOf s n

namespace Shrinks

theorem refl (s : Nbh) : Shrinks s s := fun _ _ hx => hx

theorem trans {s'' : Nbh} (h : Shrinks s s') (h' : Shrinks s' s'') : Shrinks s s'' :=
  fun n x hx => h n x (h' n x hx)

theorem of_eq (hnbr : s'.nbr = s.nbr) : Shrinks s s' := fun n x hx => by
  unfold nbr2ListOf at hx ⊢
  rwa [hnbr] at hx

theorem setNbr {p : Ptr} {e f : NeighborEntry} (he : s.nbr p = some e) (hl : ∀ x ∈ f.nbr2List, x ∈ e.nbr2List) :
    Shrinks s (s.setNbr p f) := by
  intro n x hx
  by_cases hn : n = p
  · subst hn
    rw [nbr2ListOf_eq he]
    exact hl x (by simpa [nbr2ListOf, Nbh.setNbr] using hx)
  · simpa [nbr2ListOf, Nbh.setNbr, hn] using hx

theorem freeNbr (s : Nbh) (p : Ptr) : Shrinks s (s.freeNbr p) := by
  intro n x hx
  by_cases hn : n = p
  · subst hn; simp [nbr2ListOf, Nbh.freeNbr] at hx
  · simpa [nbr2ListOf, Nbh.freeNbr, hn] using hx

theorem inserted (s : Nbh) (a : IpAddr) : Shrinks s (inserted s a) := by
  intro n x hx
  by_cases hn : n = s.fresh
  · subst hn; simp [nbr2ListOf, Neighbor.inserted, newNeighborEntry] at hx
  · simpa [nbr2ListOf, Neighbor.inserted, hn] using hx

theorem delNbr2List {x : Nbr2ListEntry} (h : olsrDelNbr2List s x = some s') : Shrinks s s' := by
  obtain ⟨t, -, h⟩ := Option.bind_eq_some_iff.1 h
  obtain ⟨e, he, h⟩ := Option.bind_eq_some_iff.1 h
  obtain rfl := Option.some.inj h
  have hfreed : Shrinks s (if t.pointer < 1 then s.freeNbr2 x.neighbor2 else s) := by
    split
    · exact of_eq rfl
    · exact .refl s
  refine hfreed.trans (Shrinks.trans (setNbr he fun y hy => ?_) (of_eq rfl))
  exact List.mem_of_mem_filter hy

theorem deleteNeighbor2Pointer {n t : Ptr} (h : olsrDeleteNeighbor2Pointer s n t = some s') : Shrinks s s' := by
  obtain ⟨e, -, h⟩ := Option.bind_eq_some_iff.1 h
  split at h
  · obtain rfl := Option.some.inj h; exact .refl s
  · exact delNbr2List h

theorem unlinkNbr2 {n : Ptr} {x : Nbr2ListEntry} (h : unlinkNbr2 n s x = some s') : Shrinks s s' := by
  obtain ⟨te, e, -, he, -, hnbr, -⟩ := unlinkNbr2_cases h
  refine Shrinks.trans (setNbr he fun y hy => ?_) (of_eq (s := s.setNbr x.nbr2Nbr
    { e with nbr2List := e.nbr2List.filter fun y => y.id != x.id }) hnbr)
  exact List.mem_of_mem_filter hy

theorem forEach {α : Type} {body : Nbh → α → Option Nbh} (hbody : ∀ s a s', body s a = some s' → Shrinks s s')
    {l : List α} (h : Run.forEach body l s = some s') : Shrinks s s' :=
  Run.forEach_relation Shrinks.refl (fun _ _ _ => Shrinks.trans) hbody h

theorem deleteTwoHopIfAny {o : Option Ptr} (h : deleteTwoHopIfAny s o = some s') : Shrinks s s' := by
  cases o with
  | none => obtain rfl := Option.some.inj h; exact .refl s
  | some p =>
    obtain ⟨t, -, h⟩ := Option.bind_eq_some_iff.1 h
    obtain ⟨s₁, h₁, h⟩ := Option.bind_eq_some_iff.1 h
    obtain ⟨t', -, h⟩ := Option.bind_eq_some_iff.1 h
    obtain rfl := Option.some.inj h
    exact (forEach (fun _ _ _ => deleteNeighbor2Pointer) h₁).trans (of_eq rfl)

theorem deleteNeighborTable {a : IpAddr} (h : olsrDeleteNeighborTable s a = some s') : Shrinks s s' := by
  unfold olsrDeleteNeighborTable at h
  split at h
  · obtain rfl := Option.some.inj h; exact .refl s
  · obtain ⟨e, he, h⟩ := Option.bind_eq_some_iff.1 h
    obtain ⟨s₁, h₁, h⟩ := Option.bind_eq_some_iff.1 h
    obtain rfl := Option.some.inj h
    exact (forEach (fun _ _ _ => unlinkNbr2) h₁).trans ((freeNbr s₁ _).trans (of_eq rfl))

theorem insertNeighborTable (s : Nbh) (a : IpAddr) : Shrinks s (olsrInsertNeighborTable s a).1 := by
  rcases insertNeighborTable_cases s a with ⟨p, -, heq⟩ | ⟨-, heq⟩
  · rw [heq]; exact .refl s
  · rw [heq]; exact inserted s a

theorem mergeAlias {m a : IpAddr} (h : mergeAlias m s a = some s') : Shrinks s s' := by
  obtain ⟨s₁, b, h₁, rfl⟩ := mergeAlias_cases h
  refine (deleteTwoHopIfAny h₁).trans ?_
  rcases mergeNeighbors_cases { s₁ with changesNeighborhood := b } (olsrLookupNeighborTableAlias s₁ a)
    (olsrLookupNeighborTableAlias s₁ m) with heq | ⟨tmp, real, -, -, heq⟩
  · rw [heq]; exact of_eq rfl
  · rw [heq]; exact (freeNbr s₁ tmp).trans (of_eq rfl)

theorem insertMidAlias {random : Nat} {m a : IpAddr} {vtime : Nat}
    (h : insertMidAlias env s random m a vtime = some s') : Shrinks s s' := by
  rcases insertMidAlias_cases h with rfl | ⟨s₁, s₂, h₁, h₂, rfl⟩
  · exact .refl _
  · have hreplaced : Shrinks s s₁ := by
      rcases replaceNeighbor_cases h₁ with ⟨-, rfl⟩ | ⟨old, s₀, mid, -, h₀, rfl⟩
      · exact .refl _
      · exact (deleteNeighborTable h₀).trans ((insertNeighborTable s₀ m).trans (of_eq rfl))
    have htuple : Shrinks s₁ s₂ := by
      rcases insertMidTuple_cases h₂ with rfl | ⟨-, h₂⟩
      · exact .refl _
      · have hloop := forEach (fun _ _ _ h => mergeAlias h) h₂
        exact fun n x hx => hloop n x hx
    exact hreplaced.trans (htuple.trans (of_eq rfl))

theorem updateNeighborStatus {p : Ptr} {lnk : LinkStatus} (h : updateNeighborStatus env s p lnk = some s') :
    Shrinks s s' := by
  have hsignal : ∀ t : Nbh, Shrinks t (signalLinkChanges env t.changed) := by
    intro t
    unfold signalLinkChanges
    split
    · exact of_eq rfl
    · exact of_eq rfl
  obtain ⟨e, he, h⟩ := Option.bind_eq_some_iff.1 h
  split at h
  · split at h
    · obtain rfl := Option.some.inj h; exact .refl s
    · obtain ⟨s₁, h₁, h⟩ := Option.bind_eq_some_iff.1 h
      obtain ⟨e₁, he₁, h⟩ := Option.bind_eq_some_iff.1 h
      obtain rfl := Option.some.inj h
      exact (deleteTwoHopIfAny h₁).trans ((hsignal s₁).trans (setNbr he₁ fun _ hx => hx))
  · obtain rfl := Option.some.inj h
    split
    · have he' : (signalLinkChanges env s.changed).nbr p = some e := by
        unfold signalLinkChanges
        split
        · exact he
        · exact he
      exact (hsignal s).trans (setNbr he' fun _ hx => hx)
    · exact setNbr he fun _ hx => hx

theorem lookupLinkEntry {remote a : IpAddr} {ifc : Interface} {o : Option LinkEntry}
    (h : lookupLinkEntry s remote a ifc = some (s', o)) : Shrinks s s' :=
  lookupLinkEntry_invariant (.refl s)
    (fun _ e hm => (setNbr (f := { e with mainAddr := a }) hm.2.1 fun _ hx => hx).trans (of_eq rfl)) h

theorem helloLink {hin : HelloInput} {x : Nbh × Ptr} (h : helloLink env s hin = some x) : Shrinks s x.1 := by
  obtain ⟨s₁, l, h₁, h₂, -⟩ := helloLink_cases h
  have hadded : Shrinks s s₁ := by
    rcases addLinkEntry_cases h₁ with hl | ⟨-, s₀, p, e, heq, he, -, rfl⟩
    · exact lookupLinkEntry hl
    · have hneighbor : Shrinks s.allocated s₀ := by
        rcases neighborFor_cases s.allocated hin.message.sourceAddr with ⟨q, b, -, heq'⟩ | ⟨-, heq'⟩
        · obtain ⟨rfl, rfl⟩ := Prod.mk.inj (heq'.symm.trans heq)
          exact .refl _
        · obtain ⟨rfl, rfl⟩ := Prod.mk.inj (heq'.symm.trans heq)
          exact inserted _ _
      have hcounted : Shrinks s₀ (s₀.setNbr p { e with linkcount := e.linkcount + 1 }) := setNbr he fun _ hx => hx
      exact fun n y hy => hneighbor n y (hcounted n y hy)
  exact hadded.trans fun n y hy => updateNeighborStatus h₂ n y hy

theorem deleteLinkEntry {l : LinkEntry} (h : olsrDeleteLinkEntry s l = some s') : Shrinks s s' := by
  obtain ⟨e, s₁, he, rfl, ⟨-, h₁⟩ | ⟨-, rfl⟩⟩ := deleteLinkEntry_cases h
  · exact (deleteNeighborTable h₁).trans (of_eq rfl)
  · exact (setNbr (f := { e with linkcount := e.linkcount - 1 }) he fun _ hx => hx).trans (of_eq rfl)

end Shrinks

/-- Only the neighbours that a HELLO message lists bring or change two hop links. -/
theorem shrinks_step {ev : Event} (hev : ∀ random n message, ev ≠ .processMessageNeighbors random n message)
    (h : step env s ev = some s') : Shrinks s s' := by
  cases ev with
  | tick now => obtain rfl := Option.some.inj h; exact .of_eq rfl
  | helloLink hin =>
    obtain ⟨x, hx, rfl⟩ := Option.map_eq_some_iff.1 h
    exact .helloLink hx
  | lookupLink remote a ifc =>
    obtain ⟨⟨s₁, o⟩, hx, rfl⟩ := Option.map_eq_some_iff.1 h
    exact .lookupLinkEntry hx
  | insertMidAlias random m a vtime => exact .insertMidAlias h
  | setLinkcost id cost => obtain rfl := Option.some.inj h; exact .of_eq rfl
  | setWillingness p w =>
    rcases setWillingness_cases h with rfl | ⟨e, he, rfl⟩
    · exact .refl _
    · exact (Shrinks.setNbr (f := { e with willingness := w }) he fun _ hx => hx).trans (.of_eq rfl)
  | processMessageNeighbors random n message => exact absurd rfl (hev random n message)
  | expireNbr2List x => exact .unlinkNbr2 h
  | expireLinkSym l =>
    rcases expireLinkSym_cases h with ⟨-, rfl⟩ | ⟨-, s₁, s₂, rfl, h₂, rfl⟩
    · exact .of_eq rfl
    · exact fun n y hy => Shrinks.updateNeighborStatus h₂ n y hy
  | expireLinkHello l hyst => exact fun n y hy => Shrinks.updateNeighborStatus h n y hy
  | deleteLink l => exact .deleteLinkEntry h
  | insertNeighbor a => obtain rfl := Option.some.inj h; exact .insertNeighborTable s a
  | deleteNeighbor a => exact .deleteNeighborTable h
  | deleteTwoHop p => exact .deleteTwoHopIfAny (o := some p) h
  | changeMid mid => obtain rfl := Option.some.inj h; exact .of_eq rfl

/-! ## Listed neighbours -/

/-- The addresses that a list has as those of symmetric neighbours. -/
def symAddrs (ns : List HelloNeighbor) : List IpAddr := (ns.filter HelloNeighbor.symNeigh).map HelloNeighbor.address

/-- A link that is there is listed with a validity time, and a new link is listed again. -/
def TimerRounds (env : Env) (random : Ptr → Nat) (n : Ptr) (vtime : Nat) : List HelloNeighbor → Nbh → Prop
  | [], _ => True
  | m :: ns, s =>
    (m.symNeigh = true → (∀ x, olsrLookupMyNeighbors s n m.address = some (some x) → vtime ≠ 0) ∧
      (olsrLookupMyNeighbors s n m.address = some none → linkAddr s m.address ∈ symAddrs ns)) ∧
    ∀ s', processNeighbor env random n vtime s m = some s' → TimerRounds env random n vtime ns s'

theorem symAddrs_cons_of_not {m : HelloNeighbor} {ns : List HelloNeighbor} (h : ¬ m.symNeigh = true) :
    symAddrs (m :: ns) = symAddrs ns := by
  unfold symAddrs; rw [List.filter_cons_of_neg h]

theorem mem_symAddrs_cons {m : HelloNeighbor} {ns : List HelloNeighbor} (h : m.symNeigh = true) {a : IpAddr} :
    a ∈ symAddrs (m :: ns) ↔ a = m.address ∨ a ∈ symAddrs ns := by
  unfold symAddrs; rw [List.filter_cons_of_pos h, List.map_cons, List.mem_cons]

theorem findNbr2List_some {a : IpAddr} {x : Nbr2ListEntry} : ∀ {l : List Nbr2ListEntry},
    findNbr2List s a l = some (some x) → x ∈ l ∧ addrOf s x.neighbor2 = some a
  | [], h => by cases h
  | y :: l, h => by
    obtain ⟨t, ht, h⟩ := Option.bind_eq_some_iff.1 h
    split at h
    · rename_i ha
      obtain rfl := Option.some.inj (Option.some.inj h)
      exact ⟨List.mem_cons_self, by unfold addrOf; rw [ht, Option.map_some, ha]⟩
    · obtain ⟨hx, hxa⟩ := findNbr2List_some h
      exact ⟨List.mem_cons_of_mem _ hx, hxa⟩

theorem findNbr2List_none {a : IpAddr} : ∀ {l : List Nbr2ListEntry},
    findNbr2List s a l = some none → ∀ x ∈ l, addrOf s x.neighbor2 ≠ some a
  | [], _ => by simp
  | y :: l, h => by
    obtain ⟨t, ht, h⟩ := Option.bind_eq_some_iff.1 h
    split at h
    · cases h
    · rename_i ha
      intro x hx hxa
      rcases List.mem_cons.1 hx with rfl | hx
      · unfold addrOf at hxa
        rw [ht, Option.map_some] at hxa
        exact ha (Option.some.inj hxa)
      · exact findNbr2List_none h x hx hxa

theorem lookupMyNeighbors_some {n : Ptr} {a : IpAddr} {x : Nbr2ListEntry}
    (h : olsrLookupMyNeighbors s n a = some (some x)) : x ∈ nbr2ListOf s n ∧ addrOf s x.neighbor2 = some a := by
  obtain ⟨e, he, h⟩ := Option.bind_eq_some_iff.1 h
  rw [nbr2ListOf_eq he]
  exact findNbr2List_some h

theorem lookupMyNeighbors_none {n : Ptr} {a : IpAddr} (h : olsrLookupMyNeighbors s n a = some none) :
    ∀ x ∈ nbr2ListOf s n, addrOf s x.neighbor2 ≠ some a := by
  obtain ⟨e, he, h⟩ := Option.bind_eq_some_iff.1 h
  rw [nbr2ListOf_eq he]
  exact findNbr2List_none h

/-- A neighbour lists one entry per address. -/
theorem TwoHopWf.link_unique (h : TwoHopWf s) {n : Ptr} {x y : Nbr2ListEntry} (hx : x ∈ nbr2ListOf s n)
    (hy : y ∈ nbr2ListOf s n) {a : IpAddr} (hxa : addrOf s x.neighbor2 = some a) (hya : addrOf s y.neighbor2 = some a) :
    x = y := by
  obtain ⟨te, hte, rfl⟩ := Option.map_eq_some_iff.1 hxa
  obtain ⟨ue, hue, haddr⟩ := Option.map_eq_some_iff.1 hya
  exact List.inj_on_of_nodup_map (h.hopsNodup n) hx hy (h.addrs _ _ te ue hte hue haddr.symm)

theorem TwoHopWf.exists_addr (h : TwoHopWf s) {n : Ptr} {x : Nbr2ListEntry} (hx : x ∈ nbr2ListOf s n) :
    ∃ a, addrOf s x.neighbor2 = some a := by
  obtain ⟨te, hte⟩ := exists_nbr2_of_mem ((h.mirror n x.neighbor2).1 (List.mem_map_of_mem hx))
  exact ⟨te.addr, by unfold addrOf; rw [hte]; rfl⟩

theorem SameHops.addrOf (h : SameHops s s') (t : Ptr) : addrOf s' t = addrOf s t := by
  have ht := congrArg (Option.map Prod.fst) (h.nbr2 t)
  rw [Option.map_map, Option.map_map] at ht
  exact ht

/-- A link of the sender of a HELLO message at a time when `rest` is still to come: its timer has been set, or is to be
set when its address comes, or the message does not list it. -/
def Serviced (s₀ : Nbh) (n : Ptr) (vtime : Nat) (all rest : List HelloNeighbor) (x : Nbr2ListEntry) (a : IpAddr) :
    Prop :=
  (∃ t, x.nbr2ListTimer = some t ∧ t.clock ≤ s₀.now + vtime ∧ a ∈ symAddrs all) ∨
    (x.nbr2ListTimer = none ∧ a ∈ symAddrs rest) ∨
    (x ∈ nbr2ListOf s₀ n ∧ (a ∈ symAddrs all → a ∈ symAddrs rest))

/-- The first loop of `process_message_neighbors` with `rest` still to come. -/
structure Refreshing (s₀ s : Nbh) (n : Ptr) (vtime : Nat) (all rest : List HelloNeighbor) : Prop where
  wf : TwoHopWf s
  now : s.now = s₀.now
  others : ∀ m, m ≠ n → nbr2ListOf s m = nbr2ListOf s₀ m
  listed : ∀ a ∈ symAddrs rest, a ∈ symAddrs all
  links : ∀ x ∈ nbr2ListOf s n, ∀ a, addrOf s x.neighbor2 = some a → Serviced s₀ n vtime all rest x a

/-- What is not the address that has come is serviced as before. -/
theorem Serviced.tail {s₀ : Nbh} {n : Ptr} {vtime : Nat} {all rest : List HelloNeighbor} {m : HelloNeighbor}
    {x : Nbr2ListEntry} {a : IpAddr} (hsym : m.symNeigh = true) (ha : a ≠ m.address)
    (h : Serviced s₀ n vtime all (m :: rest) x a) : Serviced s₀ n vtime all rest x a := by
  have hrest : a ∈ symAddrs (m :: rest) → a ∈ symAddrs rest := by
    rw [mem_symAddrs_cons hsym]
    rintro (heq | hmem)
    · exact absurd heq ha
    · exact hmem
  rcases h with h | ⟨hnone, hmem⟩ | ⟨hold, hmem⟩
  · exact .inl h
  · exact .inr (.inl ⟨hnone, hrest hmem⟩)
  · exact .inr (.inr ⟨hold, fun hall => hrest (hmem hall)⟩)

/-- The list of the sender after its link `x` has been refreshed. -/
theorem refreshNbr2_lists {random : Ptr → Nat} {n : Ptr} {x : Nbr2ListEntry} {vtime : Nat}
    (h : refreshNbr2 env s random n x vtime = some s') (m : Ptr) :
    nbr2ListOf s' m = if m = n then refreshTimer s.now (random x.id) vtime x.id (nbr2ListOf s n)
    else nbr2ListOf s m := by
  obtain ⟨e, he, h⟩ := Option.bind_eq_some_iff.1 h
  have hnbr : s'.nbr =
      (s.setNbr n { e with nbr2List := refreshTimer s.now (random x.id) vtime x.id e.nbr2List }).nbr := by
    dsimp only at h
    split at h
    · obtain ⟨te, -, h⟩ := Option.bind_eq_some_iff.1 h
      obtain rfl := Option.some.inj h
      rfl
    · obtain rfl := Option.some.inj h
      rfl
  by_cases hm : m = n
  · subst hm
    rw [if_pos rfl, nbr2ListOf_eq he]
    unfold nbr2ListOf
    rw [hnbr]
    simp [Nbh.setNbr]
  · rw [if_neg hm]
    unfold nbr2ListOf
    rw [hnbr]
    simp [Nbh.setNbr, hm]

namespace Refreshing

variable {s₀ : Nbh} {n : Ptr} {vtime : Nat} {all rest : List HelloNeighbor} {m : HelloNeighbor} {random : Ptr → Nat}

theorem skip (h : Refreshing s₀ s n vtime all (m :: rest)) (hsym : ¬ m.symNeigh = true) :
    Refreshing s₀ s n vtime all rest := by
  obtain ⟨hwf, hnow, hothers, hlisted, hlinks⟩ := h
  unfold Serviced at hlinks
  rw [symAddrs_cons_of_not hsym] at hlisted hlinks
  exact ⟨hwf, hnow, hothers, hlisted, hlinks⟩

/-- A link that is there gets its timer. -/
theorem refresh (h : Refreshing s₀ s n vtime all (m :: rest)) (hsym : m.symNeigh = true) {x : Nbr2ListEntry}
    (hfound : olsrLookupMyNeighbors s n m.address = some (some x)) (hv : vtime ≠ 0)
    (hs : refreshNbr2 env s random n x vtime = some s') : Refreshing s₀ s' n vtime all rest := by
  have hsame := sameHops_refresh hs
  have hlists := refreshNbr2_lists hs
  obtain ⟨hx, hxa⟩ := lookupMyNeighbors_some hfound
  have hall : m.address ∈ symAddrs all := h.listed _ ((mem_symAddrs_cons hsym).2 (.inl rfl))
  refine ⟨h.wf.same hsame, (twoHopOnly_refresh hs).now.trans h.now, fun p hp => ?_, fun a ha => ?_, fun y hy a ha => ?_⟩
  · rw [hlists, if_neg hp, h.others p hp]
  · exact h.listed a ((mem_symAddrs_cons hsym).2 (.inr ha))
  · rw [hlists, if_pos rfl] at hy
    obtain ⟨z, hz, rfl⟩ := List.mem_map.1 hy
    by_cases hid : z.id = x.id
    · obtain rfl := List.inj_on_of_nodup_map (h.wf.ids n) hz hx hid
      rw [if_pos rfl] at ha ⊢
      rw [hsame.addrOf] at ha
      obtain rfl := Option.some.inj (hxa.symm.trans ha)
      obtain ⟨t, ht⟩ := Option.ne_none_iff_exists'.1 (fun hnone => hv (olsrSetTimer_eq_none_iff.1 hnone) :
        olsrSetTimer s.now (random z.id) z.nbr2ListTimer vtime olsrNbr2ListJitter ≠ none)
      exact .inl ⟨t, ht, h.now ▸ clock_olsrSetTimer ht, hall⟩
    · rw [if_neg hid] at ha ⊢
      rw [hsame.addrOf] at ha
      refine (h.links z hz a ha).tail hsym ?_
      rintro rfl
      exact hid (congrArg Nbr2ListEntry.id (h.wf.link_unique hz hx ha hxa))

/-- A new link waits for its address to come again. -/
theorem link (h : Refreshing s₀ s n vtime all (m :: rest)) (hok : LinkOk n s m) (hsym : m.symNeigh = true)
    (hno : olsrLookupMyNeighbors s n m.address = some none) (hagain : linkAddr s m.address ∈ symAddrs rest)
    (hs : processNeighbor env random n vtime s m = some s') : Refreshing s₀ s' n vtime all rest := by
  obtain ⟨t, x, te, hlinks, hnew, hnone, haddr⟩ := links_processNeighbor h.wf hok hsym hno hs
  have hself : addrOf s' t = some te.addr := by unfold addrOf; rw [hlinks.nbr2, Function.update_self]; rfl
  refine ⟨h.wf.links hlinks hnew, (twoHopOnly_processNeighbor hs).now.trans h.now, fun p hp => ?_, fun a ha => ?_,
    fun y hy a ha => ?_⟩
  · rw [hlinks.lists, if_neg hp, h.others p hp]
  · exact h.listed a ((mem_symAddrs_cons hsym).2 (.inr ha))
  · rw [hlinks.lists, if_pos rfl] at hy
    rcases List.mem_cons.1 hy with rfl | hy
    · rw [hlinks.target, hself] at ha
      obtain rfl := Option.some.inj ha
      exact .inr (.inl ⟨hnone, haddr ▸ hagain⟩)
    · have hyt : y.neighbor2 ≠ t := by
        rintro rfl
        exact hnew ((h.wf.mirror n y.neighbor2).1 (List.mem_map_of_mem hy))
      have hya : addrOf s y.neighbor2 = some a := by
        unfold addrOf at ha ⊢
        rwa [hlinks.nbr2, Function.update_of_ne hyt] at ha
      refine (h.links y hy a hya).tail hsym ?_
      rintro rfl
      exact lookupMyNeighbors_none hno y hy hya

theorem loop {all : List HelloNeighbor} : ∀ {rest : List HelloNeighbor} {s s' : Nbh}, Refreshing s₀ s n vtime all rest →
    Run.Rounds (LinkOk n) (processNeighbor env random n vtime) rest s → TimerRounds env random n vtime rest s →
    Run.forEach (processNeighbor env random n vtime) rest s = some s' → Refreshing s₀ s' n vtime all []
  | [], s, s', h, _, _, hs => by
    obtain rfl := Option.some.inj hs
    exact h
  | m :: rest, s, s', h, hlink, htimer, hs => by
    obtain ⟨s₁, h₁, hs⟩ := Run.forEach_cons.1 hs
    refine loop ?_ (hlink.2 s₁ h₁) (htimer.2 s₁ h₁) hs
    rcases processNeighbor_cases h₁ with ⟨hsym, rfl⟩ | ⟨hsym, ⟨x, hfound, hrefresh⟩ | hno⟩
    · exact h.skip hsym
    · exact h.refresh hsym hfound ((htimer.1 hsym).1 x hfound) hrefresh
    · exact h.link hlink.1 hsym hno ((htimer.1 hsym).2 hno) h₁

end Refreshing

/-! ## Runs -/

/-- Both sides of the two hop links are kept in step, and the links of a HELLO message get their timers. -/
def TimersOk (env : Env) (s : Nbh) (ev : Event) : Prop :=
  CrossOk env s ev ∧ ∀ random n message, ev = .processMessageNeighbors random n message →
    TimerRounds env random n message.vtime (foreignNeighbors env s message.neighbors) s

/-- A neighbourhood with its history: when the validity of the last HELLO message ends that listed a two hop link, by
neighbour and name of the link. -/
structure Aged where
  nbh : Nbh
  deadline : Ptr → Ptr → Nat

/-- The two hop link is one to an address of the message. -/
def lists (env : Env) (s s' : Nbh) (message : HelloMessage) (x : Nbr2ListEntry) : Bool :=
  (symAddrs (foreignNeighbors env s message.neighbors)).any fun a => addrOf s' x.neighbor2 == some a

def nextDeadline (env : Env) (s s' : Nbh) (deadline : Ptr → Ptr → Nat) : Event → Ptr → Ptr → Nat
  | .processMessageNeighbors _ n message => fun m id =>
    if m = n ∧ (nbr2ListOf s' n).any (fun x => x.id == id && lists env s s' message x) = true
    then s.now + message.vtime else deadline m id
  | _ => deadline

def agedStep (env : Env) (a : Aged) (ev : Event) : Option Aged :=
  (step env a.nbh ev).map fun s' => ⟨s', nextDeadline env a.nbh s' a.deadline ev⟩

def AgedReachable (env : Env) : Aged → Prop :=
  Run.Reaches (fun a => a.nbh = emptyNbh) (fun a ev => ev.Enabled a.nbh ∧ TimersOk env a.nbh ev) (agedStep env)

/-- The history adds nothing to a run. -/
theorem exists_aged (h : Reachable env (TimersOk env) s) : ∃ deadline, AgedReachable env ⟨s, deadline⟩ := by
  refine Run.Reaches.invariant (P := fun s => ∃ deadline, AgedReachable env ⟨s, deadline⟩) ?_ ?_ h
  · rintro _ rfl
    exact ⟨fun _ _ => 0, .init rfl⟩
  · rintro s ev s' ⟨deadline, hs⟩ hok hstep
    exact ⟨nextDeadline env s s' deadline ev, .step ev hs hok (by unfold agedStep; rw [hstep]; rfl)⟩

theorem AgedReachable.reachable {a : Aged} (h : AgedReachable env a) : Reachable env (CrossOk env) a.nbh := by
  refine Run.Reaches.invariant (P := fun a => Reachable env (CrossOk env) a.nbh) ?_ ?_ h
  · intro a ha
    exact .init ha
  · intro a ev a' ha hok hstep
    obtain ⟨s', hs', rfl⟩ := Option.map_eq_some_iff.1 hstep
    exact .step ev ha ⟨hok.1, hok.2.1⟩ hs'

/-- Every link has a timer, and it goes off no later than the validity of what has listed the link ends. -/
def Timed (a : Aged) : Prop :=
  ∀ n, ∀ x ∈ nbr2ListOf a.nbh n, ∃ t, x.nbr2ListTimer = some t ∧ t.clock ≤ a.deadline n x.id

theorem timed_hello {a : Aged} (hwf : TwoHopWf a.nbh) (h : Timed a) {random : Ptr → Nat} {n : Ptr}
    {message : HelloMessage} (hlink : Run.Rounds (LinkOk n) (processNeighbor env random n message.vtime)
      (foreignNeighbors env a.nbh message.neighbors) a.nbh)
    (htimer : TimerRounds env random n message.vtime (foreignNeighbors env a.nbh message.neighbors) a.nbh)
    (hs : processMessageNeighbors env a.nbh random n message = some s') :
    Timed ⟨s', nextDeadline env a.nbh s' a.deadline (.processMessageNeighbors random n message)⟩ := by
  obtain ⟨s₁, h₁, hsame, hnbr, hnow⟩ := processMessageNeighbors_cases hs
  have hstart : Refreshing a.nbh a.nbh n message.vtime (foreignNeighbors env a.nbh message.neighbors)
      (foreignNeighbors env a.nbh message.neighbors) :=
    ⟨hwf, rfl, fun _ _ => rfl, fun _ ha => ha, fun x hx _ _ => .inr (.inr ⟨hx, fun ha => ha⟩)⟩
  have hdone := hstart.loop hlink htimer h₁
  have hlists : ∀ m, nbr2ListOf s' m = nbr2ListOf s₁ m := fun m => by unfold nbr2ListOf; rw [hnbr]
  intro m x hx
  change x ∈ nbr2ListOf s' m at hx
  have hx₁ := hx
  rw [hlists] at hx₁
  by_cases hm : m = n
  · subst hm
    obtain ⟨adr, hadr⟩ := hdone.wf.exists_addr hx₁
    have hadr' : addrOf s' x.neighbor2 = some adr := by rw [hsame.addrOf, hadr]
    have hwf' := hdone.wf.same hsame
    -- the link is listed if and only if its address is
    have hany : (nbr2ListOf s' m).any (fun y => y.id == x.id && lists env a.nbh s' message y) = true ↔
        adr ∈ symAddrs (foreignNeighbors env a.nbh message.neighbors) := by
      rw [List.any_eq_true]
      constructor
      · rintro ⟨y, hy, hyl⟩
        rw [Bool.and_eq_true, beq_iff_eq] at hyl
        obtain rfl := List.inj_on_of_nodup_map (hwf'.ids m) hy hx hyl.1
        obtain ⟨b, hb, hbeq⟩ := List.any_eq_true.1 hyl.2
        rw [hadr', beq_iff_eq] at hbeq
        rwa [Option.some.inj hbeq]
      · intro hmem
        exact ⟨x, hx, by rw [beq_self_eq_true, Bool.true_and]; exact List.any_eq_true.2 ⟨adr, hmem, by simp [hadr']⟩⟩
    unfold nextDeadline
    dsimp only
    rcases hdone.links x hx₁ adr hadr with ⟨t, ht, hclock, hmem⟩ | ⟨-, hmem⟩ | ⟨hold, hmem⟩
    · exact ⟨t, ht, by rw [if_pos ⟨rfl, hany.2 hmem⟩]; exact hclock⟩
    · cases hmem
    · obtain ⟨t, ht, hclock⟩ := h m x hold
      refine ⟨t, ht, ?_⟩
      rw [if_neg fun hlisted => List.not_mem_nil (hmem (hany.1 hlisted.2))]
      exact hclock
  · rw [hdone.others m hm] at hx₁
    obtain ⟨t, ht, hclock⟩ := h m x hx₁
    refine ⟨t, ht, ?_⟩
    unfold nextDeadline
    dsimp only
    rw [if_neg fun hlisted => hm hlisted.1]
    exact hclock

theorem timed_of_reachable {a : Aged} (h : AgedReachable env a) : Timed a := by
  have hboth : AgedReachable env a ∧ Timed a := by
    induction h with
    | init ha =>
      refine ⟨.init ha, fun n x hx => ?_⟩
      rw [ha] at hx
      cases hx
    | @step a a' ev hreach hok hstep ih =>
      refine ⟨.step ev hreach hok hstep, ?_⟩
      obtain ⟨s', hs', rfl⟩ := Option.map_eq_some_iff.1 hstep
      by_cases hev : ∃ random n message, ev = .processMessageNeighbors random n message
      · obtain ⟨random, n, message, rfl⟩ := hev
        exact timed_hello (reachable_twoHopWf (AgedReachable.reachable hreach)) ih.2 hok.2.1
          (hok.2.2 random n message rfl) hs'
      · have hshrinks := shrinks_step (fun random n message heq => hev ⟨random, n, message, heq⟩) hs'
        have hsame : nextDeadline env a.nbh s' a.deadline ev = a.deadline := by
          cases ev with
          | processMessageNeighbors random n message => exact absurd ⟨random, n, message, rfl⟩ hev
          | _ => rfl
        rw [hsame]
        exact fun n x hx => ih.2 n x (hshrinks n x hx)
  exact hboth.2

/-- The callback of the timer has a result. -/
theorem TwoHopWf.exists_expired (h : TwoHopWf s) {n : Ptr} {x : Nbr2ListEntry} (hx : x ∈ nbr2ListOf s n) :
    ∃ s', olsrExpireNbr2List s x = some s' := by
  obtain ⟨te, hte⟩ := exists_nbr2_of_mem ((h.mirror n x.neighbor2).1 (List.mem_map_of_mem hx))
  obtain ⟨e, he⟩ := exists_nbr_of_mem hx
  rw [← h.owner n x hx] at he
  unfold olsrExpireNbr2List unlinkNbr2 decreasePointer olsrDeleteNeighborPointer olsrDelNbr2List
  by_cases hlt : te.pointer - 1 < 1
  · simp [hte, he, hlt, Nbh.setNbr2, Nbh.freeNbr2]
  · simp [hte, he, hlt, Nbh.setNbr2]

/-- The timer of a link takes exactly this link away. -/
theorem TwoHopWf.expired (h : TwoHopWf s) {n : Ptr} {x : Nbr2ListEntry} (hx : x ∈ nbr2ListOf s n)
    (hs : olsrExpireNbr2List s x = some s') (m : Ptr) :
    nbr2ListOf s' m = if m = n then (nbr2ListOf s n).filter fun y => y.id != x.id else nbr2ListOf s m := by
  unfold olsrExpireNbr2List at hs
  rw [h.owner n x hx] at hs
  rw [(unlinks_unlinkNbr2 h hx hs).lists]
  by_cases hm : m = n
  · subst hm
    rw [if_pos rfl, map_filter_id (h.ids m) (h.hopsNodup m) hx]
    refine List.filter_congr fun y _ => ?_
    simp [bne]
  · rw [if_neg hm, List.filter_eq_self]
    intro y _
    simp [hm]

/-- All timers that are due have gone off. -/
def NoneOverdue (s : Nbh) : Prop := ∀ n, ∀ x ∈ nbr2ListOf s n, ∀ t, x.nbr2ListTimer = some t → s.now ≤ t.clock

/-- If a HELLO message lists every link that it brings once more and every link with a validity time, then each two hop
link has a timer that takes this link away and no other, no later than the validity of the last HELLO message that has
listed it ends. -/
theorem reachable_softState {a : Aged} (h : AgedReachable env a) : ∀ n, ∀ x ∈ nbr2ListOf a.nbh n,
    (∃ t, x.nbr2ListTimer = some t ∧ t.clock ≤ a.deadline n x.id) ∧
      (∃ s', olsrExpireNbr2List a.nbh x = some s' ∧ ∀ m, nbr2ListOf s' m =
        if m = n then (nbr2ListOf a.nbh n).filter (fun y => y.id != x.id) else nbr2ListOf a.nbh m) ∧
      (∀ y ∈ nbr2ListOf a.nbh n, y.id = x.id → y = x) ∧ (NoneOverdue a.nbh → a.nbh.now ≤ a.deadline n x.id) := by
  intro n x hx
  have hwf := reachable_twoHopWf h.reachable
  obtain ⟨t, ht, hclock⟩ := timed_of_reachable h n x hx
  obtain ⟨s', hs'⟩ := hwf.exists_expired hx
  exact ⟨⟨t, ht, hclock⟩, ⟨s', hs', hwf.expired hx hs'⟩, fun y hy hid => List.inj_on_of_nodup_map (hwf.ids n) hy hx hid,
    fun hdue => (hdue n x hx t ht).trans hclock⟩

/-- A HELLO message that lists 10.0.0.5 twice. -/
def listsTwice : HelloMessage := (helloFrom [10, 0, 0, 2] [10, 0, 0, 2] [symNeighbor5, symNeighbor5]).message

theorem foreignNeighbors_listsTwice :
    foreignNeighbors oneInterface firstLink listsTwice.neighbors = [symNeighbor5, symNeighbor5] := by
  have hmain : midMainAddr firstLink.mid symNeighbor5.address = symNeighbor5.address := by decide +kernel
  have hforeign : isForeign oneInterface symNeighbor5.address = true := by decide +kernel
  show (([symNeighbor5, symNeighbor5].filter fun n => isForeign oneInterface n.address).map fun n =>
    { n with address := midMainAddr firstLink.mid n.address }) = _
  rw [List.filter_eq_self.2 (by simp [hforeign]), List.map_cons, List.map_singleton, hmain]

theorem timersOk_listsTwice : TimersOk oneInterface firstLink (.processMessageNeighbors (fun _ => 0) 1 listsTwice) := by
  have hnew : olsrLookupTwoHopNeighborTable firstLink symNeighbor5.address = none := by decide +kernel
  have hsecond : ((processNeighbor oneInterface (fun _ => 0) 1 6000 firstLink symNeighbor5).all fun s =>
      (olsrLookupMyNeighbors s 1 symNeighbor5.address).all Option.isSome) = true := by decide +kernel
  have hlinked : ∀ s, processNeighbor oneInterface (fun _ => 0) 1 6000 firstLink symNeighbor5 = some s →
      olsrLookupMyNeighbors s 1 symNeighbor5.address ≠ some none := by
    intro s hs hnone
    rw [hs, Option.all_some, hnone] at hsecond
    cases hsecond
  refine ⟨?_, ?_⟩
  · show Run.Rounds _ _ (foreignNeighbors oneInterface firstLink listsTwice.neighbors) firstLink
    rw [foreignNeighbors_listsTwice]
    refine ⟨fun _ _ t te ht _ => ?_, fun s hs => ⟨fun _ hnone => absurd hnone (hlinked s hs), fun _ _ => trivial⟩⟩
    cases hnew.symm.trans ht
  · rintro random n message heq
    obtain ⟨rfl, rfl, rfl⟩ := heq
    rw [foreignNeighbors_listsTwice]
    refine ⟨fun _ => ⟨fun _ _ => by decide, fun _ => ?_⟩, fun s hs => ⟨fun _ => ⟨fun _ _ => by decide, fun hnone => ?_⟩,
      fun _ _ => trivial⟩⟩
    · unfold linkAddr
      rw [hnew]
      exact List.mem_singleton.2 rfl
    · exact absurd hnone (hlinked s hs)

/-- The link to a neighbour that is listed twice is there until the validity time is over. -/
theorem reachable_softState_listsTwice : ∃ a : Aged, AgedReachable oneInterface a ∧ ∃ x ∈ nbr2ListOf a.nbh 1,
    ∃ t, x.nbr2ListTimer = some t ∧ t.clock ≤ a.deadline 1 x.id := by
  have hrun : ((step oneInterface firstLink (.processMessageNeighbors (fun _ => 0) 1 listsTwice)).any fun s =>
      !(nbr2ListOf s 1).isEmpty) = true := by decide +kernel
  obtain ⟨s, hs, hlist⟩ := (Option.any_eq_true _ _).1 hrun
  have hlink : ∃ l ∈ firstLink.links, l.neighbor = 1 := by decide +kernel
  have hfirst : Reachable oneInterface (TimersOk oneInterface) firstLink :=
    .step (.helloLink (helloFrom [10, 0, 0, 2] [10, 0, 0, 2] [])) (.init rfl)
      ⟨trivial, trivial, fun _ _ _ heq => by cases heq⟩ step_firstLink
  obtain ⟨deadline, haged⟩ := exists_aged (.step (.processMessageNeighbors (fun _ => 0) 1 listsTwice) hfirst
    ⟨hlink, timersOk_listsTwice⟩ hs)
  obtain ⟨x, l, hx⟩ := List.exists_cons_of_ne_nil (by simpa using hlist : nbr2ListOf s 1 ≠ [])
  have hmem : x ∈ nbr2ListOf s 1 := by rw [hx]; exact List.mem_cons_self
  exact ⟨_, haged, x, hmem, (reachable_softState haged 1 x hmem).1⟩

/-- A HELLO message that lists a neighbour once makes a two hop link without a timer. -/
theorem listedOnce_not_timed : ∃ s, Reachable oneInterface (fun _ _ => True) s ∧
    ∃ n, ∃ x ∈ nbr2ListOf s n, x.nbr2ListTimer = none := by
  have hrun : ((Run.forEach (olsrHelloTap oneInterface) [helloFrom [10, 0, 0, 2] [10, 0, 0, 2] [symNeighbor5]]
      emptyNbh).any fun s => (nbr2ListOf s 1).any fun x => x.nbr2ListTimer.isNone) = true := by decide +kernel
  obtain ⟨s, hs, hany⟩ := (Option.any_eq_true _ _).1 hrun
  obtain ⟨x, hx, hnone⟩ := List.any_eq_true.1 hany
  exact ⟨s, reachable_hellos hs, 1, x, hx, Option.isNone_iff_eq_none.1 hnone⟩

end Olsrd.Neighbor
