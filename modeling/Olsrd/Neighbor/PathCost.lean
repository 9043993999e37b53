/-
The costs of the paths to two hop neighbours. A HELLO message is gone through twice: the first loop links what the
message lists and breaks the paths over the sender, the second one lowers their costs to the lowest that is listed.
-/
import Olsrd.Lib.FirstBest
import Olsrd.Neighbor.BestLink
import Olsrd.Neighbor.TwoHopLookup

namespace Olsrd.Neighbor

variable {env : Env} {s s' s₀ s₁ : Nbh} {n t : Ptr} {a b : IpAddr} {f : UInt32} {all done : List HelloNeighbor}

/-! ## The tables -/

/-- No two entries have one address, and the lists of the neighbours and of the two hop neighbours name each other. -/
structure PathWf (s : Nbh) : Prop extends TwoHopTable s where
  addrs : ∀ t u a, addrOf s t = some a → addrOf s u = some a → t = u
  mirror : ∀ n t, t ∈ hops s n ↔ n ∈ backs s t

theorem TwoHopWf.pathWf (h : TwoHopWf s) : PathWf s where
  toTwoHopTable := h.twoHopTable
  addrs t u a ht hu := by
    obtain ⟨te, hte, rfl⟩ := Option.map_eq_some_iff.1 ht
    obtain ⟨ue, hue, haddr⟩ := Option.map_eq_some_iff.1 hu
    exact h.addrs t u te ue hte hue haddr.symm
  mirror := h.mirror

theorem PathWf.same (h : PathWf s) (h' : SameHops s s') : PathWf s' where
  toTwoHopTable := h.toTwoHopTable.congr h'.addrOf h'.nbr2Table h'.fresh
  addrs t u a ht hu := by
    rw [h'.addrOf] at ht hu
    exact h.addrs t u a ht hu
  mirror n t := by
    rw [h'.hops, h'.backs]
    exact h.mirror n t

theorem nblistOf_of_addrOf (h : addrOf s t = none) : nblistOf s t = [] := by
  unfold nblistOf
  rw [Option.map_eq_none_iff.1 h]
  rfl

theorem mem_backs {n t : Ptr} : n ∈ backs s t ↔ ∃ y ∈ nblistOf s t, y.neighbor = n := List.mem_map

/-- What a neighbour lists is there. -/
theorem PathWf.exists_nbr2 (h : PathWf s) {x : Nbr2ListEntry} (hx : x ∈ nbr2ListOf s n) :
    ∃ te, s.nbr2 x.neighbor2 = some te :=
  exists_nbr2_of_mem ((h.mirror n x.neighbor2).1 (List.mem_map_of_mem hx))

theorem exists_findNbr2List : ∀ {l : List Nbr2ListEntry}, (∀ x ∈ l, ∃ te, s.nbr2 x.neighbor2 = some te) →
    ∃ o, findNbr2List s a l = some o
  | [], _ => ⟨none, rfl⟩
  | x :: l, h => by
    obtain ⟨te, hte⟩ := h x (List.mem_cons_self ..)
    unfold findNbr2List
    rw [hte, Option.bind_eq_bind, Option.bind_some]
    split
    · exact ⟨some x, rfl⟩
    · exact exists_findNbr2List fun y hy => h y (List.mem_cons_of_mem x hy)

theorem PathWf.exists_lookup (h : PathWf s) (hn : (s.nbr n).isSome) (a : IpAddr) :
    ∃ o, olsrLookupMyNeighbors s n a = some o := by
  obtain ⟨e, he⟩ := Option.isSome_iff_exists.1 hn
  unfold olsrLookupMyNeighbors
  rw [he, Option.bind_eq_bind, Option.bind_some]
  refine exists_findNbr2List fun x hx => h.exists_nbr2 (n := n) ?_
  rwa [nbr2ListOf_eq he]

/-- A neighbour that finds no link to an address is not listed under it. -/
theorem PathWf.not_mem_backs (h : PathWf s) (hno : olsrLookupMyNeighbors s n a = some none)
    (ht : addrOf s t = some a) : n ∉ backs s t := by
  rw [← h.mirror]
  intro hmem
  obtain ⟨x, hx, rfl⟩ := List.mem_map.1 hmem
  exact lookupMyNeighbors_none hno x hx ht

/-! ## The lists of the two hop neighbours -/

/-- A new entry in the list of a two hop neighbour. -/
def newNbListEntry (n : Ptr) : NbListEntry := ⟨n, linkCostBroken, linkCostBroken, linkCostBroken⟩

theorem linkingThis2Entries_lists {vtime : Nat} (h : linkingThis2Entries s n t vtime = some s') :
    (∀ u, nblistOf s' u = if u = t then newNbListEntry n :: nblistOf s t else nblistOf s u) ∧
      ∀ m, hops s' m = if m = n then t :: hops s n else hops s m := by
  obtain ⟨te, hte, h⟩ := Option.bind_eq_some_iff.1 h
  obtain ⟨e, he, h⟩ := Option.bind_eq_some_iff.1 h
  obtain rfl := Option.some.inj h
  have he' : s.nbr n = some e := he
  constructor
  · intro u
    unfold nblistOf Nbh.allocated Nbh.setNbr Nbh.setNbr2 Neighbor2Entry.link
    by_cases hu : u = t
    · subst hu
      simp [hte, newNbListEntry]
    · simp [hu]
  · intro m
    unfold hops nbr2ListOf Nbh.allocated Nbh.setNbr Nbh.setNbr2
    by_cases hm : m = n
    · subst hm
      simp [he']
    · simp [hm]

theorem exists_linkingThis2Entries (vtime : Nat) (hn : (s.nbr n).isSome) (ht : addrOf s t = some a) :
    ∃ s', linkingThis2Entries s n t vtime = some s' := by
  obtain ⟨te, hte, -⟩ := Option.map_eq_some_iff.1 ht
  obtain ⟨e, he⟩ := Option.isSome_iff_exists.1 hn
  unfold linkingThis2Entries
  simp [hte, Nbh.setNbr2, he]

theorem PathWf.linking (h : PathWf s) {vtime : Nat} (hs : linkingThis2Entries s n t vtime = some s') : PathWf s' := by
  obtain ⟨haddr, htable, hfresh⟩ := linkingThis2Entries_addrs hs
  obtain ⟨hlists, hhops⟩ := linkingThis2Entries_lists hs
  refine ⟨h.toTwoHopTable.congr haddr htable hfresh, fun t u a ht hu => ?_, fun m u => ?_⟩
  · rw [haddr] at ht hu
    exact h.addrs t u a ht hu
  · have hm := h.mirror m u
    unfold backs at hm ⊢
    rw [hlists, hhops]
    by_cases hmn : m = n
    · subst hmn
      by_cases hut : u = t
      · subst hut
        simp [newNbListEntry]
      · simpa [hut] using hm
    · by_cases hut : u = t
      · subst hut
        simpa [hmn, newNbListEntry] using hm
      · simpa [hmn, hut] using hm

theorem TwoHopTable.nblistOf_insertTwoHop (h : TwoHopTable s) (a : IpAddr) (t : Ptr) :
    nblistOf (Neighbor.insertTwoHop s a).1 t = nblistOf s t := by
  by_cases ht : t = s.fresh
  · subst ht
    rw [nblistOf_of_addrOf (h.fresh _ (le_refl _))]
    simp [nblistOf, Neighbor.insertTwoHop]
  · simp [nblistOf, Neighbor.insertTwoHop, ht]

theorem PathWf.insertTwoHop (h : PathWf s) (hno : olsrLookupTwoHopNeighborTable s a = none) :
    PathWf (Neighbor.insertTwoHop s a).1 := by
  have hnew : ∀ t, addrOf s t ≠ some a := fun t ht => h.toTwoHopTable.lookup_none hno ht rfl ⟨a, ht, .inl rfl⟩
  refine ⟨h.toTwoHopTable.insertTwoHop a, fun t u b ht hu => ?_, fun m t => ?_⟩
  · rw [addrOf_insertTwoHop] at ht hu
    split at ht
    · obtain rfl := Option.some.inj ht
      split at hu
      · exact ‹t = _›.trans ‹u = _›.symm
      · exact absurd hu (hnew u)
    · split at hu
      · obtain rfl := Option.some.inj hu
        exact absurd ht (hnew t)
      · exact h.addrs t u b ht hu
  · unfold backs
    rw [h.toTwoHopTable.nblistOf_insertTwoHop]
    exact h.mirror m t

theorem updateNblist_lists {g : NbListEntry → NbListEntry} (h : updateNblist s n t g = some s') (u : Ptr) :
    nblistOf s' u = if u = t then (nblistOf s t).map fun y => if y.neighbor = n then g y else y
      else nblistOf s u := by
  obtain ⟨te, hte, h⟩ := Option.bind_eq_some_iff.1 h
  obtain rfl := Option.some.inj h
  unfold nblistOf Nbh.setNbr2
  by_cases hu : u = t
  · subst hu
    simp [hte]
  · simp [hu]

theorem exists_updateNblist {g : NbListEntry → NbListEntry} (ht : addrOf s t = some a) :
    ∃ s', updateNblist s n t g = some s' := by
  obtain ⟨te, hte, -⟩ := Option.map_eq_some_iff.1 ht
  unfold updateNblist
  simp [hte]

/-- The entries of the other neighbours. -/
def otherEntries (n : Ptr) (l : List NbListEntry) : List NbListEntry := l.filter fun y => y.neighbor != n

theorem otherEntries_map {g : NbListEntry → NbListEntry} (hg : ∀ y, y.neighbor = n → (g y).neighbor = n)
    (hid : ∀ y, y.neighbor ≠ n → g y = y) : ∀ l : List NbListEntry, otherEntries n (l.map g) = otherEntries n l
  | [] => rfl
  | y :: l => by
    have ih := otherEntries_map hg hid l
    unfold otherEntries at ih ⊢
    rw [List.map_cons]
    by_cases hy : y.neighbor = n
    · rw [List.filter_cons_of_neg (by simp [hg y hy]), List.filter_cons_of_neg (by simp [hy])]
      exact ih
    · rw [hid y hy, List.filter_cons_of_pos (by simpa using hy), List.filter_cons_of_pos (by simpa using hy), ih]

/-! ## The first loop -/

/-- A lookup of `b` may find an entry of `a`. -/
def Aliased (s : Nbh) (a b : IpAddr) : Prop :=
  a ≠ b ∧ b ∈ midLookupAliases s.mid a ∧ olsrIpHashing a = olsrIpHashing b

/-- Break the path over the sender. -/
def resetPath (n : Ptr) (y : NbListEntry) : NbListEntry :=
  if y.neighbor = n then { y with pathLinkcost := linkCostBroken } else y

/-- The list of a two hop neighbour after the sender has listed it. -/
def relinked (s : Nbh) (n t : Ptr) : List NbListEntry :=
  if n ∈ backs s t then (nblistOf s t).map (resetPath n) else newNbListEntry n :: nblistOf s t

theorem resetPath_neighbor (y : NbListEntry) : (resetPath n y).neighbor = y.neighbor := by
  unfold resetPath
  split
  · rfl
  · rfl

theorem resetPath_of_ne {y : NbListEntry} (hy : y.neighbor ≠ n) : resetPath n y = y := if_neg hy

theorem resetPath_resetPath (y : NbListEntry) : resetPath n (resetPath n y) = resetPath n y := by
  by_cases hy : y.neighbor = n
  · simp [resetPath, hy]
  · rw [resetPath_of_ne hy, resetPath_of_ne hy]

/-- What a neighbour that the sender lists does to the lists of the two hop neighbours. -/
structure Relinks (s s' : Nbh) (n : Ptr) (m : HelloNeighbor) : Prop where
  wf : PathWf s'
  grows : Grows s s'
  others : ∀ t, otherEntries n (nblistOf s' t) = otherEntries n (nblistOf s t)
  elsewhere : ∀ t a, (m.symNeigh = true → a ≠ m.address ∧ ¬Aliased s a m.address) → addrOf s' t = some a →
    addrOf s t = some a ∧ nblistOf s' t = nblistOf s t
  here : m.symNeigh = true → (∀ a, ¬Aliased s a m.address) →
    ∃ t, addrOf s' t = some m.address ∧ nblistOf s' t = relinked s n t

theorem otherEntries_relinked (s : Nbh) (n t : Ptr) : otherEntries n (relinked s n t) =
    otherEntries n (nblistOf s t) := by
  unfold relinked
  split
  · exact otherEntries_map (fun y hy => (resetPath_neighbor y).trans hy) (fun y => resetPath_of_ne) _
  · exact List.filter_cons_of_neg (by simp [newNbListEntry])

/-- The list of the one entry `t` changes, which is that of the listed address, or is found by it. -/
theorem Relinks.of_lists {m : HelloNeighbor} (hwf : PathWf s') (hgrows : Grows s s')
    (hother : otherEntries n (nblistOf s' t) = otherEntries n (nblistOf s t))
    (hlists : ∀ u, u ≠ t → nblistOf s' u = nblistOf s u) (haddrs : ∀ u, u ≠ t → addrOf s' u = addrOf s u)
    (ht : (addrOf s' t = some m.address ∧ nblistOf s' t = relinked s n t) ∨
      ∃ a, addrOf s' t = some a ∧ Aliased s a m.address) (hsym : m.symNeigh = true) : Relinks s s' n m where
  wf := hwf
  grows := hgrows
  others u := by
    by_cases hu : u = t
    · exact hu ▸ hother
    · rw [hlists u hu]
  elsewhere u a ha hu := by
    obtain ⟨hne, hapart⟩ := ha hsym
    have hut : u ≠ t := by
      rintro rfl
      rcases ht with ⟨ht, -⟩ | ⟨k, hk, haliased⟩
      · exact hne (Option.some.inj (hu.symm.trans ht))
      · obtain rfl := Option.some.inj (hu.symm.trans hk)
        exact hapart haliased
    rw [haddrs u hut] at hu
    exact ⟨hu, hlists u hut⟩
  here _ hapart := by
    rcases ht with ht | ⟨k, -, haliased⟩
    · exact ⟨t, ht⟩
    · exact absurd haliased (hapart k)

theorem PathWf.refreshed (h : PathWf s) (hlq : 0 < env.cnf.lqLevel) {random : Ptr → Nat} {vtime : Nat}
    {m : HelloNeighbor}
    {x : Nbr2ListEntry} (hsym : m.symNeigh = true) (hx : olsrLookupMyNeighbors s n m.address = some (some x)) :
    ∃ s', refreshNbr2 env s random n x vtime = some s' ∧ Relinks s s' n m := by
  obtain ⟨hmem, haddr⟩ := lookupMyNeighbors_some hx
  obtain ⟨e, he⟩ := exists_nbr_of_mem hmem
  obtain ⟨r, hr⟩ : ∃ r, r = s.setNbr n { e with nbr2List := refreshTimer s.now (random x.id) vtime x.id e.nbr2List } :=
    ⟨_, rfl⟩
  have hraddr : addrOf r x.neighbor2 = some m.address := by
    subst hr
    exact haddr
  obtain ⟨s', hs'⟩ := exists_updateNblist (n := n) (g := fun y => { y with pathLinkcost := linkCostBroken }) hraddr
  have hrefresh : refreshNbr2 env s random n x vtime = some s' := by
    unfold refreshNbr2
    rw [he, Option.bind_eq_bind, Option.bind_some, if_pos hlq, ← hr]
    exact hs'
  have hsame := sameHops_refresh hrefresh
  have hback : n ∈ backs s x.neighbor2 := (h.mirror n x.neighbor2).1 (List.mem_map_of_mem hmem)
  have hlist : nblistOf s' x.neighbor2 = relinked s n x.neighbor2 := by
    rw [updateNblist_lists hs', if_pos rfl, relinked, if_pos hback]
    subst hr
    rfl
  refine ⟨s', hrefresh, Relinks.of_lists (t := x.neighbor2) (h.same hsame)
    (.of_eq (twoHopOnly_refresh hrefresh).mid hsame.addrOf) ?_ (fun u hu => ?_) (fun u _ => hsame.addrOf u)
    (.inl ⟨(hsame.addrOf _).trans haddr, hlist⟩) hsym⟩
  · rw [hlist, otherEntries_relinked]
  · rw [updateNblist_lists hs', if_neg hu]
    subst hr
    rfl

/-- A new link, after a new entry or none has been made. -/
theorem Relinks.of_linking {r : Nbh} {vtime : Nat} {m : HelloNeighbor} (hr : PathWf r) (hn : (r.nbr n).isSome)
    (hgrows : Grows s r) (hlists : ∀ u, nblistOf r u = nblistOf s u) (haddrs : ∀ u, u ≠ t → addrOf r u = addrOf s u)
    (ht : (addrOf r t = some m.address ∧ n ∉ backs s t) ∨ ∃ a, addrOf r t = some a ∧ Aliased s a m.address)
    (hsym : m.symNeigh = true) : ∃ s', linkingThis2Entries r n t vtime = some s' ∧ Relinks s s' n m := by
  obtain ⟨k, hk⟩ : ∃ k, addrOf r t = some k := by
    rcases ht with ⟨ht, -⟩ | ⟨k, hk, -⟩
    · exact ⟨_, ht⟩
    · exact ⟨k, hk⟩
  obtain ⟨s', hs'⟩ := exists_linkingThis2Entries vtime hn hk
  have hmid := (twoHopOnly_linking hs').mid
  obtain ⟨haddr, -, -⟩ := linkingThis2Entries_addrs hs'
  obtain ⟨hlinked, -⟩ := linkingThis2Entries_lists hs'
  refine ⟨s', hs', Relinks.of_lists (t := t) (hr.linking hs') (hgrows.trans (.of_eq hmid haddr)) ?_ (fun u hu => ?_)
    (fun u hu => (haddr u).trans (haddrs u hu)) ?_ hsym⟩
  · rw [hlinked, if_pos rfl, hlists]
    exact List.filter_cons_of_neg (by simp [newNbListEntry])
  · rw [hlinked, if_neg hu, hlists]
  · rw [haddr]
    refine ht.imp_left fun ⟨ht, hnot⟩ => ⟨ht, ?_⟩
    rw [hlinked, if_pos rfl, hlists, relinked, if_neg hnot]

/-- One round of the first loop. -/
theorem PathWf.processNeighbor (h : PathWf s) (hlq : 0 < env.cnf.lqLevel) (hn : (s.nbr n).isSome) (random : Ptr → Nat)
    (vtime : Nat) (m : HelloNeighbor) :
    ∃ s', processNeighbor env random n vtime s m = some s' ∧ Relinks s s' n m := by
  unfold Neighbor.processNeighbor
  by_cases hsym : m.symNeigh = true
  · rw [if_pos hsym]
    obtain ⟨o, ho⟩ := h.exists_lookup hn m.address
    rw [ho, Option.bind_eq_bind, Option.bind_some]
    cases o with
    | some x => exact h.refreshed hlq hsym ho
    | none =>
      cases hl : olsrLookupTwoHopNeighborTable s m.address with
      | some t =>
        obtain ⟨⟨k, hk, hknown⟩, k', hk', hhash⟩ := h.toTwoHopTable.lookup_some hl
        obtain rfl := Option.some.inj (hk.symm.trans hk')
        refine Relinks.of_linking (h.same (.of_eq rfl rfl rfl (le_refl _))) hn (.of_eq rfl fun _ => rfl) (fun _ => rfl)
          (fun _ _ => rfl) ?_ hsym
        by_cases heq : k = m.address
        · subst heq
          exact .inl ⟨hk, h.not_mem_backs ho hk⟩
        · exact .inr ⟨k, hk, heq, hknown.resolve_left heq, hhash⟩
      | none =>
        have hnot : n ∉ backs s s.fresh := by
          unfold backs
          rw [nblistOf_of_addrOf (h.fresh _ (le_refl _))]
          exact List.not_mem_nil
        refine Relinks.of_linking ((h.insertTwoHop hl).same (.of_eq rfl rfl rfl (le_refl _))) hn
          ((grows_insertTwoHop h.toTwoHopTable hl).trans (.of_eq rfl fun _ => rfl))
          (h.toTwoHopTable.nblistOf_insertTwoHop m.address) (fun u hu => ?_) (.inl ⟨?_, hnot⟩) hsym
        · exact (addrOf_insertTwoHop s m.address u).trans (if_neg hu)
        · exact (addrOf_insertTwoHop s m.address s.fresh).trans (if_pos rfl)
  · rw [if_neg hsym]
    exact ⟨s, rfl, h, .of_eq rfl fun _ => rfl, fun _ => rfl, fun t a _ ht => ⟨ht, rfl⟩, fun hs => absurd hs hsym⟩

theorem mem_symAddrs_concat {m : HelloNeighbor} :
    a ∈ symAddrs (done ++ [m]) ↔ a ∈ symAddrs done ∨ (m.symNeigh = true ∧ a = m.address) := by
  unfold symAddrs
  rw [List.filter_append, List.map_append, List.mem_append]
  by_cases hsym : m.symNeigh = true
  · simp [hsym]
  · simp [hsym]

/-- No listed address but its own may find the entry of `a`, and `a` finds no other entry. -/
structure Apart (s : Nbh) (ns : List HelloNeighbor) (a : IpAddr) : Prop where
  own : ∀ b, ¬Aliased s b a
  others : ∀ b ∈ symAddrs ns, ¬Aliased s a b

/-- The first loop, started in `s₀`, after the members `done`. -/
structure FirstPass (s₀ s : Nbh) (n : Ptr) (all done : List HelloNeighbor) : Prop where
  wf : PathWf s
  frame : TwoHopOnly s₀ s
  grows : Grows s₀ s
  others : ∀ t, otherEntries n (nblistOf s t) = otherEntries n (nblistOf s₀ t)
  unlisted : ∀ t a, Apart s₀ all a → a ∉ symAddrs done → addrOf s t = some a → nblistOf s t = nblistOf s₀ t
  listed : ∀ a, Apart s₀ all a → a ∈ symAddrs done → ∃ t, addrOf s t = some a ∧ nblistOf s t = relinked s₀ n t

theorem mem_backs_relinked (h : nblistOf s t = relinked s₀ n t) : n ∈ backs s t := by
  unfold backs
  rw [h, relinked]
  split
  · rename_i hn
    rw [List.map_map]
    exact (List.map_congr_left fun y _ => resetPath_neighbor y) ▸ hn
  · exact List.mem_cons_self ..

theorem relinked_congr (h : nblistOf s t = nblistOf s₀ t) : relinked s n t = relinked s₀ n t := by
  unfold relinked backs
  rw [h]

/-- A node that has been listed may be listed again. -/
theorem relinked_relinked (h : nblistOf s t = relinked s₀ n t) : relinked s n t = relinked s₀ n t := by
  rw [relinked, if_pos (mem_backs_relinked h), h, relinked]
  split
  · rw [List.map_map]
    exact List.map_congr_left fun y _ => resetPath_resetPath y
  · rename_i hn
    rw [List.map_cons, List.map_congr_left fun y hy => resetPath_of_ne fun heq => hn (mem_backs.2 ⟨y, hy, heq⟩),
      List.map_id']
    simp [resetPath, newNbListEntry]

theorem FirstPass.step (h : FirstPass s₀ s n all done) {m : HelloNeighbor} (hmem : m ∈ all) (hframe : TwoHopOnly s s')
    (hs : Relinks s s' n m) : FirstPass s₀ s' n all (done ++ [m]) := by
  have haliased : ∀ a b, Aliased s a b ↔ Aliased s₀ a b := by
    intro a b
    unfold Aliased
    rw [h.grows.mid]
  have hothers : ∀ a, Apart s₀ all a → m.symNeigh = true → ¬Aliased s a m.address := by
    intro a ha hsym
    rw [haliased]
    exact ha.others _ (List.mem_map_of_mem (List.mem_filter.2 ⟨hmem, hsym⟩))
  refine ⟨hs.wf, h.frame.trans hframe, h.grows.trans hs.grows, fun t => (hs.others t).trans (h.others t),
    fun t a ha hnot ht => ?_, fun a ha hdone => ?_⟩
  · rw [mem_symAddrs_concat, not_or, not_and] at hnot
    obtain ⟨ht', hlist⟩ := hs.elsewhere t a (fun hsym => ⟨hnot.2 hsym, hothers a ha hsym⟩) ht
    exact hlist.trans (h.unlisted t a ha hnot.1 ht')
  · by_cases hm : m.symNeigh = true ∧ a = m.address
    · obtain ⟨hsym, rfl⟩ := hm
      obtain ⟨t, ht, hlist⟩ := hs.here hsym fun b => by
        rw [haliased]
        exact ha.own b
      refine ⟨t, ht, hlist.trans ?_⟩
      by_cases hbefore : m.address ∈ symAddrs done
      · obtain ⟨u, hu, hulist⟩ := h.listed m.address ha hbefore
        obtain rfl := hs.wf.addrs t u m.address ht (hs.grows.kept u _ hu)
        exact relinked_relinked hulist
      · refine relinked_congr ?_
        cases hold : addrOf s t with
        | some k =>
          obtain rfl := Option.some.inj ((hs.grows.kept t k hold).symm.trans ht)
          exact h.unlisted t _ ha hbefore hold
        | none =>
          have hold₀ : addrOf s₀ t = none := by
            refine Option.eq_none_iff_forall_ne_some.2 fun k hk => ?_
            rw [h.grows.kept t k hk] at hold
            cases hold
          rw [nblistOf_of_addrOf hold, nblistOf_of_addrOf hold₀]
    · obtain ⟨t, ht, hlist⟩ := h.listed a ha ((mem_symAddrs_concat.1 hdone).resolve_right hm)
      have ht' := hs.grows.kept t a ht
      obtain ⟨-, hsame⟩ := hs.elsewhere t a (fun hsym => ⟨fun heq => hm ⟨hsym, heq⟩, hothers a ha hsym⟩) ht'
      exact ⟨t, ht', hsame.trans hlist⟩

theorem PathWf.firstPass (h : PathWf s) (hlq : 0 < env.cnf.lqLevel) (hn : (s.nbr n).isSome) (random : Ptr → Nat)
    (vtime : Nat) (all : List HelloNeighbor) :
    ∃ s', Run.forEach (Neighbor.processNeighbor env random n vtime) all s = some s' ∧ FirstPass s s' n all all := by
  have hstart : FirstPass s s n all [] :=
    ⟨h, .refl s, .of_eq rfl fun _ => rfl, fun _ => rfl, fun _ _ _ _ _ => rfl, fun a _ ha => absurd ha List.not_mem_nil⟩
  refine Run.forEach_prefix (P := fun done r => FirstPass s r n all done) (fun done m r hmem hpass => ?_) hstart
  have hn' : (r.nbr n).isSome := by
    obtain ⟨e, he⟩ := Option.isSome_iff_exists.1 hn
    obtain ⟨e', he', -⟩ := hpass.frame.exists_nbr he
    rw [he']
    rfl
  obtain ⟨r', hr', hrelinks⟩ := hpass.wf.processNeighbor hlq hn' random vtime m
  exact ⟨r', hr', hpass.step hmem (twoHopOnly_processNeighbor hr') hrelinks⟩

/-! ## The second loop -/

/-- The costs that a message lists for a symmetric neighbour. -/
def listedCosts (ns : List HelloNeighbor) (a : IpAddr) : List UInt32 :=
  (ns.filter fun m => m.symNeigh && m.address == a).map HelloNeighbor.cost

/-- Those that the second loop looks at: no path leads to this node. -/
def costsTo (env : Env) (ns : List HelloNeighbor) (a : IpAddr) : List UInt32 :=
  if isForeign env a then listedCosts ns a else []

/-- An entry after paths with the costs `cs` behind the sender have been compared. -/
def bestPath (n : Ptr) (f : UInt32) (cs : List UInt32) (y : NbListEntry) : NbListEntry :=
  if y.neighbor = n then cs.foldl (fun y c => betterPath f c y) y else y

theorem betterPath_neighbor (f c : UInt32) (y : NbListEntry) : (betterPath f c y).neighbor = y.neighbor := by
  unfold betterPath
  split
  · rfl
  · rfl

theorem bestPath_of_ne {cs : List UInt32} {y : NbListEntry} (hy : y.neighbor ≠ n) : bestPath n f cs y = y := if_neg hy

theorem foldl_betterPath_neighbor (f : UInt32) (cs : List UInt32) (y : NbListEntry) :
    (cs.foldl (fun y c => betterPath f c y) y).neighbor = y.neighbor := by
  induction cs generalizing y with
  | nil => rfl
  | cons c cs ih => exact (ih (betterPath f c y)).trans (betterPath_neighbor f c y)

theorem bestPath_neighbor (cs : List UInt32) (y : NbListEntry) : (bestPath n f cs y).neighbor = y.neighbor := by
  unfold bestPath
  split
  · exact foldl_betterPath_neighbor f cs y
  · rfl

theorem bestPath_concat (cs : List UInt32) (c : UInt32) (y : NbListEntry) : bestPath n f (cs ++ [c]) y =
    if (bestPath n f cs y).neighbor = n then betterPath f c (bestPath n f cs y) else bestPath n f cs y := by
  rw [bestPath_neighbor]
  by_cases hy : y.neighbor = n
  · rw [if_pos hy, bestPath, if_pos hy, bestPath, if_pos hy, List.foldl_append, List.foldl_cons, List.foldl_nil]
  · rw [if_neg hy, bestPath_of_ne hy, bestPath_of_ne hy]

theorem costsTo_concat_of_ne {m : HelloNeighbor}
    (h : ¬(isForeign env m.address = true ∧ m.symNeigh = true ∧ m.address = a)) :
    costsTo env (done ++ [m]) a = costsTo env done a := by
  unfold costsTo
  split
  · rename_i ha
    unfold listedCosts
    rw [List.filter_append, List.filter_singleton, List.map_append]
    have hno : (m.symNeigh && m.address == a) = false := by
      rw [Bool.and_eq_false_iff, ← Bool.not_eq_true, beq_eq_false_iff_ne]
      by_contra hyes
      rw [not_or, not_not, not_not] at hyes
      exact h ⟨hyes.2 ▸ ha, hyes⟩
    simp [hno]
  · rfl

theorem costsTo_concat {m : HelloNeighbor} (ha : isForeign env m.address = true) (hsym : m.symNeigh = true) :
    costsTo env (done ++ [m]) m.address = costsTo env done m.address ++ [m.cost] := by
  simp [costsTo, ha, listedCosts, hsym]

/-- The second loop, started in `s₁`, after the members `done`. -/
structure SecondPass (env : Env) (s₁ s : Nbh) (n : Ptr) (f : UInt32) (done : List HelloNeighbor) : Prop where
  same : SameHops s₁ s
  nbr : s.nbr = s₁.nbr
  lists : ∀ t a, addrOf s₁ t = some a → nblistOf s t = (nblistOf s₁ t).map (bestPath n f (costsTo env done a))

theorem exists_processCost {m : HelloNeighbor} {x : Nbr2ListEntry}
    (hguard : (isForeign env m.address && m.symNeigh) = true)
    (hx : olsrLookupMyNeighbors s n m.address = some (some x)) : ∃ s', processCost env n f s m = some s' ∧
      ∀ u, nblistOf s' u = if u = x.neighbor2
        then (nblistOf s u).map fun y => if y.neighbor = n then betterPath f m.cost y else y else nblistOf s u := by
  obtain ⟨-, haddr⟩ := lookupMyNeighbors_some hx
  obtain ⟨te, hte, -⟩ := Option.map_eq_some_iff.1 haddr
  obtain ⟨r, hr⟩ := exists_updateNblist (n := n) (g := betterPath f m.cost) haddr
  have hlists : ∀ u, nblistOf r u = if u = x.neighbor2
      then (nblistOf s u).map fun y => if y.neighbor = n then betterPath f m.cost y else y else nblistOf s u := by
    intro u
    rw [updateNblist_lists hr]
    split
    · rename_i hu
      rw [hu]
    · rfl
  unfold processCost
  rw [if_pos hguard, hx]
  simp only [Option.bind_eq_bind, Option.bind_some, hte, hr]
  split
  · exact ⟨_, rfl, hlists⟩
  · exact ⟨_, rfl, hlists⟩

/-- One round of the second loop. -/
theorem SecondPass.step (h : SecondPass env s₁ s n f done) (hwf : PathWf s₁) (hn : (s₁.nbr n).isSome)
    (m : HelloNeighbor) : ∃ s', processCost env n f s m = some s' ∧ SecondPass env s₁ s' n f (done ++ [m]) := by
  by_cases hguard : (isForeign env m.address && m.symNeigh) = true
  · have hwf' := hwf.same h.same
    obtain ⟨hforeign, hsym⟩ := Bool.and_eq_true_iff.1 hguard
    obtain ⟨o, ho⟩ := hwf'.exists_lookup (h.nbr ▸ hn) m.address
    cases o with
    | some x =>
      obtain ⟨-, hx⟩ := lookupMyNeighbors_some ho
      obtain ⟨s', hs', hlists⟩ := exists_processCost (f := f) hguard ho
      obtain ⟨hsame, hnbr, -⟩ := processCost_cases hs'
      refine ⟨s', hs', h.same.trans hsame, hnbr.trans h.nbr, fun t a ha => ?_⟩
      have ha' : addrOf s t = some a := (h.same.addrOf t).trans ha
      by_cases heq : m.address = a
      · subst heq
        rw [hlists, if_pos (hwf'.addrs _ _ _ ha' hx), h.lists t _ ha, costsTo_concat hforeign hsym, List.map_map]
        exact List.map_congr_left fun y _ => (bestPath_concat _ _ y).symm
      · have ht : t ≠ x.neighbor2 := by
          rintro rfl
          exact heq (Option.some.inj (hx.symm.trans ha'))
        rw [hlists, if_neg ht, costsTo_concat_of_ne fun hyes => heq hyes.2.2]
        exact h.lists t a ha
    | none =>
      refine ⟨s, ?_, h.same, h.nbr, fun t a ha => ?_⟩
      · unfold processCost
        rw [if_pos hguard, ho]
        rfl
      · by_cases heq : m.address = a
        · subst heq
          have hnot := hwf'.not_mem_backs ho ((h.same.addrOf t).trans ha)
          rw [h.same.backs] at hnot
          rw [h.lists t _ ha]
          refine List.map_congr_left fun y hy => ?_
          have hy' : y.neighbor ≠ n := fun hyn => hnot (mem_backs.2 ⟨y, hy, hyn⟩)
          rw [bestPath_of_ne hy', bestPath_of_ne hy']
        · rw [costsTo_concat_of_ne fun hyes => heq hyes.2.2]
          exact h.lists t a ha
  · refine ⟨s, ?_, h.same, h.nbr, fun t a ha => ?_⟩
    · unfold processCost
      rw [if_neg hguard]
    · rw [costsTo_concat_of_ne fun hyes => hguard (Bool.and_eq_true_iff.2 ⟨hyes.1, hyes.2.1⟩)]
      exact h.lists t a ha

theorem PathWf.secondPass (h : PathWf s) (hn : (s.nbr n).isSome) (env : Env) (f : UInt32) (all : List HelloNeighbor) :
    ∃ s', Run.forEach (processCost env n f) all s = some s' ∧ SecondPass env s s' n f all := by
  have hempty : ∀ a, bestPath n f (costsTo env [] a) = id := by
    intro a
    funext y
    simp [bestPath, costsTo, listedCosts]
  have hstart : SecondPass env s s n f [] := ⟨.refl s, rfl, fun t a _ => by rw [hempty, List.map_id]⟩
  exact Run.forEach_prefix (P := fun done r => SecondPass env s r n f done) (fun done m r _ hpass => hpass.step h hn m)
    hstart

/-! ## The lowest cost -/

section
variable {cs : List UInt32} {y : NbListEntry}

/-- An entry with the best of the paths that have been compared. -/
def settled (f : UInt32) (y : NbListEntry) : Option UInt32 → NbListEntry
  | none => y
  | some c => { y with secondHopLinkcost := c, pathLinkcost := f + c, savedPathLinkcost := f + c }

theorem settled_some (f c : UInt32) (y : NbListEntry) (o : Option UInt32) :
    { settled f y o with secondHopLinkcost := c, pathLinkcost := f + c, savedPathLinkcost := f + c } =
      settled f y (some c) := by
  cases o with
  | none => rfl
  | some d => rfl

theorem toNat_add_cost {c : UInt32} (h : f.toNat + c.toNat < 2 ^ 32) : (f + c).toNat = f.toNat + c.toNat := by
  rw [UInt32.toNat_add, Nat.mod_eq_of_lt h]

/-- A path over the sender and its whole cost. -/
def pathOver (f c : UInt32) : UInt32 × Nat := (c, f.toNat + c.toNat)

/-- Without overflow the comparison of the paths is the search for the first of lowest cost. -/
theorem foldl_betterPath (hcosts : ∀ c ∈ cs, f.toNat + c.toNat < 2 ^ 32) (hy : y.pathLinkcost = linkCostBroken)
    {r : Option UInt32 × Nat}
    (hr : r = (cs.map (pathOver f)).foldl (FirstBest.better fun _ => true) (none, linkCostBroken.toNat)) :
    cs.foldl (fun y c => betterPath f c y) y = settled f y r.1 ∧ (settled f y r.1).pathLinkcost.toNat = r.2 := by
  induction cs using List.reverseRecOn generalizing r with
  | nil =>
    subst hr
    exact ⟨rfl, congrArg UInt32.toNat hy⟩
  | append_singleton cs c ih =>
    have hc := toNat_add_cost (hcosts c (List.mem_append_right _ (List.mem_singleton_self c)))
    obtain ⟨q, hq⟩ : ∃ q, q = (cs.map (pathOver f)).foldl (FirstBest.better fun _ => true)
      (none, linkCostBroken.toNat) :=
      ⟨_, rfl⟩
    obtain ⟨hfold, hpath⟩ := ih (fun d hd => hcosts d (List.mem_append_left _ hd)) hq
    rw [List.map_append, List.foldl_append, ← hq, List.map_cons, List.map_nil, List.foldl_cons, List.foldl_nil] at hr
    rw [List.foldl_append, List.foldl_cons, List.foldl_nil, hfold, hr]
    unfold betterPath FirstBest.better
    have hiff : f + c < (settled f y q.1).pathLinkcost ↔ (pathOver f c).2 < q.2 := by
      rw [UInt32.lt_iff_toNat_lt, hc, hpath]
      rfl
    by_cases hlt : (pathOver f c).2 < q.2
    · rw [if_pos (hiff.2 hlt), if_pos ⟨rfl, hlt⟩]
      exact ⟨settled_some f c y q.1, hc⟩
    · rw [if_neg (mt hiff.1 hlt), if_neg fun h => hlt h.2]
      exact ⟨rfl, hpath⟩

/-- The costs of the best path, where the lowest cost behind the sender is `c`. -/
structure Settled (f c : UInt32) (y y' : NbListEntry) : Prop where
  path : y'.pathLinkcost.toNat = min linkCostBroken.toNat (f.toNat + c.toNat)
  better : f.toNat + c.toNat < linkCostBroken.toNat → y'.secondHopLinkcost = c
  broken : linkCostBroken.toNat ≤ f.toNat + c.toNat → y' = y

theorem bestPath_settled (hcosts : ∀ c ∈ cs, f.toNat + c.toNat < 2 ^ 32) (hbroken : y.pathLinkcost = linkCostBroken)
    (hy : y.neighbor = n) {c : UInt32} (hc : c ∈ cs) (hleast : ∀ d ∈ cs, c ≤ d) :
    Settled f c y (bestPath n f cs y) := by
  obtain ⟨r, hr⟩ : ∃ r, r = (cs.map (pathOver f)).foldl (FirstBest.better fun _ => true) (none, linkCostBroken.toNat) :=
    ⟨_, rfl⟩
  obtain ⟨hfold, hpath⟩ := foldl_betterPath hcosts hbroken hr
  rw [bestPath, if_pos hy, hfold]
  have hmem : pathOver f c ∈ cs.map (pathOver f) := List.mem_map_of_mem hc
  have hsearch := FirstBest.foldl_better (fun _ => true) linkCostBroken.toNat (cs.map (pathOver f))
  rw [← hr] at hsearch
  rcases hsearch with ⟨hnone, hempty⟩ | ⟨d, hd, hfirst⟩
  · have hge : linkCostBroken.toNat ≤ f.toNat + c.toNat := by
      have hnot := List.filter_eq_nil_iff.1 hempty _ hmem
      rw [Bool.true_and, decide_eq_true_eq, not_lt] at hnot
      exact hnot
    rw [hnone] at hpath ⊢
    exact ⟨hpath.trans (min_eq_left hge).symm, fun hlt => absurd hlt (not_lt.2 hge), fun _ => rfl⟩
  · obtain ⟨hdmem, hdlt⟩ := List.mem_filter.1 hfirst.mem
    obtain ⟨d', hd', heq⟩ := List.mem_map.1 hdmem
    obtain ⟨rfl, hr₂⟩ := Prod.mk.inj heq
    have hlt : f.toNat + d'.toNat < linkCostBroken.toNat := by
      rw [hr₂]
      simpa using hdlt
    have hle : c.toNat ≤ d'.toNat := UInt32.le_iff_toNat_le.1 (hleast d' hd')
    have hclt : f.toNat + c.toNat < linkCostBroken.toNat := (Nat.add_le_add_left hle _).trans_lt hlt
    have hle' : r.2 ≤ f.toNat + c.toNat :=
      hfirst.le (pathOver f c) (List.mem_filter.2 ⟨hmem, by rw [Bool.true_and, decide_eq_true_eq]; exact hclt⟩)
    have hcd : c.toNat = d'.toNat := by omega
    obtain rfl : c = d' := UInt32.toNat.inj hcd
    rw [hd] at hpath ⊢
    refine ⟨?_, fun _ => rfl, fun hge => absurd hlt (not_lt.2 hge)⟩
    rw [hpath, ← hr₂, min_eq_right hlt.le]

theorem exists_least (hne : cs ≠ []) : ∃ c ∈ cs, ∀ d ∈ cs, c ≤ d := by
  obtain ⟨c, hc, hleast⟩ := Finset.exists_min_image cs.toFinset UInt32.toNat ((List.toFinset_nonempty_iff cs).2 hne)
  exact ⟨c, List.mem_toFinset.1 hc, fun d hd => UInt32.le_iff_toNat_le.2 (hleast d (List.mem_toFinset.2 hd))⟩

end

/-! ## The first hop -/

/-- The cost of the best link to a neighbour, which is that of a broken one if there is none. -/
def firstHopCost (env : Env) (s : Nbh) (remote : IpAddr) : Option UInt32 :=
  (getBestLinkToNeighbor env s remote).map fun o => (o.map LinkEntry.linkcost).getD linkCostBroken

/-- No link has been chosen that costs more than a broken one. -/
structure BestLink.CostLe (b : BestLink) : Prop where
  curr : b.curr ≤ linkCostBroken.toNat
  good : ∀ l, b.goodLink = some l → l.linkcost ≤ linkCostBroken
  backup : ∀ l, b.backupLink = some l → l.linkcost ≤ linkCostBroken

theorem BestLink.CostLe.offer {b : BestLink} (h : b.CostLe) (s : Nbh) (remote : IpAddr) (l : LinkEntry) :
    (b.offer s remote l l.linkcost.toNat).CostLe := by
  unfold BestLink.offer
  split
  · rename_i hl
    have hle : l.linkcost.toNat ≤ linkCostBroken.toNat := (hl.elim le_of_lt fun hl => hl.1.le).trans h.curr
    split
    · refine ⟨hle, fun l' hl' => ?_, h.backup⟩
      obtain rfl := Option.some.inj hl'
      exact UInt32.le_iff_toNat_le.2 hle
    · refine ⟨hle, h.good, fun l' hl' => ?_⟩
      obtain rfl := Option.some.inj hl'
      exact UInt32.le_iff_toNat_le.2 hle
  · exact h

theorem bestLinkLoop_costLe (hlq : 0 < env.cnf.lqLevel) {remote mainAddr : IpAddr} : ∀ {ls : List LinkEntry}
    {b b' : BestLink}, b.CostLe → bestLinkLoop env s remote mainAddr ls b = some b' → b'.CostLe
  | [], b, b', hb, h => by
    obtain rfl := Option.some.inj h
    exact hb
  | l :: ls, b, b', hb, h => by
    obtain ⟨e, -, h⟩ := Option.bind_eq_some_iff.1 h
    split at h
    · exact bestLinkLoop_costLe hlq hb h
    · rw [if_neg hlq.ne'] at h
      exact bestLinkLoop_costLe hlq (hb.offer s remote l) h

theorem exists_firstHopCost (hlq : 0 < env.cnf.lqLevel) (hlive : LinksLive s s.links) (remote : IpAddr) :
    ∃ f, firstHopCost env s remote = some f ∧ f ≤ linkCostBroken := by
  obtain ⟨b, hb, -⟩ := @getBestLink_scanned env s remote hlive
  obtain ⟨b', hloop, heq⟩ := Option.bind_eq_some_iff.1 hb
  rw [if_neg hlq.ne'] at hloop
  have hcost : b'.CostLe := bestLinkLoop_costLe hlq ⟨le_refl _, by simp, by simp⟩ hloop
  refine ⟨_, by rw [firstHopCost, hb, Option.map_some], ?_⟩
  rw [← Option.some.inj heq]
  cases hl : b'.goodLink.or b'.backupLink with
  | none => exact UInt32.le_refl _
  | some l =>
    rcases Option.or_eq_some_iff.1 hl with hl | ⟨-, hl⟩
    · exact hcost.good l hl
    · exact hcost.backup l hl

theorem lookupLinkStatus_congr (h : s'.now = s.now) (l : LinkEntry) : lookupLinkStatus s' l = lookupLinkStatus s l := by
  unfold lookupLinkStatus
  rw [h]

theorem TwoHopOnly.bestLinkLoop (h : TwoHopOnly s s') {remote mainAddr : IpAddr} : ∀ (ls : List LinkEntry)
    (b : BestLink), Neighbor.bestLinkLoop env s' remote mainAddr ls b = Neighbor.bestLinkLoop env s remote mainAddr ls b
  | [], b => rfl
  | l :: ls, b => by
    have hoffer : ∀ v, b.offer s' remote l v = b.offer s remote l v := by
      intro v
      unfold BestLink.offer
      rw [lookupLinkStatus_congr h.now]
    unfold Neighbor.bestLinkLoop
    cases he : s.nbr l.neighbor with
    | none =>
      rw [h.isNone_nbr.2 he]
      rfl
    | some e =>
      obtain ⟨e', he', hcore⟩ := h.exists_nbr he
      have hmain : e'.mainAddr = e.mainAddr := congrArg (fun c => c.1) hcore
      rw [he']
      simp only [Option.bind_eq_bind, Option.bind_some, hmain, hoffer, h.bestLinkLoop ls]

theorem TwoHopOnly.getBestLink (h : TwoHopOnly s s') (remote : IpAddr) :
    getBestLinkToNeighbor env s' remote = getBestLinkToNeighbor env s remote := by
  unfold getBestLinkToNeighbor
  rw [h.mid, h.links]
  dsimp only
  rw [h.bestLinkLoop]

/-! ## HELLO messages -/

/-- What the second loop makes of the entries of the node `a`. -/
structure Pricing (env : Env) (ns : List HelloNeighbor) (n : Ptr) (f : UInt32) (a : IpAddr)
    (g : NbListEntry → NbListEntry) : Prop where
  neighbor : ∀ y, (g y).neighbor = y.neighbor
  other : ∀ y, y.neighbor ≠ n → g y = y
  unlisted : a ∉ symAddrs ns → ∀ y, g y = y
  settled : isForeign env a = true → ∀ y, y.neighbor = n → y.pathLinkcost = linkCostBroken →
    ∀ c ∈ listedCosts ns a, (∀ d ∈ listedCosts ns a, c ≤ d) → Settled f c y (g y)

theorem listedCosts_ne_nil {ns : List HelloNeighbor} : listedCosts ns a ≠ [] ↔ a ∈ symAddrs ns := by
  unfold listedCosts symAddrs
  simp [List.filter_eq_nil_iff, and_assoc]

/-- No path over the sender costs so much that its cost overflows. -/
def NoOverflow (f : UInt32) (ns : List HelloNeighbor) : Prop :=
  ∀ m ∈ ns, m.symNeigh = true → f.toNat + m.cost.toNat < 2 ^ 32

theorem NoOverflow.listedCosts {ns : List HelloNeighbor} (h : NoOverflow f ns) :
    ∀ c ∈ listedCosts ns a, f.toNat + c.toNat < 2 ^ 32 := by
  intro c hc
  obtain ⟨m, hm, rfl⟩ := List.mem_map.1 hc
  obtain ⟨hmem, hsym⟩ := List.mem_filter.1 hm
  exact h m hmem (Bool.and_eq_true_iff.1 hsym).1

theorem pricing_bestPath {ns : List HelloNeighbor} (h : NoOverflow f ns) :
    Pricing env ns n f a (bestPath n f (costsTo env ns a)) where
  neighbor := bestPath_neighbor _
  other _ := bestPath_of_ne
  unlisted ha y := by
    have hnil : costsTo env ns a = [] := by
      unfold costsTo
      rw [not_not.1 (mt listedCosts_ne_nil.1 ha), ite_self]
    rw [hnil]
    simp [bestPath]
  settled hforeign y hy hbroken c hc hleast := by
    rw [costsTo, if_pos hforeign]
    exact bestPath_settled h.listedCosts hbroken hy hc hleast

/-- Without a link to the sender there are no paths over it. -/
theorem pricing_id {ns : List HelloNeighbor} : Pricing env ns n linkCostBroken a id where
  neighbor _ := rfl
  other _ _ := rfl
  unlisted _ _ := rfl
  settled _ y _ hbroken c _ _ := by
    refine ⟨?_, fun hlt => absurd hlt (Nat.not_lt.2 (Nat.le_add_right ..)), fun _ => rfl⟩
    rw [min_eq_left (Nat.le_add_right ..)]
    exact congrArg UInt32.toNat hbroken

theorem PathWf.processMessageNeighbors (h : PathWf s) (hlive : LinksLive s s.links) (hlq : 0 < env.cnf.lqLevel)
    {e : NeighborEntry} (he : s.nbr n = some e) (random : Ptr → Nat) {message : HelloMessage}
    (hcosts : ∀ m ∈ message.neighbors, m.cost ≤ linkCostBroken) :
    ∃ s₁ s' f, Neighbor.processMessageNeighbors env s random n message = some s' ∧
      firstHopCost env s e.mainAddr = some f ∧ NoOverflow f (foreignNeighbors env s message.neighbors) ∧
      FirstPass s s₁ n (foreignNeighbors env s message.neighbors) (foreignNeighbors env s message.neighbors) ∧
      SameHops s₁ s' ∧ ∀ t a, addrOf s₁ t = some a →
        ∃ g, Pricing env (foreignNeighbors env s message.neighbors) n f a g ∧ nblistOf s' t =
        (nblistOf s₁ t).map g := by
  obtain ⟨ns, hns⟩ : ∃ ns, ns = foreignNeighbors env s message.neighbors := ⟨_, rfl⟩
  obtain ⟨f, hf, hfle⟩ := exists_firstHopCost hlq hlive e.mainAddr
  have hno : NoOverflow f ns := by
    intro m hm _
    rw [hns] at hm
    obtain ⟨m', hm', rfl⟩ := List.mem_map.1 hm
    have hm'cost := UInt32.le_iff_toNat_le.1 (hcosts m' (List.mem_of_mem_filter hm'))
    have hfcost := UInt32.le_iff_toNat_le.1 hfle
    have hbroken : linkCostBroken.toNat = 2 ^ 22 := rfl
    change f.toNat + m'.cost.toNat < 2 ^ 32
    omega
  obtain ⟨s₁, hs₁, hpass⟩ := h.firstPass hlq (by rw [he]; rfl) random message.vtime ns
  obtain ⟨e₁, he₁, hcore⟩ := hpass.frame.exists_nbr he
  have hmain : e₁.mainAddr = e.mainAddr := congrArg (fun c => c.1) hcore
  obtain ⟨o, ho, hof⟩ := Option.map_eq_some_iff.1 hf
  have hbest : getBestLinkToNeighbor env s₁ e₁.mainAddr = some o := by rw [hmain, hpass.frame.getBestLink, ho]
  have hprocess : Neighbor.processMessageNeighbors env s random n message =
      o.elim (some s₁) fun l => Run.forEach (processCost env n l.linkcost) ns s₁ := by
    unfold Neighbor.processMessageNeighbors
    simp only [← hns, hs₁, Option.bind_eq_bind, Option.bind_some, if_pos hlq, he₁, hbest]
    cases o with
    | none => rfl
    | some l => rfl
  rw [← hns]
  cases o with
  | none =>
    obtain rfl : linkCostBroken = f := hof
    exact ⟨s₁, s₁, _, hprocess, hf, hno, hpass, .refl s₁, fun t a _ => ⟨id, pricing_id, (List.map_id _).symm⟩⟩
  | some l =>
    obtain rfl : l.linkcost = f := hof
    obtain ⟨s', hs', hsecond⟩ := hpass.wf.secondPass (by rw [he₁]; rfl) env l.linkcost ns
    exact ⟨s₁, s', _, hprocess.trans hs', hf, hno, hpass, hsecond.same,
      fun t a ha => ⟨_, pricing_bestPath hno, hsecond.lists t a ha⟩⟩

/-- The second hop costs of the paths over `n`. A new path starts as a broken one. -/
def secondHops (s : Nbh) (n t : Ptr) : List UInt32 :=
  if n ∈ backs s t then ((nblistOf s t).filter fun y => y.neighbor == n).map NbListEntry.secondHopLinkcost
  else [linkCostBroken]

theorem relinked_broken {y : NbListEntry} (hy : y ∈ relinked s n t) (hn : y.neighbor = n) :
    y.pathLinkcost = linkCostBroken ∧ y.secondHopLinkcost ∈ secondHops s n t := by
  unfold relinked at hy
  unfold secondHops
  by_cases hback : n ∈ backs s t
  · rw [if_pos hback] at hy ⊢
    obtain ⟨z, hz, rfl⟩ := List.mem_map.1 hy
    rw [resetPath_neighbor] at hn
    rw [resetPath, if_pos hn]
    exact ⟨rfl, List.mem_map.2 ⟨z, List.mem_filter.2 ⟨hz, beq_iff_eq.2 hn⟩, rfl⟩⟩
  · rw [if_neg hback] at hy ⊢
    rcases List.mem_cons.1 hy with rfl | hy
    · exact ⟨rfl, List.mem_singleton_self _⟩
    · exact absurd (mem_backs.2 ⟨y, hy, hn⟩) hback

/-- The path has the lowest cost `c` behind the sender. -/
structure CheapestPath (f c : UInt32) (y : NbListEntry) : Prop where
  path : y.pathLinkcost.toNat = min linkCostBroken.toNat (f.toNat + c.toNat)
  secondHop : y.secondHopLinkcost = c

/-- The path has the lowest cost `c` behind the sender, unless it is broken: then it keeps the second hop cost that it
had in `s`. -/
structure CheapestUsablePath (s : Nbh) (n : Ptr) (f : UInt32) (t : Ptr) (c : UInt32) (y : NbListEntry) : Prop where
  path : y.pathLinkcost.toNat = min linkCostBroken.toNat (f.toNat + c.toNat)
  secondHop : f.toNat + c.toNat < linkCostBroken.toNat → y.secondHopLinkcost = c
  kept : linkCostBroken.toNat ≤ f.toNat + c.toNat → y.secondHopLinkcost ∈ secondHops s n t

/-- The costs that a message of `n`, to which a link of the cost `f` leads, is to leave in the lists of the two hop
neighbours that `node` holds of. -/
structure PathCosts (s s' : Nbh) (n : Ptr) (f : UInt32) (ns : List HelloNeighbor) (node : IpAddr → Prop)
    (stored : Ptr → UInt32 → NbListEntry → Prop) : Prop where
  noOverflow : NoOverflow f ns
  linked : ∀ a ∈ symAddrs ns, node a → ∃ t, addrOf s' t = some a ∧ n ∈ backs s' t
  listed : ∀ a ∈ symAddrs ns, node a → ∀ t, addrOf s' t = some a → ∀ y ∈ nblistOf s' t, y.neighbor = n →
    ∃ c ∈ listedCosts ns a, (∀ d ∈ listedCosts ns a, c ≤ d) ∧ stored t c y
  others : ∀ t, otherEntries n (nblistOf s' t) = otherEntries n (nblistOf s t)
  unlisted : ∀ t a, addrOf s t = some a → node a → a ∉ symAddrs ns → nblistOf s' t = nblistOf s t

/-- The address belongs to one node, which is not this one. -/
structure OtherNode (env : Env) (s : Nbh) (ns : List HelloNeighbor) (a : IpAddr) : Prop extends Apart s ns a where
  foreign : isForeign env a = true

theorem pathCosts_processMessageNeighbors (env : Env) (s : Nbh) (n : Ptr) (e : NeighborEntry) (random : Ptr → Nat)
    (message : HelloMessage) (h : PathWf s) (hlive : LinksLive s s.links) (hlq : 0 < env.cnf.lqLevel)
    (he : s.nbr n = some e) (hcosts : ∀ m ∈ message.neighbors, m.cost ≤ linkCostBroken) :
    ∃ s' f, processMessageNeighbors env s random n message = some s' ∧ firstHopCost env s e.mainAddr = some f ∧
      PathCosts s s' n f (foreignNeighbors env s message.neighbors)
        (OtherNode env s (foreignNeighbors env s message.neighbors)) (CheapestUsablePath s n f) := by
  obtain ⟨s₁, s', f, hs', hf, hno, hpass, hsame, hlists⟩ := h.processMessageNeighbors hlive hlq he random hcosts
  generalize foreignNeighbors env s message.neighbors = ns at *
  refine ⟨s', f, hs', hf, hno, fun a ha hnode => ?_, fun a ha hnode t ht y hy hyn => ?_, fun t => ?_,
    fun t a ht hnode hnot => ?_⟩
  · obtain ⟨t, ht, hlist⟩ := hpass.listed a hnode.toApart ha
    refine ⟨t, (hsame.addrOf t).trans ht, ?_⟩
    rw [hsame.backs]
    exact mem_backs_relinked hlist
  · rw [hsame.addrOf] at ht
    obtain ⟨u, hu, hlist⟩ := hpass.listed a hnode.toApart ha
    obtain rfl := hpass.wf.addrs t u a ht hu
    obtain ⟨g, hg, hprice⟩ := hlists t a ht
    rw [hprice, hlist] at hy
    obtain ⟨z, hz, rfl⟩ := List.mem_map.1 hy
    rw [hg.neighbor] at hyn
    obtain ⟨hbroken, hsecond⟩ := relinked_broken hz hyn
    obtain ⟨c, hc, hleast⟩ := exists_least (listedCosts_ne_nil.2 ha)
    have hsettled := hg.settled hnode.foreign z hyn hbroken c hc hleast
    refine ⟨c, hc, hleast, hsettled.path, hsettled.better, fun hge => ?_⟩
    rw [hsettled.broken hge]
    exact hsecond
  · rw [← hpass.others]
    cases hold : addrOf s₁ t with
    | none => rw [nblistOf_of_addrOf hold, nblistOf_of_addrOf ((hsame.addrOf t).trans hold)]
    | some a =>
      obtain ⟨g, hg, hprice⟩ := hlists t a hold
      rw [hprice]
      exact otherEntries_map (fun y hy => (hg.neighbor y).trans hy) hg.other _
  · have ht₁ := hpass.grows.kept t a ht
    obtain ⟨g, hg, hprice⟩ := hlists t a ht₁
    rw [hprice, ← hpass.unlisted t a hnode.toApart hnot ht₁, List.map_congr_left fun y _ => hg.unlisted hnot y,
      List.map_id']

/-- The tables are in order afterwards. -/
theorem PathWf.of_processMessageNeighbors (h : PathWf s) (hlive : LinksLive s s.links) (hlq : 0 < env.cnf.lqLevel)
    (hn : (s.nbr n).isSome) {random : Ptr → Nat} {message : HelloMessage}
    (hcosts : ∀ m ∈ message.neighbors, m.cost ≤ linkCostBroken)
    (hs : Neighbor.processMessageNeighbors env s random n message = some s') : PathWf s' := by
  obtain ⟨e, he⟩ := Option.isSome_iff_exists.1 hn
  obtain ⟨s₁, r, f, hr, -, -, hpass, hsame, -⟩ := h.processMessageNeighbors hlive hlq he random hcosts
  obtain rfl := Option.some.inj (hs.symm.trans hr)
  exact hpass.wf.same hsame

/-! ## Costs of a plugin -/

/-- `default_lq_calc_cost_ff`, the cost of a link whose quality a HELLO message tells. -/
def defaultLqCalcCostFf (valueLq valueNlq : UInt8) : UInt32 :=
  if valueLq < 25 ∨ valueNlq < 25 then linkCostBroken
  else
    let cost := UInt32.ofNat (((255 * 255) <<< 10) / (valueLq.toNat * valueNlq.toNat))
    if cost > linkCostBroken then linkCostBroken
    else if cost = 0 then 1
    else cost

/-- Like those of the other plugins, these costs end at that of a broken link. -/
theorem defaultLqCalcCostFf_le (valueLq valueNlq : UInt8) : defaultLqCalcCostFf valueLq valueNlq ≤ linkCostBroken := by
  unfold defaultLqCalcCostFf
  dsimp only
  split
  · exact UInt32.le_refl _
  · split
    · exact UInt32.le_refl _
    · rename_i hle
      split
      · decide
      · exact UInt32.not_lt.1 hle

/-- The neighbour 10.0.0.2 lists this node and a node `a`, with the quality of their links. -/
def listing (members : List (IpAddr × UInt8)) : HelloMessage :=
  (helloFrom [10, 0, 0, 2] [10, 0, 0, 2] (⟨[10, 0, 0, 1], .sym, true, 1024⟩ ::
    members.map fun m => ⟨m.1, .sym, true, defaultLqCalcCostFf m.2 m.2⟩)).message

theorem listing_cost_le (members : List (IpAddr × UInt8)) : ∀ m ∈ (listing members).neighbors,
    m.cost ≤ linkCostBroken := by
  intro m hm
  rcases List.mem_cons.1 hm with rfl | hm
  · decide
  · obtain ⟨x, -, rfl⟩ := List.mem_map.1 hm
    exact defaultLqCalcCostFf_le _ _

/-- A HELLO message of a neighbour that hears this node. -/
def heard : HelloInput := { helloFrom [10, 0, 0, 2] [10, 0, 0, 2] [] with message := listing [] }

/-- A symmetric link to this neighbour, of the lowest cost. -/
def symNbh : Nbh := setLinkcost ((step oneInterface emptyNbh (.helloLink heard)).getD emptyNbh) 0 1024

theorem reachable_symNbh : Reachable oneInterface (CrossOk oneInterface) symNbh := by
  have hsome : (step oneInterface emptyNbh (.helloLink heard)).isSome = true := by decide +kernel
  obtain ⟨s, hs⟩ := Option.isSome_iff_exists.1 hsome
  have hlink : Reachable oneInterface (CrossOk oneInterface) s :=
    .step (.helloLink heard) (.init rfl) ⟨trivial, trivial⟩ hs
  refine .step (.setLinkcost 0 1024) hlink ⟨trivial, trivial⟩ ?_
  unfold symNbh
  rw [hs]
  rfl

theorem linksLive_symNbh : LinksLive symNbh symNbh.links := by
  have hall : symNbh.links.all (fun l => (symNbh.nbr l.neighbor).isSome) = true := by decide +kernel
  exact List.all_eq_true.1 hall

theorem pathCosts_symNbh : PathWf symNbh ∧ LinksLive symNbh symNbh.links ∧ ∃ e, symNbh.nbr 1 = some e ∧ ∃ s' f,
    processMessageNeighbors oneInterface symNbh (fun _ => 0) 1 (listing [([10, 0, 0, 5], 200), ([10, 0, 0, 5], 255)]) =
      some s' ∧ firstHopCost oneInterface symNbh e.mainAddr = some f ∧ PathCosts symNbh s' 1 f
        (foreignNeighbors oneInterface symNbh (listing [([10, 0, 0, 5], 200), ([10, 0, 0, 5], 255)]).neighbors)
        (OtherNode oneInterface symNbh
          (foreignNeighbors oneInterface symNbh (listing [([10, 0, 0, 5], 200), ([10, 0, 0, 5], 255)]).neighbors))
        (CheapestUsablePath symNbh 1 f) := by
  have hwf := (reachable_twoHopWf reachable_symNbh).pathWf
  have hsome : (symNbh.nbr 1).isSome = true := by decide +kernel
  obtain ⟨e, he⟩ := Option.isSome_iff_exists.1 hsome
  exact ⟨hwf, linksLive_symNbh, e, he, pathCosts_processMessageNeighbors oneInterface symNbh 1 e (fun _ => 0)
    (listing [([10, 0, 0, 5], 200), ([10, 0, 0, 5], 255)]) hwf linksLive_symNbh (by decide) he (listing_cost_le _)⟩

/-- The message of 10.0.0.2 leaves other costs than those of the cheapest paths. -/
def LeavesOther (s : Nbh) (message : HelloMessage) : Prop :=
  ∃ s' f, processMessageNeighbors oneInterface s (fun _ => 0) 1 message = some s' ∧
    firstHopCost oneInterface s [10, 0, 0, 2] = some f ∧
    ¬PathCosts s s' 1 f (foreignNeighbors oneInterface s message.neighbors) (fun _ => True) fun _ => CheapestPath f

/-- A node that has been listed before is listed as behind a broken link. -/
theorem brokenHop_leavesOther : ∃ s, Reachable oneInterface (CrossOk oneInterface) s ∧
    LeavesOther s (listing [([10, 0, 0, 5], 0)]) := by
  have hrun : ((step oneInterface symNbh (.processMessageNeighbors (fun _ => 0) 1 (listing [([10, 0, 0, 5], 255)]))).any
      fun s => (firstHopCost oneInterface s [10, 0, 0, 2]).isSome &&
        listedCosts (foreignNeighbors oneInterface s (listing [([10, 0, 0, 5], 0)]).neighbors) [10, 0, 0, 5] ==
          [linkCostBroken] &&
        (processMessageNeighbors oneInterface s (fun _ => 0) 1 (listing [([10, 0, 0, 5], 0)])).any fun s' =>
          addrOf s' 2 == some [10, 0, 0, 5] &&
            (nblistOf s' 2).any fun y => y.neighbor == 1 && y.secondHopLinkcost == 1024) = true := by decide +kernel
  obtain ⟨s, hs, hrun⟩ := (Option.any_eq_true _ _).1 hrun
  rw [Bool.and_eq_true, Bool.and_eq_true, beq_iff_eq] at hrun
  obtain ⟨⟨hsome, hcosts⟩, hrun⟩ := hrun
  obtain ⟨f, hf⟩ := Option.isSome_iff_exists.1 hsome
  obtain ⟨s', hs', hrun⟩ := (Option.any_eq_true _ _).1 hrun
  rw [Bool.and_eq_true, beq_iff_eq, List.any_eq_true] at hrun
  obtain ⟨haddr, y, hy, hrun⟩ := hrun
  rw [Bool.and_eq_true, beq_iff_eq, beq_iff_eq] at hrun
  have hnone : olsrLookupTwoHopNeighborTable symNbh [10, 0, 0, 5] = none := by decide +kernel
  have hns : (foreignNeighbors oneInterface symNbh (listing [([10, 0, 0, 5], 255)]).neighbors).map
      HelloNeighbor.address = [[10, 0, 0, 5]] := by decide +kernel
  have hok : CrossOk oneInterface symNbh
      (.processMessageNeighbors (fun _ => 0) 1 (listing [([10, 0, 0, 5], 255)])) := by
    obtain ⟨m, hm, hmaddr⟩ := List.map_eq_singleton_iff.1 hns
    show Run.Rounds _ _ (foreignNeighbors oneInterface symNbh (listing [([10, 0, 0, 5], 255)]).neighbors) symNbh
    rw [hm]
    refine ⟨fun _ _ t te ht _ => ?_, fun _ _ => trivial⟩
    rw [hmaddr, hnone] at ht
    cases ht
  have hlink : ∃ l ∈ symNbh.links, l.neighbor = 1 := by decide +kernel
  refine ⟨s, .step (.processMessageNeighbors (fun _ => 0) 1 (listing [([10, 0, 0, 5], 255)])) reachable_symNbh
    ⟨hlink, hok⟩ hs, s', f, hs', hf, fun hpaths => ?_⟩
  have hmem : [10, 0, 0, 5] ∈ symAddrs (foreignNeighbors oneInterface s (listing [([10, 0, 0, 5], 0)]).neighbors) :=
    listedCosts_ne_nil.1 (by rw [hcosts]; exact List.cons_ne_nil _ _)
  obtain ⟨c, hc, -, hpath⟩ := hpaths.listed _ hmem trivial 2 haddr y hy hrun.1
  rw [hcosts, List.mem_singleton] at hc
  have hsecond := hpath.secondHop
  rw [hrun.2, hc] at hsecond
  exact absurd hsecond (by decide)

/-- 10.0.0.8 is known as an address of 10.0.0.6, and by itself as the main address of 10.0.0.9. The first two have one
hash. -/
def chainedMid : MidSet :=
  (emptyMidSet.register 0 0 [10, 0, 0, 6] [10, 0, 0, 8] 6000).register 0 0 [10, 0, 0, 8] [10, 0, 0, 9] 6000

/-- The node is listed under the first and under the last of these addresses. -/
def listsChained : HelloMessage := listing [([10, 0, 0, 6], 200), ([10, 0, 0, 9], 255)]

theorem chainedMid_leavesOther : ∃ s, Reachable oneInterface (CrossOk oneInterface) s ∧ LeavesOther s listsChained := by
  have hreach : Reachable oneInterface (CrossOk oneInterface) { symNbh with mid := chainedMid } :=
    .step (.changeMid chainedMid) reachable_symNbh ⟨trivial, trivial⟩ rfl
  obtain ⟨s, hs⟩ : ∃ s, s = { symNbh with mid := chainedMid } := ⟨_, rfl⟩
  have hrun : ((firstHopCost oneInterface { symNbh with mid := chainedMid } [10, 0, 0, 2]).isSome &&
      (symAddrs (foreignNeighbors oneInterface { symNbh with mid := chainedMid } listsChained.neighbors)).contains
        [10, 0, 0, 8] &&
      (processMessageNeighbors oneInterface { symNbh with mid := chainedMid } (fun _ => 0) 1 listsChained).any fun s' =>
        (s'.nbr2Table (olsrIpHashing [10, 0, 0, 8])).all fun t => addrOf s' t != some [10, 0, 0, 8]) = true := by
    decide +kernel
  have hn : (({ symNbh with mid := chainedMid } : Nbh).nbr 1).isSome = true := by decide +kernel
  rw [← hs] at hrun hreach hn
  rw [Bool.and_eq_true, Bool.and_eq_true, List.contains_iff_mem] at hrun
  obtain ⟨⟨hsome, hmem⟩, hrun⟩ := hrun
  obtain ⟨f, hf⟩ := Option.isSome_iff_exists.1 hsome
  obtain ⟨s', hs', hrun⟩ := (Option.any_eq_true _ _).1 hrun
  refine ⟨s, hreach, s', f, hs', hf, fun hpaths => ?_⟩
  have hlive : LinksLive s s.links := by
    intro l hl
    rw [hs] at hl ⊢
    exact linksLive_symNbh l hl
  have hwf' := (reachable_twoHopWf hreach).pathWf.of_processMessageNeighbors hlive (by decide) hn
    (listing_cost_le _) hs'
  obtain ⟨t, ht, -⟩ := hpaths.linked _ hmem trivial
  have hnot := List.all_eq_true.1 hrun t ((hwf'.queued t _).2 ⟨_, ht, rfl⟩)
  rw [ht] at hnot
  simp at hnot

/-- The path over a broken link keeps a second hop cost, and a node under chained addresses gets no path. -/
theorem not_pathCosts :
    (∃ s, Reachable oneInterface (CrossOk oneInterface) s ∧ LeavesOther s (listing [([10, 0, 0, 5], 0)])) ∧
      ∃ s, Reachable oneInterface (CrossOk oneInterface) s ∧ LeavesOther s listsChained :=
  ⟨brokenHop_leavesOther, chainedMid_leavesOther⟩

end Olsrd.Neighbor
