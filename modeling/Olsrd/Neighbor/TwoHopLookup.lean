/-
The lookup in the two hop table. An entry is queued under the hash of its own address, and looked up under the hash of
the address in question, so that a node is found by an alias only where both have one hash.
-/
import Olsrd.Neighbor.SoftState

namespace Olsrd.Neighbor

variable {env : Env} {s s' : Nbh} {a : IpAddr} {p q : Ptr}

/-! ## The table -/

/-- The entries are queued under the hashes of their addresses, and the next pointer is free. -/
structure TwoHopTable (s : Nbh) : Prop where
  queued : ∀ p b, p ∈ s.nbr2Table b ↔ ∃ m, addrOf s p = some m ∧ olsrIpHashing m = b
  fresh : ∀ p, s.fresh ≤ p → addrOf s p = none

theorem TwoHopTable.congr (h : TwoHopTable s) (haddr : ∀ p, addrOf s' p = addrOf s p)
    (htable : s'.nbr2Table = s.nbr2Table) (hfresh : s.fresh ≤ s'.fresh) : TwoHopTable s' where
  queued p b := by
    rw [htable, haddr]
    exact h.queued p b
  fresh p hp := (haddr p).trans (h.fresh p (hfresh.trans hp))

theorem twoHopTable_emptyNbh : TwoHopTable emptyNbh := by
  refine ⟨fun p b => iff_of_false List.not_mem_nil ?_, fun _ _ => rfl⟩
  rintro ⟨m, hm, -⟩
  cases hm

theorem addrOf_insertTwoHop (s : Nbh) (a : IpAddr) (p : Ptr) :
    addrOf (insertTwoHop s a).1 p = if p = s.fresh then some a else addrOf s p := by
  unfold addrOf insertTwoHop
  by_cases hp : p = s.fresh
  · subst hp
    simp
  · simp [hp]

theorem TwoHopTable.insertTwoHop (h : TwoHopTable s) (a : IpAddr) : TwoHopTable (insertTwoHop s a).1 where
  queued p b := by
    rw [addrOf_insertTwoHop]
    change p ∈ queueElem s.nbr2Table (olsrIpHashing a) s.fresh b ↔ _
    unfold queueElem
    have hnot : ∀ c, s.fresh ∉ s.nbr2Table c := by
      intro c hc
      obtain ⟨m, hm, -⟩ := (h.queued _ _).1 hc
      rw [h.fresh _ (le_refl _)] at hm
      cases hm
    by_cases hp : p = s.fresh
    · subst hp
      by_cases hb : b = olsrIpHashing a
      · subst hb
        simp
      · simp [hb, Ne.symm hb, hnot]
    · by_cases hb : b = olsrIpHashing a
      · subst hb
        simp [hp, h.queued]
      · simp [hb, hp, h.queued]
  fresh p hp := by
    rw [addrOf_insertTwoHop, if_neg (Nat.ne_of_gt hp)]
    exact h.fresh p (Nat.le_of_succ_le hp)

theorem TwoHopWf.twoHopTable (h : TwoHopWf s) : TwoHopTable s where
  queued p b := by
    rw [h.queued]
    unfold addrOf
    constructor
    · rintro ⟨te, hte, hb⟩
      exact ⟨te.addr, by rw [hte]; rfl, hb⟩
    · rintro ⟨m, hm, hb⟩
      obtain ⟨te, hte, rfl⟩ := Option.map_eq_some_iff.1 hm
      exact ⟨te, hte, hb⟩
  fresh p hp := by
    unfold addrOf
    rw [h.fresh p hp]
    rfl

/-! ## The lookup -/

/-- The node of an entry has the address, or is known to have it as an alias. -/
def KnownAs (s : Nbh) (p : Ptr) (a : IpAddr) : Prop :=
  ∃ m, addrOf s p = some m ∧ (m = a ∨ a ∈ midLookupAliases s.mid m)

theorem knownAs_iff : KnownAs s p a ↔
    ((s.nbr2 p).any fun t => t.addr == a || (midLookupAliases s.mid t.addr).contains a) = true := by
  unfold KnownAs addrOf
  cases s.nbr2 p with
  | none => simp
  | some t => simp

/-- The lookup finds an entry of the bucket that is known by the address. -/
theorem TwoHopTable.lookup_some (h : TwoHopTable s) (hq : olsrLookupTwoHopNeighborTable s a = some q) :
    KnownAs s q a ∧ ∃ m, addrOf s q = some m ∧ olsrIpHashing m = olsrIpHashing a :=
  ⟨knownAs_iff.2 (by simpa using List.find?_some hq), (h.queued q _).1 (List.mem_of_find?_eq_some hq)⟩

theorem TwoHopTable.lookup_none (h : TwoHopTable s) (hnone : olsrLookupTwoHopNeighborTable s a = none) {m : IpAddr}
    (hp : addrOf s p = some m) (hm : olsrIpHashing m = olsrIpHashing a) : ¬KnownAs s p a := by
  rw [knownAs_iff]
  exact List.find?_eq_none.1 hnone p ((h.queued p _).2 ⟨m, hp, hm⟩)

/-! ## HELLO messages -/

/-- Entries keep their addresses, and no entry comes for an address whose bucket has one that is known by it. -/
structure Grows (s s' : Nbh) : Prop where
  mid : s'.mid = s.mid
  kept : ∀ p m, addrOf s p = some m → addrOf s' p = some m
  new : ∀ q m, addrOf s' q = some m → addrOf s q = some m ∨
    ∀ p k, KnownAs s p m → addrOf s p = some k → olsrIpHashing k ≠ olsrIpHashing m

theorem Grows.of_eq (hmid : s'.mid = s.mid) (h : ∀ p, addrOf s' p = addrOf s p) : Grows s s' :=
  ⟨hmid, fun p _ hp => (h p).trans hp, fun q _ hq => .inl ((h q).symm.trans hq)⟩

theorem Grows.knownAs (h : Grows s s') (hp : KnownAs s p a) : KnownAs s' p a := by
  obtain ⟨m, hm, halias⟩ := hp
  refine ⟨m, h.kept p m hm, ?_⟩
  rw [h.mid]
  exact halias

theorem Grows.trans {s₁ s₂ s₃ : Nbh} (h : Grows s₁ s₂) (h' : Grows s₂ s₃) : Grows s₁ s₃ := by
  refine ⟨h'.mid.trans h.mid, fun p m hp => h'.kept p m (h.kept p m hp), fun q m hq => ?_⟩
  rcases h'.new q m hq with hq | hnew
  · exact h.new q m hq
  · exact .inr fun p k hp hk => hnew p k (h.knownAs hp) (h.kept p k hk)

theorem grows_insertTwoHop (h : TwoHopTable s) (hnone : olsrLookupTwoHopNeighborTable s a = none) :
    Grows s (insertTwoHop s a).1 := by
  refine ⟨rfl, fun p m hp => ?_, fun q m hq => ?_⟩
  · rw [addrOf_insertTwoHop, if_neg]
    · exact hp
    · rintro rfl
      rw [h.fresh _ (le_refl _)] at hp
      cases hp
  · rw [addrOf_insertTwoHop] at hq
    split at hq
    · obtain rfl := Option.some.inj hq
      exact .inr fun p k hp hk hhash => h.lookup_none hnone hk hhash hp
    · exact .inl hq

theorem linkingThis2Entries_addrs {n t : Ptr} {vtime : Nat} (h : linkingThis2Entries s n t vtime = some s') :
    (∀ p, addrOf s' p = addrOf s p) ∧ s'.nbr2Table = s.nbr2Table ∧ s.fresh ≤ s'.fresh := by
  obtain ⟨te, hte, h⟩ := Option.bind_eq_some_iff.1 h
  obtain ⟨e, -, h⟩ := Option.bind_eq_some_iff.1 h
  obtain rfl := Option.some.inj h
  refine ⟨fun p => ?_, rfl, Nat.le_succ _⟩
  unfold addrOf Nbh.allocated Nbh.setNbr Nbh.setNbr2 Neighbor2Entry.link
  by_cases hp : p = t
  · subst hp
    simp [hte]
  · simp [hp]

/-- A neighbour that a HELLO message lists. -/
theorem TwoHopTable.processNeighbor (h : TwoHopTable s) {random : Ptr → Nat} {n : Ptr} {vtime : Nat}
    {m : HelloNeighbor} (hs : processNeighbor env random n vtime s m = some s') : TwoHopTable s' ∧ Grows s s' := by
  have hmid := (twoHopOnly_processNeighbor hs).mid
  rcases processNeighbor_cases hs with ⟨-, rfl⟩ | ⟨hsym, ⟨x, -, hrefresh⟩ | hno⟩
  · exact ⟨h, .of_eq rfl fun _ => rfl⟩
  · have hsame := sameHops_refresh hrefresh
    exact ⟨h.congr hsame.addrOf hsame.nbr2Table hsame.fresh, .of_eq hmid hsame.addrOf⟩
  · unfold Neighbor.processNeighbor at hs
    rw [if_pos hsym, hno] at hs
    cases hl : olsrLookupTwoHopNeighborTable s m.address with
    | some t =>
      simp only [hl] at hs
      obtain ⟨haddr, htable, hfresh⟩ := linkingThis2Entries_addrs hs
      exact ⟨h.congr haddr htable hfresh, .of_eq hmid haddr⟩
    | none =>
      simp only [hl] at hs
      obtain ⟨haddr, htable, hfresh⟩ := linkingThis2Entries_addrs hs
      exact ⟨(h.insertTwoHop m.address).congr haddr htable hfresh, (grows_insertTwoHop h hl).trans (.of_eq hmid haddr)⟩

theorem TwoHopTable.processMessageNeighbors (h : TwoHopTable s) {random : Ptr → Nat} {n : Ptr}
    {message : HelloMessage} (hs : processMessageNeighbors env s random n message = some s') : Grows s s' := by
  have hmid := (twoHopOnly_processMessageNeighbors hs).mid
  obtain ⟨s₁, h₁, hsame, -⟩ := processMessageNeighbors_cases hs
  have hloop : TwoHopTable s₁ ∧ Grows s s₁ := by
    refine Run.forEach_invariant (P := fun r => TwoHopTable r ∧ Grows s r) ?_ ⟨h, .of_eq rfl fun _ => rfl⟩ h₁
    intro r x r' _ hr hstep
    obtain ⟨ht, hg⟩ := hr.1.processNeighbor hstep
    exact ⟨ht, hr.2.trans hg⟩
  exact hloop.2.trans (.of_eq (hmid.trans hloop.2.mid.symm) hsame.addrOf)

/-! ## Any address -/

/-- The lookup finds an entry for an address if and only if there is one, and no HELLO message brings an entry under the
address for a node that has an entry. -/
structure FoundByAny (env : Env) (s : Nbh) (a : IpAddr) : Prop where
  found : ∀ p, KnownAs s p a → ∃ q, olsrLookupTwoHopNeighborTable s a = some q ∧ KnownAs s q a
  null : olsrLookupTwoHopNeighborTable s a = none → ∀ p, ¬KnownAs s p a
  noSecond : ∀ random n message s', processMessageNeighbors env s random n message = some s' →
    ∀ p q, KnownAs s p a → addrOf s' q = some a → addrOf s q = some a

/-- If there is an entry for the address, then also one whose own address has the same hash. -/
def SameHash (s : Nbh) (a : IpAddr) : Prop :=
  ∀ p, KnownAs s p a → ∃ q m, KnownAs s q a ∧ addrOf s q = some m ∧ olsrIpHashing m = olsrIpHashing a

theorem foundByAny_iff (env : Env) (s : Nbh) (a : IpAddr) (h : TwoHopTable s) : FoundByAny env s a ↔ SameHash s a := by
  constructor
  · intro hany p hp
    obtain ⟨q, hq, hknown⟩ := hany.found p hp
    obtain ⟨-, m, hm, hhash⟩ := h.lookup_some hq
    exact ⟨q, m, hknown, hm, hhash⟩
  · intro hsame
    have hnull : olsrLookupTwoHopNeighborTable s a = none → ∀ p, ¬KnownAs s p a := by
      intro hnone p hp
      obtain ⟨q, m, hknown, hm, hhash⟩ := hsame p hp
      exact h.lookup_none hnone hm hhash hknown
    refine ⟨fun p hp => ?_, hnull, fun random n message s' hs p q hp hq => ?_⟩
    · obtain ⟨q, hq⟩ := Option.ne_none_iff_exists'.1 fun hnone => hnull hnone p hp
      exact ⟨q, hq, (h.lookup_some hq).1⟩
    · rcases (h.processMessageNeighbors hs).new q a hq with hq | hnew
      · exact hq
      · obtain ⟨r, k, hknown, hk, hhash⟩ := hsame p hp
        exact absurd hhash (hnew r k hknown hk)

/-- Under its own address a node is always found. -/
theorem sameHash_of_addr (hp : addrOf s p = some a) : SameHash s a :=
  fun _ _ => ⟨p, a, ⟨a, hp, .inl rfl⟩, hp, rfl⟩

/-- 10.0.0.9 is a two hop neighbour, and 10.0.0.2 is known as one of its addresses. -/
def aliasedHop : Nbh :=
  (insertTwoHop { emptyNbh with mid := emptyMidSet.register 0 0 [10, 0, 0, 9] [10, 0, 0, 2] 6000 } [10, 0, 0, 9]).1

theorem twoHopTable_aliasedHop : TwoHopTable aliasedHop := by
  refine TwoHopTable.insertTwoHop ?_ [10, 0, 0, 9]
  exact twoHopTable_emptyNbh.congr (fun _ => rfl) rfl (le_refl _)

theorem foundByAny_aliasedHop : FoundByAny oneInterface aliasedHop [10, 0, 0, 9] :=
  (foundByAny_iff oneInterface aliasedHop [10, 0, 0, 9] twoHopTable_aliasedHop).2
    (sameHash_of_addr (p := 0) (by decide +kernel))

/-- The two addresses have different hashes. -/
theorem not_foundByAny_aliasedHop : TwoHopTable aliasedHop ∧ ¬FoundByAny oneInterface aliasedHop [10, 0, 0, 2] := by
  refine ⟨twoHopTable_aliasedHop, fun hany => ?_⟩
  have hnull : olsrLookupTwoHopNeighborTable aliasedHop [10, 0, 0, 2] = none := by decide +kernel
  have hknown : KnownAs aliasedHop 0 [10, 0, 0, 2] := knownAs_iff.2 (by decide +kernel)
  exact hany.null hnull 0 hknown

end Olsrd.Neighbor
