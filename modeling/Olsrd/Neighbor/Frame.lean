/-
What the operations on the neighbourhood leave alone. The two hop side changes nothing else, and every
other operation is one on the two hop side followed by a change of a few fields.
-/
import Olsrd.Neighbor.Hello

namespace Olsrd.Neighbor

variable {env : Env} {s s' : Nbh}

/-! ## The two hop side -/

/-- A neighbour entry without its two hop links. -/
def NeighborEntry.core (e : NeighborEntry) : IpAddr × Bool × Nat × Int :=
  (e.mainAddr, e.sym, e.willingness, e.linkcount)

/-- Only two hop entries and two hop links change. -/
structure TwoHopOnly (s s' : Nbh) : Prop where
  nbr : ∀ p, (s'.nbr p).map NeighborEntry.core = (s.nbr p).map NeighborEntry.core
  nbrTable : s'.nbrTable = s.nbrTable
  links : s'.links = s.links
  mid : s'.mid = s.mid
  now : s'.now = s.now
  fresh : s.fresh ≤ s'.fresh
  linkChanges : s'.linkChanges = s.linkChanges

namespace TwoHopOnly

theorem refl (s : Nbh) : TwoHopOnly s s := ⟨fun _ => rfl, rfl, rfl, rfl, rfl, le_refl _, rfl⟩

theorem trans {s'' : Nbh} (h : TwoHopOnly s s') (h' : TwoHopOnly s' s'') : TwoHopOnly s s'' :=
  ⟨fun p => (h'.nbr p).trans (h.nbr p), h'.nbrTable.trans h.nbrTable, h'.links.trans h.links, h'.mid.trans h.mid,
    h'.now.trans h.now, h.fresh.trans h'.fresh, h'.linkChanges.trans h.linkChanges⟩

theorem setNbr {p : Ptr} {e : NeighborEntry} (he : s.nbr p = some e) (l : List Nbr2ListEntry) :
    TwoHopOnly s (s.setNbr p { e with nbr2List := l }) := by
  refine ⟨fun q => ?_, rfl, rfl, rfl, rfl, le_refl _, rfl⟩
  by_cases hq : q = p
  · subst hq; simp [Nbh.setNbr, he, NeighborEntry.core]
  · simp [Nbh.setNbr, Function.update_of_ne hq]

theorem allocated (s : Nbh) : TwoHopOnly s s.allocated := ⟨fun _ => rfl, rfl, rfl, rfl, rfl, Nat.le_succ _, rfl⟩

theorem changed (s : Nbh) : TwoHopOnly s s.changed := ⟨fun _ => rfl, rfl, rfl, rfl, rfl, le_refl _, rfl⟩

theorem setNbr2 (s : Nbh) (p : Ptr) (t : Neighbor2Entry) : TwoHopOnly s (s.setNbr2 p t) :=
  ⟨fun _ => rfl, rfl, rfl, rfl, rfl, le_refl _, rfl⟩

theorem freeNbr2 (s : Nbh) (p : Ptr) : TwoHopOnly s (s.freeNbr2 p) := ⟨fun _ => rfl, rfl, rfl, rfl, rfl, le_refl _, rfl⟩

/-- An entry is there afterwards if and only if it was there before, with the same core. -/
theorem exists_nbr (h : TwoHopOnly s s') {p : Ptr} {e : NeighborEntry} (he : s.nbr p = some e) :
    ∃ e', s'.nbr p = some e' ∧ e'.core = e.core := by
  have hp := h.nbr p
  rw [he, Option.map_some, Option.map_eq_some_iff] at hp
  exact hp

theorem isNone_nbr (h : TwoHopOnly s s') {p : Ptr} : s'.nbr p = none ↔ s.nbr p = none := by
  rw [← Option.map_eq_none_iff (f := NeighborEntry.core), h.nbr, Option.map_eq_none_iff]

end TwoHopOnly

theorem twoHopOnly_delNbr2List {x : Nbr2ListEntry} (h : olsrDelNbr2List s x = some s') : TwoHopOnly s s' := by
  obtain ⟨t, -, h⟩ := Option.bind_eq_some_iff.1 h
  obtain ⟨e, he, h⟩ := Option.bind_eq_some_iff.1 h
  obtain rfl := Option.some.inj h
  split at he
  · rename_i hlt
    rw [if_pos hlt]
    exact (TwoHopOnly.freeNbr2 s x.neighbor2).trans ((TwoHopOnly.setNbr he _).trans (.changed _))
  · rename_i hlt
    rw [if_neg hlt]
    exact (TwoHopOnly.setNbr he _).trans (.changed _)

theorem twoHopOnly_deleteNeighbor2Pointer {n t : Ptr} (h : olsrDeleteNeighbor2Pointer s n t = some s') :
    TwoHopOnly s s' := by
  obtain ⟨e, -, h⟩ := Option.bind_eq_some_iff.1 h
  split at h
  · obtain rfl := Option.some.inj h; exact .refl s
  · exact twoHopOnly_delNbr2List h

theorem twoHopOnly_unlinkNbr2 {n : Ptr} {x : Nbr2ListEntry} (h : unlinkNbr2 n s x = some s') : TwoHopOnly s s' := by
  obtain ⟨s₁, h₁, h⟩ := Option.bind_eq_some_iff.1 h
  obtain ⟨s₂, h₂, h⟩ := Option.bind_eq_some_iff.1 h
  obtain ⟨t, -, h₁⟩ := Option.bind_eq_some_iff.1 h₁
  obtain ⟨t', -, h₂⟩ := Option.bind_eq_some_iff.1 h₂
  obtain rfl := Option.some.inj h₁
  obtain rfl := Option.some.inj h₂
  exact (TwoHopOnly.setNbr2 s _ _).trans ((TwoHopOnly.setNbr2 _ _ _).trans (twoHopOnly_delNbr2List h))

theorem twoHopOnly_forEach {α : Type} {body : Nbh → α → Option Nbh}
    (hbody : ∀ s a s', body s a = some s' → TwoHopOnly s s') {l : List α} (h : Run.forEach body l s = some s') :
    TwoHopOnly s s' :=
  Run.forEach_relation TwoHopOnly.refl (fun _ _ _ => TwoHopOnly.trans) hbody h

theorem twoHopOnly_deleteTwoHop {p : Ptr} (h : olsrDeleteTwoHopNeighborTable s p = some s') : TwoHopOnly s s' := by
  obtain ⟨t, -, h⟩ := Option.bind_eq_some_iff.1 h
  obtain ⟨s₁, h₁, h⟩ := Option.bind_eq_some_iff.1 h
  obtain ⟨t', -, h⟩ := Option.bind_eq_some_iff.1 h
  obtain rfl := Option.some.inj h
  exact (twoHopOnly_forEach (fun _ _ _ => twoHopOnly_deleteNeighbor2Pointer) h₁).trans (.freeNbr2 _ _)

theorem twoHopOnly_deleteTwoHopIfAny {o : Option Ptr} (h : deleteTwoHopIfAny s o = some s') : TwoHopOnly s s' := by
  cases o with
  | none => obtain rfl := Option.some.inj h; exact .refl s
  | some p => exact twoHopOnly_deleteTwoHop h

theorem twoHopOnly_insertTwoHop (s : Nbh) (addr : IpAddr) : TwoHopOnly s (insertTwoHop s addr).1 :=
  ⟨fun _ => rfl, rfl, rfl, rfl, rfl, Nat.le_succ _, rfl⟩

theorem twoHopOnly_linking {n t : Ptr} {vtime : Nat} (h : linkingThis2Entries s n t vtime = some s') :
    TwoHopOnly s s' := by
  obtain ⟨t', -, h⟩ := Option.bind_eq_some_iff.1 h
  obtain ⟨e, he, h⟩ := Option.bind_eq_some_iff.1 h
  obtain rfl := Option.some.inj h
  exact (TwoHopOnly.setNbr2 s t (t'.link n)).trans ((TwoHopOnly.setNbr he _).trans (.allocated _))

theorem twoHopOnly_updateNblist {n t : Ptr} {f : NbListEntry → NbListEntry} (h : updateNblist s n t f = some s') :
    TwoHopOnly s s' := by
  obtain ⟨t', -, h⟩ := Option.bind_eq_some_iff.1 h
  obtain rfl := Option.some.inj h
  exact .setNbr2 s _ _

theorem twoHopOnly_refresh {random : Ptr → Nat} {n : Ptr} {x : Nbr2ListEntry} {vtime : Nat}
    (h : refreshNbr2 env s random n x vtime = some s') : TwoHopOnly s s' := by
  obtain ⟨e, he, h⟩ := Option.bind_eq_some_iff.1 h
  have hset := TwoHopOnly.setNbr he (refreshTimer s.now (random x.id) vtime x.id e.nbr2List)
  refine hset.trans ?_
  dsimp only at h
  split at h
  · exact twoHopOnly_updateNblist h
  · obtain rfl := Option.some.inj h; exact .refl _

theorem twoHopOnly_processNeighbor {random : Ptr → Nat} {n : Ptr} {vtime : Nat} {m : HelloNeighbor}
    (h : processNeighbor env random n vtime s m = some s') : TwoHopOnly s s' := by
  unfold processNeighbor at h
  split at h
  · obtain ⟨o, -, h⟩ := Option.bind_eq_some_iff.1 h
    cases o with
    | some x => exact twoHopOnly_refresh h
    | none =>
      dsimp only at h
      split at h
      · exact (TwoHopOnly.changed s).trans (twoHopOnly_linking h)
      · exact (twoHopOnly_insertTwoHop s _).trans ((TwoHopOnly.changed _).trans (twoHopOnly_linking h))
  · obtain rfl := Option.some.inj h; exact .refl s

theorem twoHopOnly_processCost {n : Ptr} {firstHop : UInt32} {m : HelloNeighbor}
    (h : processCost env n firstHop s m = some s') : TwoHopOnly s s' := by
  unfold processCost at h
  split at h
  · obtain ⟨o, -, h⟩ := Option.bind_eq_some_iff.1 h
    cases o with
    | none => obtain rfl := Option.some.inj h; exact .refl s
    | some x =>
      obtain ⟨t, -, h⟩ := Option.bind_eq_some_iff.1 h
      obtain ⟨s₁, h₁, h⟩ := Option.bind_eq_some_iff.1 h
      obtain rfl := Option.some.inj h
      refine (twoHopOnly_updateNblist h₁).trans ?_
      split
      · exact .changed _
      · exact .refl _
  · obtain rfl := Option.some.inj h; exact .refl s

theorem twoHopOnly_processMessageNeighbors {random : Ptr → Nat} {n : Ptr} {message : HelloMessage}
    (h : processMessageNeighbors env s random n message = some s') : TwoHopOnly s s' := by
  obtain ⟨s₁, h₁, h⟩ := Option.bind_eq_some_iff.1 h
  have hfirst := twoHopOnly_forEach (fun _ _ _ => twoHopOnly_processNeighbor) h₁
  refine hfirst.trans ?_
  split at h
  · obtain ⟨e, -, h⟩ := Option.bind_eq_some_iff.1 h
    obtain ⟨o, -, h⟩ := Option.bind_eq_some_iff.1 h
    cases o with
    | none => obtain rfl := Option.some.inj h; exact .refl _
    | some l => exact twoHopOnly_forEach (fun _ _ _ => twoHopOnly_processCost) h
  · obtain rfl := Option.some.inj h; exact .refl _

/-! ## What the other operations can do -/

theorem setNbr_self {p : Ptr} {e : NeighborEntry} (he : s.nbr p = some e) : s.setNbr p e = s := by
  unfold Nbh.setNbr; rw [← he, Function.update_eq_self]

theorem deleteNeighborTable_cases {a : IpAddr} (h : olsrDeleteNeighborTable s a = some s') :
    (olsrLookupNeighborTableAlias s a = none ∧ s' = s) ∨
    ∃ p s₁, olsrLookupNeighborTableAlias s a = some p ∧ TwoHopOnly s s₁ ∧
      s' = { s₁.freeNbr p with changesNeighborhood := true } := by
  unfold olsrDeleteNeighborTable at h
  cases hp : olsrLookupNeighborTableAlias s a with
  | none => rw [hp] at h; exact .inl ⟨rfl, (Option.some.inj h).symm⟩
  | some p =>
    rw [hp] at h
    obtain ⟨e, -, h⟩ := Option.bind_eq_some_iff.1 h
    obtain ⟨s₁, h₁, h⟩ := Option.bind_eq_some_iff.1 h
    exact .inr ⟨p, s₁, rfl, twoHopOnly_forEach (fun _ _ _ => twoHopOnly_unlinkNbr2) h₁, (Option.some.inj h).symm⟩

/-- Besides the two hop side, the status and the flag for it change. -/
theorem updateNeighborStatus_cases {p : Ptr} {lnk : LinkStatus} (h : updateNeighborStatus env s p lnk = some s') :
    ∃ s₁ e e₁, TwoHopOnly s s₁ ∧ s.nbr p = some e ∧ s₁.nbr p = some e₁ ∧
      s' = { s₁.setNbr p { e₁ with sym := decide (lnk = .sym) } with
        linkChanges := s.linkChanges || (decide (env.tcRedundancy > 1) && (e.sym != decide (lnk = .sym))) } := by
  obtain ⟨e, he, h⟩ := Option.bind_eq_some_iff.1 h
  by_cases hlnk : lnk = .sym
  · rw [if_pos hlnk] at h
    cases hsym : e.sym with
    | true =>
      rw [hsym, if_pos rfl] at h
      obtain rfl := Option.some.inj h
      refine ⟨s, e, e, .refl s, he, he, ?_⟩
      have heq : ({ e with sym := decide (lnk = .sym) } : NeighborEntry) = e := by
        cases e; simp_all
      rw [heq, setNbr_self he, hsym, hlnk]
      simp
    | false =>
      rw [hsym, if_neg (by simp)] at h
      obtain ⟨s₁, h₁, h⟩ := Option.bind_eq_some_iff.1 h
      obtain ⟨e₁, he₁, h⟩ := Option.bind_eq_some_iff.1 h
      obtain rfl := Option.some.inj h
      have hdel : TwoHopOnly s s₁ := twoHopOnly_deleteTwoHopIfAny h₁
      have he₁' : s₁.changed.nbr p = some e₁ := by
        unfold signalLinkChanges at he₁
        split at he₁ <;> exact he₁
      refine ⟨s₁.changed, e, e₁, hdel.trans (.changed _), he, he₁', ?_⟩
      have hsame := hdel.linkChanges
      unfold signalLinkChanges
      by_cases htc : env.tcRedundancy > 1
      · simp [hlnk, hsym, htc, Nbh.setNbr]
      · simp [hlnk, hsym, htc, Nbh.setNbr, Nbh.changed, ← hsame]
  · rw [if_neg hlnk] at h
    obtain rfl := Option.some.inj h
    cases hsym : e.sym with
    | true =>
      refine ⟨s.changed, e, e, .changed s, he, he, ?_⟩
      unfold signalLinkChanges
      by_cases htc : env.tcRedundancy > 1
      · simp [hlnk, htc, hsym, Nbh.setNbr]
      · simp [hlnk, htc, Nbh.setNbr, Nbh.changed]
    | false =>
      refine ⟨s, e, e, .refl s, he, he, ?_⟩
      simp [hlnk, hsym, Nbh.setNbr]

/-- An entry under its new main address. -/
def rekeyed (s : Nbh) (p : Ptr) (e : NeighborEntry) (a : IpAddr) : Nbh :=
  { s.setNbr p { e with mainAddr := a } with
    nbrTable := queueElem (dequeueElem s.nbrTable p) (olsrIpHashing a) p }

theorem lookupLinkEntry_cases {remote remoteMain : IpAddr} {ifc : Interface} {o : Option LinkEntry}
    (h : lookupLinkEntry s remote remoteMain ifc = some (s', o)) : o = findLink s remote ifc ∧
    ((s' = s ∧ ∀ l, o = some l → ∃ e, s.nbr l.neighbor = some e ∧ e.mainAddr = remoteMain) ∨
      ∃ l e, o = some l ∧ s.nbr l.neighbor = some e ∧ e.mainAddr ≠ remoteMain ∧
        s' = rekeyed s l.neighbor e remoteMain) := by
  unfold lookupLinkEntry at h
  cases hl : findLink s remote ifc with
  | none =>
    rw [hl] at h
    obtain ⟨rfl, rfl⟩ := Prod.mk.inj (Option.some.inj h)
    exact ⟨rfl, .inl ⟨rfl, by simp⟩⟩
  | some l =>
    rw [hl] at h
    obtain ⟨e, he, h⟩ := Option.bind_eq_some_iff.1 h
    obtain ⟨s₁, h₁, h⟩ := Option.bind_eq_some_iff.1 h
    obtain ⟨rfl, rfl⟩ := Prod.mk.inj (Option.some.inj h)
    refine ⟨rfl, ?_⟩
    unfold checkMainAddr at h₁
    by_cases hmain : e.mainAddr = remoteMain
    · rw [if_pos hmain] at h₁
      refine .inl ⟨(Option.some.inj h₁).symm, ?_⟩
      rintro l' hl'
      obtain rfl := Option.some.inj hl'
      exact ⟨e, he, hmain⟩
    · rw [if_neg hmain] at h₁
      obtain ⟨e', he', h₁⟩ := Option.bind_eq_some_iff.1 h₁
      obtain rfl := Option.some.inj (he.symm.trans he')
      exact .inr ⟨l, e, rfl, he, hmain, (Option.some.inj h₁).symm⟩

/-- A new entry for `a`. -/
def inserted (s : Nbh) (a : IpAddr) : Nbh :=
  { s with
    nbr := Function.update s.nbr s.fresh (some (newNeighborEntry a))
    nbrTable := queueElem s.nbrTable (olsrIpHashing a) s.fresh
    fresh := s.fresh + 1 }

theorem insertNeighborTable_cases (s : Nbh) (a : IpAddr) :
    (∃ p, olsrLookupNeighborTableAlias s a = some p ∧ olsrInsertNeighborTable s a = (s, p)) ∨
      (olsrLookupNeighborTableAlias s a = none ∧ olsrInsertNeighborTable s a = (inserted s a, s.fresh)) := by
  unfold olsrInsertNeighborTable
  cases hp : olsrLookupNeighborTableAlias s a with
  | some p => exact .inl ⟨p, rfl, rfl⟩
  | none => exact .inr ⟨rfl, rfl⟩

theorem neighborFor_cases (s : Nbh) (a : IpAddr) :
    (∃ p b, olsrLookupNeighborTableAlias s b = some p ∧ neighborFor s a = (s, p)) ∨
      (olsrLookupNeighborTableAlias s a = none ∧ neighborFor s a = (inserted s a, s.fresh)) := by
  unfold neighborFor olsrLookupNeighborTable
  cases hp : olsrLookupNeighborTableAlias s (midMainAddr s.mid a) with
  | some p => exact .inl ⟨p, _, hp, rfl⟩
  | none =>
    rcases insertNeighborTable_cases s a with ⟨p, hp', heq⟩ | ⟨hp', heq⟩
    · exact .inl ⟨p, a, hp', heq⟩
    · exact .inr ⟨hp', heq⟩

theorem addLinkEntry_cases {random : Nat} {localAddr remote remoteMain : IpAddr} {vtime : Nat} {ifc : Interface}
    {l : LinkEntry} (h : addLinkEntry s random localAddr remote remoteMain vtime ifc = some (s', l)) :
    lookupLinkEntry s remote remoteMain ifc = some (s', some l) ∨
    (findLink s remote ifc = none ∧ ∃ s₁ p e, neighborFor s.allocated remoteMain = (s₁, p) ∧ s₁.nbr p = some e ∧
      l = newLinkEntry s.fresh s.now random localAddr remote ifc p vtime ∧
      s' = { s₁.setNbr p { e with linkcount := e.linkcount + 1 } with links := s.links ++ [l] }) := by
  obtain ⟨⟨s₁, o⟩, h₁, h₂⟩ := Option.bind_eq_some_iff.1 h
  cases o with
  | some l' =>
    obtain ⟨rfl, rfl⟩ := Prod.mk.inj (Option.some.inj h₂)
    exact .inl h₁
  | none =>
    obtain ⟨hfind, hcases⟩ := lookupLinkEntry_cases h₁
    have hs₁ : s₁ = s := by
      rcases hcases with ⟨heq, -⟩ | ⟨l', e, hl', -⟩
      · exact heq
      · cases hl'
    subst hs₁
    obtain ⟨e, he, h₃⟩ := Option.bind_eq_some_iff.1 h₂
    obtain ⟨rfl, rfl⟩ := Prod.mk.inj (Option.some.inj h₃)
    exact .inr ⟨hfind.symm, _, _, e, rfl, he, rfl, rfl⟩

theorem deleteLinkEntry_cases {l : LinkEntry} (h : olsrDeleteLinkEntry s l = some s') :
    ∃ e s₁, s.nbr l.neighbor = some e ∧
      s' = { s₁ with links := s₁.links.filter (fun l' => l'.id != l.id), changesNeighborhood := true } ∧
      ((e.linkcount = 1 ∧ olsrDeleteNeighborTable s e.mainAddr = some s₁) ∨
        (e.linkcount ≠ 1 ∧ s₁ = s.setNbr l.neighbor { e with linkcount := e.linkcount - 1 })) := by
  obtain ⟨e, he, h⟩ := Option.bind_eq_some_iff.1 h
  obtain ⟨s₁, h₁, h⟩ := Option.bind_eq_some_iff.1 h
  refine ⟨e, s₁, he, (Option.some.inj h).symm, ?_⟩
  unfold releaseNeighbor at h₁
  split at h₁
  · exact .inl ⟨‹_›, h₁⟩
  · exact .inr ⟨‹_›, (Option.some.inj h₁).symm⟩

theorem links_deleteLinkEntry {l : LinkEntry} (h : olsrDeleteLinkEntry s l = some s') :
    s'.links = s.links.filter fun l' => l'.id != l.id := by
  obtain ⟨e, s₁, -, rfl, ⟨-, h₁⟩ | ⟨-, rfl⟩⟩ := deleteLinkEntry_cases h
  · have hlinks : s₁.links = s.links := by
      rcases deleteNeighborTable_cases h₁ with ⟨-, rfl⟩ | ⟨p, s₂, -, h₂, rfl⟩
      · rfl
      · exact h₂.links
    change s₁.links.filter _ = _
    rw [hlinks]
  · rfl

theorem replaceNeighbor_cases {m a : IpAddr} (h : replaceNeighbor s m a = some s') :
    (olsrLookupNeighborTableAlias s a = none ∧ s' = s) ∨
    ∃ old s₁ mid, olsrLookupNeighborTableAlias s a = some old ∧ olsrDeleteNeighborTable s a = some s₁ ∧
      s' = { replaceNeighborLinkSet (olsrInsertNeighborTable s₁ m).1 old (olsrInsertNeighborTable s₁ m).2 with
        mid := mid } := by
  unfold replaceNeighbor at h
  cases hold : olsrLookupNeighborTableAlias s a with
  | none => rw [hold] at h; exact .inl ⟨rfl, (Option.some.inj h).symm⟩
  | some old =>
    rw [hold] at h
    obtain ⟨s₁, h₁, h⟩ := Option.bind_eq_some_iff.1 h
    refine .inr ⟨old, s₁, ?_⟩
    dsimp only at h
    split at h
    · exact ⟨_, rfl, h₁, (Option.some.inj h).symm⟩
    · exact ⟨_, rfl, h₁, (Option.some.inj h).symm⟩

/-- The two hop entry of an alias goes, and then its neighbour entry. -/
theorem mergeAlias_cases {m a : IpAddr} (h : mergeAlias m s a = some s') :
    ∃ s₁ b, deleteTwoHopIfAny s (olsrLookupTwoHopNeighborTableMid s a) = some s₁ ∧
      s' = mergeNeighbors { s₁ with changesNeighborhood := b } (olsrLookupNeighborTableAlias s₁ a)
        (olsrLookupNeighborTableAlias s₁ m) := by
  obtain ⟨s₁, h₁, h⟩ := Option.bind_eq_some_iff.1 h
  refine ⟨s₁, (olsrLookupTwoHopNeighborTableMid s a).isSome || s₁.changesNeighborhood, h₁, ?_⟩
  obtain rfl := Option.some.inj h
  cases olsrLookupTwoHopNeighborTableMid s a with
  | none => rfl
  | some p => rfl

theorem mergeNeighbors_cases (s : Nbh) (o o' : Option Ptr) : mergeNeighbors s o o' = s ∨
    ∃ tmp real, o = some tmp ∧ o' = some real ∧
      mergeNeighbors s o o' = { (replaceNeighborLinkSet s tmp real).freeNbr tmp with changesNeighborhood := true } := by
  cases o with
  | none => exact .inl rfl
  | some tmp =>
    cases o' with
    | none => exact .inl rfl
    | some real => exact .inr ⟨tmp, real, rfl, rfl, rfl⟩

theorem insertMidTuple_cases {random : Nat} {m a : IpAddr} {vtime : Nat}
    (h : insertMidTuple s random m a vtime = some s') : s' = s ∨ (midLookupMainAddr s.mid a ≠ some m ∧
    Run.forEach (mergeAlias m) (a :: midLookupAliases s.mid m) { s with mid := s.mid.register s.now random m a vtime } =
      some s') := by
  unfold insertMidTuple at h
  split at h
  · exact .inl (Option.some.inj h).symm
  · exact .inr ⟨‹_›, h⟩

theorem insertMidAlias_cases {random : Nat} {m a : IpAddr} {vtime : Nat}
    (h : insertMidAlias env s random m a vtime = some s') : s' = s ∨
    ∃ s₁ s₂, replaceNeighbor s m a = some s₁ ∧ insertMidTuple s₁ random m a vtime = some s₂ ∧ s' = s₂.changed := by
  unfold insertMidAlias at h
  split at h
  · exact .inl (Option.some.inj h).symm
  · obtain ⟨s₁, h₁, h⟩ := Option.bind_eq_some_iff.1 h
    obtain ⟨s₂, h₂, h⟩ := Option.bind_eq_some_iff.1 h
    exact .inr ⟨s₁, s₂, h₁, h₂, (Option.some.inj h).symm⟩

/-- A link is found or created, sensed, and the status of its neighbour updated. -/
theorem helloLink_cases {h : HelloInput} {x : Nbh × Ptr} (hstep : helloLink env s h = some x) :
    ∃ s₁ l, addLinkEntry s (h.random 0) h.inIf.ipAddr h.fromAddr h.message.sourceAddr h.message.vtime h.inIf =
        some (s₁, l) ∧
      updateNeighborStatus env (s₁.updateLink l.id (sensedLink s₁.now (h.random 0) h.message h.inIf h.hyst)) l.neighbor
        (getNeighborStatus env (s₁.updateLink l.id (sensedLink s₁.now (h.random 0) h.message h.inIf h.hyst))
          h.fromAddr) = some x.1 ∧ x.2 = l.id := by
  obtain ⟨⟨s₁, l⟩, h₁, hstep⟩ := Option.bind_eq_some_iff.1 hstep
  obtain ⟨s₂, h₂, hstep⟩ := Option.bind_eq_some_iff.1 hstep
  obtain rfl := Option.some.inj hstep
  exact ⟨s₁, l, h₁, h₂, rfl⟩

theorem setWillingness_cases {p : Ptr} {w : Nat} (h : setWillingness s p w = some s') : s' = s ∨
    ∃ e, s.nbr p = some e ∧ s' = (s.setNbr p { e with willingness := w }).changed := by
  obtain ⟨e, he, h⟩ := Option.bind_eq_some_iff.1 h
  split at h
  · exact .inl (Option.some.inj h).symm
  · exact .inr ⟨e, he, (Option.some.inj h).symm⟩

/-- The timer of a link is cleared; if the link was symmetric by its last HELLO message, the status of the
neighbour is updated. -/
theorem expireLinkSym_cases {l : LinkEntry} (h : olsrExpireLinkSymTimer env s l = some s') :
    (l.prevStatus ≠ .sym ∧ s' = s.updateLink l.id fun l => { l with linkSymTimer := none }) ∨
    (l.prevStatus = .sym ∧ ∃ s₁ s₂, s₁ = s.updateLink l.id (fun l => { l with linkSymTimer := none }) ∧
      updateNeighborStatus env (s₁.updateLink l.id fun l => { l with prevStatus := lookupLinkStatus s₁ l }) l.neighbor
        (getNeighborStatus env (s₁.updateLink l.id fun l => { l with prevStatus := lookupLinkStatus s₁ l })
          l.neighborIfaceAddr) = some s₂ ∧ s' = { s₂ with changesNeighborhood := true }) := by
  unfold olsrExpireLinkSymTimer at h
  dsimp only at h
  split at h
  · exact .inl ⟨‹_›, (Option.some.inj h).symm⟩
  · rename_i hsym
    obtain ⟨s₂, h₂, h⟩ := Option.bind_eq_some_iff.1 h
    exact .inr ⟨not_not.1 hsym, _, s₂, rfl, h₂, (Option.some.inj h).symm⟩

end Olsrd.Neighbor
