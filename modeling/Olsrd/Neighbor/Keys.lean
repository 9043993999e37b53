/-
The hash table of neighbours. Every entry is queued in the bucket of its main address, whatever happens;
that no two entries have the same main address is up to the neighbours, since an entry is moved to a new
main address without a look at who is there.
-/
import Olsrd.Neighbor.Frame

namespace Olsrd.Neighbor

variable {env : Env} {s s' : Nbh}

/-! ## Keys -/

/-- The main address of an entry. -/
def keyOf (s : Nbh) (p : Ptr) : Option IpAddr := (s.nbr p).map NeighborEntry.mainAddr

theorem keyOf_eq {p : Ptr} {e : NeighborEntry} (he : s.nbr p = some e) : keyOf s p = some e.mainAddr := by
  unfold keyOf; rw [he]; rfl

/-- The table holds the entries, each once and in its bucket. -/
structure TableWf (s : Nbh) : Prop where
  queued : ∀ p bucket, p ∈ s.nbrTable bucket ↔ ∃ a, keyOf s p = some a ∧ olsrIpHashing a = bucket
  nodup : ∀ bucket, (s.nbrTable bucket).Nodup
  fresh : ∀ p, s.fresh ≤ p → keyOf s p = none

def UniqueKeys (s : Nbh) : Prop := ∀ p q a, keyOf s p = some a → keyOf s q = some a → p = q

theorem keyOf_of_lookup {a : IpAddr} {p : Ptr} (h : olsrLookupNeighborTableAlias s a = some p) : keyOf s p =
    some a := by
  have hp := List.find?_some h
  cases he : s.nbr p with
  | none => rw [he] at hp; cases hp
  | some e =>
    rw [he, Option.any_some, beq_iff_eq] at hp
    rw [keyOf_eq he, hp]

theorem TableWf.lookup_eq_none (h : TableWf s) {a : IpAddr} :
    olsrLookupNeighborTableAlias s a = none ↔ ∀ p, keyOf s p ≠ some a := by
  constructor
  · intro hnone p hp
    obtain ⟨e, he, ha⟩ := Option.map_eq_some_iff.1 hp
    have hnot := List.find?_eq_none.1 hnone p ((h.queued p _).2 ⟨a, hp, rfl⟩)
    simp [he, ha] at hnot
  · intro hno
    cases hl : olsrLookupNeighborTableAlias s a with
    | none => rfl
    | some p => exact absurd (keyOf_of_lookup hl) (hno p)

/-! ## What operations do to keys -/

structure SameKeys (s s' : Nbh) : Prop where
  keys : ∀ p, keyOf s' p = keyOf s p
  nbrTable : s'.nbrTable = s.nbrTable
  fresh : s.fresh ≤ s'.fresh

theorem SameKeys.trans {s'' : Nbh} (h : SameKeys s s') (h' : SameKeys s' s'') : SameKeys s s'' :=
  ⟨fun p => (h'.keys p).trans (h.keys p), h'.nbrTable.trans h.nbrTable, h.fresh.trans h'.fresh⟩

theorem TwoHopOnly.sameKeys (h : TwoHopOnly s s') : SameKeys s s' := by
  refine ⟨fun p => ?_, h.nbrTable, h.fresh⟩
  have hp := congrArg (Option.map Prod.fst) (h.nbr p)
  rw [Option.map_map, Option.map_map] at hp
  exact hp

theorem sameKeys_of_eq (hnbr : s'.nbr = s.nbr) (htable : s'.nbrTable = s.nbrTable) (hfresh : s.fresh ≤ s'.fresh) :
    SameKeys s s' := ⟨fun p => by unfold keyOf; rw [hnbr], htable, hfresh⟩

theorem sameKeys_updateLink (s : Nbh) (id : Ptr) (f : LinkEntry → LinkEntry) : SameKeys s (s.updateLink id f) :=
  sameKeys_of_eq rfl rfl (le_refl _)

theorem sameKeys_setMid (s : Nbh) (mid : MidSet) : SameKeys s { s with mid := mid } :=
  sameKeys_of_eq rfl rfl (le_refl _)

theorem sameKeys_setNbr {p : Ptr} {e : NeighborEntry} (e' : NeighborEntry) (he : s.nbr p = some e)
    (ha : e'.mainAddr = e.mainAddr) : SameKeys s (s.setNbr p e') := by
  refine ⟨fun q => ?_, rfl, le_refl _⟩
  unfold keyOf Nbh.setNbr
  by_cases hq : q = p
  · subst hq; simp [he, ha]
  · simp [Function.update_of_ne hq]

theorem sameKeys_updateNeighborStatus {p : Ptr} {lnk : LinkStatus} (h : updateNeighborStatus env s p lnk = some s') :
    SameKeys s s' := by
  obtain ⟨s₁, e, e₁, h₁, -, he₁, rfl⟩ := updateNeighborStatus_cases h
  exact h₁.sameKeys.trans ((sameKeys_setNbr { e₁ with sym := decide (lnk = .sym) } he₁ rfl).trans
    (sameKeys_of_eq rfl rfl (le_refl _)))

theorem keyOf_freeNbr (s : Nbh) (p q : Ptr) : keyOf (s.freeNbr p) q = if q = p then none else keyOf s q := by
  unfold keyOf Nbh.freeNbr
  by_cases hq : q = p
  · subst hq; simp
  · simp [hq]

theorem keyOf_inserted (s : Nbh) (a : IpAddr) (q : Ptr) :
    keyOf (inserted s a) q = if q = s.fresh then some a else keyOf s q := by
  unfold keyOf inserted
  by_cases hq : q = s.fresh
  · subst hq; simp [newNeighborEntry]
  · simp [hq]

theorem keyOf_rekeyed (s : Nbh) (p : Ptr) (e : NeighborEntry) (a : IpAddr) (q : Ptr) :
    keyOf (rekeyed s p e a) q = if q = p then some a else keyOf s q := by
  unfold keyOf rekeyed Nbh.setNbr
  by_cases hq : q = p
  · subst hq; simp
  · simp [hq]

theorem mem_queueElem {table : Nat → List Ptr} {bucket b : Nat} {p q : Ptr} :
    q ∈ queueElem table bucket p b ↔ (b = bucket ∧ q = p) ∨ q ∈ table b := by
  unfold queueElem
  by_cases hb : b = bucket
  · subst hb; simp
  · simp [hb]

theorem mem_dequeueElem {table : Nat → List Ptr} {b : Nat} {p q : Ptr} :
    q ∈ dequeueElem table p b ↔ q ∈ table b ∧ q ≠ p := by
  simp [dequeueElem]

theorem nodup_queueElem {table : Nat → List Ptr} {bucket : Nat} {p : Ptr} (h : ∀ b, (table b).Nodup)
    (hp : p ∉ table bucket) (b : Nat) : (queueElem table bucket p b).Nodup := by
  unfold queueElem
  by_cases hb : b = bucket
  · subst hb; rw [Function.update_self]; exact List.nodup_cons.2 ⟨hp, h b⟩
  · rw [Function.update_of_ne hb]; exact h b

theorem nodup_dequeueElem {table : Nat → List Ptr} {p : Ptr} (h : ∀ b, (table b).Nodup) (b : Nat) :
    (dequeueElem table p b).Nodup := (h b).filter _

namespace TableWf

theorem same (h : TableWf s) (h' : SameKeys s s') : TableWf s' := by
  refine ⟨fun p b => ?_, fun b => ?_, fun p hp => ?_⟩
  · rw [h'.nbrTable, h.queued]; simp only [h'.keys]
  · rw [h'.nbrTable]; exact h.nodup b
  · rw [h'.keys]; exact h.fresh p (h'.fresh.trans hp)

theorem free (h : TableWf s) (p : Ptr) : TableWf (s.freeNbr p) := by
  refine ⟨fun q b => ?_, nodup_dequeueElem h.nodup, fun q hq => ?_⟩
  · rw [show (s.freeNbr p).nbrTable = dequeueElem s.nbrTable p from rfl, mem_dequeueElem, h.queued]
    simp only [keyOf_freeNbr]
    by_cases hqp : q = p
    · simp [hqp]
    · simp [hqp]
  · rw [keyOf_freeNbr]
    split
    · rfl
    · exact h.fresh q hq

theorem insert (h : TableWf s) (a : IpAddr) : TableWf (inserted s a) := by
  have hnew : keyOf s s.fresh = none := h.fresh _ (le_refl _)
  have hout : ∀ b, s.fresh ∉ s.nbrTable b := by
    intro b hb
    obtain ⟨a', ha', -⟩ := (h.queued _ _).1 hb
    rw [hnew] at ha'; cases ha'
  refine ⟨fun q b => ?_, nodup_queueElem h.nodup (hout _), fun q hq => ?_⟩
  · rw [show (inserted s a).nbrTable = queueElem s.nbrTable (olsrIpHashing a) s.fresh from rfl, mem_queueElem, h.queued]
    simp only [keyOf_inserted]
    by_cases hq : q = s.fresh
    · subst hq; simp [hnew, eq_comm]
    · simp [hq]
  · have hq' : s.fresh + 1 ≤ q := hq
    rw [keyOf_inserted, if_neg (Nat.ne_of_gt hq')]
    exact h.fresh q (Nat.le_of_succ_le hq')

theorem rekey (h : TableWf s) {p : Ptr} {e : NeighborEntry} (he : s.nbr p = some e) (a : IpAddr) :
    TableWf (rekeyed s p e a) := by
  refine ⟨fun q b => ?_, nodup_queueElem (nodup_dequeueElem h.nodup) ?_, fun q hq => ?_⟩
  · rw [show (rekeyed s p e a).nbrTable = queueElem (dequeueElem s.nbrTable p) (olsrIpHashing a) p from rfl,
      mem_queueElem, mem_dequeueElem, h.queued]
    simp only [keyOf_rekeyed]
    by_cases hq : q = p
    · subst hq; simp [eq_comm]
    · simp [hq]
  · simp [mem_dequeueElem]
  · rw [keyOf_rekeyed, if_neg]
    · exact h.fresh q hq
    · rintro rfl
      have := h.fresh q hq
      rw [keyOf_eq he] at this; cases this

end TableWf

/-- The table of neighbours: keys are unique, and an entry is found where it is looked for. -/
structure Keyed (s : Nbh) : Prop extends TableWf s where
  unique : UniqueKeys s

namespace Keyed

theorem lookup_iff (h : Keyed s) {a : IpAddr} {p : Ptr} :
    olsrLookupNeighborTableAlias s a = some p ↔ keyOf s p = some a := by
  refine ⟨keyOf_of_lookup, fun hp => ?_⟩
  cases hl : olsrLookupNeighborTableAlias s a with
  | none => exact absurd hp (h.lookup_eq_none.1 hl p)
  | some q => rw [h.unique q p a (keyOf_of_lookup hl) hp]

theorem same (h : Keyed s) (h' : SameKeys s s') : Keyed s' :=
  ⟨h.toTableWf.same h', fun p q a hp hq => h.unique p q a (by rwa [h'.keys] at hp) (by rwa [h'.keys] at hq)⟩

theorem free (h : Keyed s) (p : Ptr) : Keyed (s.freeNbr p) := by
  refine ⟨h.toTableWf.free p, fun q r a hq hr => ?_⟩
  rw [keyOf_freeNbr] at hq hr
  split at hq
  · cases hq
  · split at hr
    · cases hr
    · exact h.unique q r a hq hr

/-- A change that gives `p` a key nobody has. -/
theorem of_update (h : Keyed s) (hw : TableWf s') {p : Ptr} {a : IpAddr} (hno : ∀ q, keyOf s q ≠ some a)
    (hkeys : ∀ q, keyOf s' q = if q = p then some a else keyOf s q) : Keyed s' := by
  refine ⟨hw, fun q r b hq hr => ?_⟩
  rw [hkeys] at hq hr
  split at hq
  · obtain rfl := Option.some.inj hq
    split at hr
    · simp [*]
    · exact absurd hr (hno r)
  · split at hr
    · obtain rfl := Option.some.inj hr
      exact absurd hq (hno q)
    · exact h.unique q r b hq hr

theorem insert (h : Keyed s) {a : IpAddr} (ha : olsrLookupNeighborTableAlias s a = none) : Keyed (inserted s a) :=
  h.of_update (h.toTableWf.insert a) (h.lookup_eq_none.1 ha) (keyOf_inserted s a)

theorem rekey (h : Keyed s) {p : Ptr} {e : NeighborEntry} (he : s.nbr p = some e) {a : IpAddr}
    (ha : olsrLookupNeighborTableAlias s a = none) : Keyed (rekeyed s p e a) :=
  h.of_update (h.toTableWf.rekey he a) (h.lookup_eq_none.1 ha) (keyOf_rekeyed s p e a)

end Keyed

/-! ## Operations -/

/-- A property of the table that everything but a change of a main address keeps. -/
structure KeyClosed (P : Nbh → Prop) : Prop where
  same : ∀ {s s'}, P s → SameKeys s s' → P s'
  free : ∀ {s}, P s → ∀ p, P (s.freeNbr p)
  insert : ∀ {s a}, P s → olsrLookupNeighborTableAlias s a = none → P (inserted s a)

theorem keyClosed_tableWf : KeyClosed TableWf := ⟨TableWf.same, TableWf.free, fun h _ => h.insert _⟩

theorem keyClosed_keyed : KeyClosed Keyed := ⟨Keyed.same, Keyed.free, fun h ha => h.insert ha⟩

/-- A property of the table that is kept as long as new entries have a main address that meets `A`. -/
structure KeyClosedIn (A : IpAddr → Prop) (P : Nbh → Prop) : Prop where
  same : ∀ {s s'}, P s → SameKeys s s' → P s'
  free : ∀ {s}, P s → ∀ p, P (s.freeNbr p)
  insert : ∀ {s a}, A a → P s → olsrLookupNeighborTableAlias s a = none → P (inserted s a)

theorem KeyClosed.any {P : Nbh → Prop} (hP : KeyClosed P) : KeyClosedIn (fun _ => True) P :=
  ⟨hP.same, hP.free, fun _ => hP.insert⟩

/-- All main addresses meet `A`. -/
def KeysIn (A : IpAddr → Prop) (s : Nbh) : Prop := ∀ q a, keyOf s q = some a → A a

theorem KeysIn.update {A : IpAddr → Prop} (h : KeysIn A s) {p : Ptr} {a : IpAddr} (ha : A a)
    (hkeys : ∀ q, keyOf s' q = if q = p then some a else keyOf s q) : KeysIn A s' := by
  intro q b hq
  rw [hkeys] at hq
  split at hq
  · obtain rfl := Option.some.inj hq
    exact ha
  · exact h q b hq

theorem keyClosedIn_keysIn (A : IpAddr → Prop) : KeyClosedIn A (KeysIn A) where
  same := fun h h' q a hq => h q a (by rwa [h'.keys] at hq)
  free := fun h p q a hq => by
    rw [keyOf_freeNbr] at hq
    split at hq
    · cases hq
    · exact h q a hq
  insert := fun ha h _ => h.update ha (keyOf_inserted _ _)

namespace KeyClosedIn

variable {A : IpAddr → Prop} {P : Nbh → Prop}

theorem deleteNeighbor (hP : KeyClosedIn A P) (hs : P s) {a : IpAddr}
    (h : olsrDeleteNeighborTable s a = some s') : P s' := by
  rcases deleteNeighborTable_cases h with ⟨-, rfl⟩ | ⟨p, s₁, -, h₁, rfl⟩
  · exact hs
  · exact hP.same (hP.free (hP.same hs h₁.sameKeys) p) (sameKeys_of_eq rfl rfl (le_refl _))

theorem insertNeighbor (hP : KeyClosedIn A P) (hs : P s) {a : IpAddr} (ha : A a) :
    P (olsrInsertNeighborTable s a).1 := by
  rcases insertNeighborTable_cases s a with ⟨p, -, heq⟩ | ⟨hno, heq⟩
  · rw [heq]; exact hs
  · rw [heq]; exact hP.insert ha hs hno

theorem replaceLinks (hP : KeyClosedIn A P) (hs : P s) (old new : Ptr) : P (replaceNeighborLinkSet s old new) :=
  hP.same hs (sameKeys_of_eq rfl rfl (le_refl _))

theorem replaceNeighbor (hP : KeyClosedIn A P) (hs : P s) {m a : IpAddr} (hm : A m)
    (h : replaceNeighbor s m a = some s') : P s' := by
  rcases replaceNeighbor_cases h with ⟨-, rfl⟩ | ⟨old, s₁, mid, -, h₁, rfl⟩
  · exact hs
  · exact hP.same (hP.replaceLinks (hP.insertNeighbor (hP.deleteNeighbor hs h₁) hm) old
      (olsrInsertNeighborTable s₁ m).2) (sameKeys_of_eq rfl rfl (le_refl _))

theorem mergeAlias (hP : KeyClosedIn A P) (hs : P s) {m a : IpAddr} (h : mergeAlias m s a = some s') : P s' := by
  obtain ⟨s₁, b, h₁, rfl⟩ := mergeAlias_cases h
  have hs₁ := hP.same hs (twoHopOnly_deleteTwoHopIfAny h₁).sameKeys
  have hs₂ : P { s₁ with changesNeighborhood := b } := hP.same hs₁ (sameKeys_of_eq rfl rfl (le_refl _))
  rcases mergeNeighbors_cases { s₁ with changesNeighborhood := b } (olsrLookupNeighborTableAlias s₁ a)
    (olsrLookupNeighborTableAlias s₁ m) with heq | ⟨tmp, real, -, -, heq⟩
  · rw [heq]; exact hs₂
  · rw [heq]
    exact hP.same (hP.free (hP.replaceLinks hs₂ tmp real) tmp) (sameKeys_of_eq rfl rfl (le_refl _))

theorem insertMidAlias (hP : KeyClosedIn A P) (hs : P s) {random : Nat} {m a : IpAddr} {vtime : Nat} (hm : A m)
    (h : insertMidAlias env s random m a vtime = some s') : P s' := by
  rcases insertMidAlias_cases h with rfl | ⟨s₁, s₂, h₁, h₂, rfl⟩
  · exact hs
  · have hs₁ := hP.replaceNeighbor hs hm h₁
    have hs₂ : P s₂ := by
      rcases insertMidTuple_cases h₂ with rfl | ⟨-, h₂⟩
      · exact hs₁
      · exact Run.forEach_invariant (fun _ _ _ _ => fun h₁ h₂ => hP.mergeAlias h₁ h₂)
          (hP.same hs₁ (sameKeys_setMid s₁ _)) h₂
    exact hP.same hs₂ (TwoHopOnly.changed s₂).sameKeys

theorem deleteLink (hP : KeyClosedIn A P) (hs : P s) {l : LinkEntry}
    (h : olsrDeleteLinkEntry s l = some s') : P s' := by
  obtain ⟨e, s₁, he, rfl, hcases⟩ := deleteLinkEntry_cases h
  have hs₁ : P s₁ := by
    rcases hcases with ⟨-, h₁⟩ | ⟨-, rfl⟩
    · exact hP.deleteNeighbor hs h₁
    · exact hP.same hs (sameKeys_setNbr { e with linkcount := e.linkcount - 1 } he rfl)
  exact hP.same hs₁ (sameKeys_of_eq rfl rfl (le_refl _))

theorem neighborFor (hP : KeyClosedIn A P) (hs : P s) {a : IpAddr} (ha : A a) : P (neighborFor s a).1 := by
  rcases neighborFor_cases s a with ⟨p, b, -, heq⟩ | ⟨hno, heq⟩
  · rw [heq]; exact hs
  · rw [heq]; exact hP.insert ha hs hno

end KeyClosedIn

/-! ## Runs -/

/-- The neighbour entry `p` has the main address `b` when its link to `remote` is looked up for the main address
`a`, so that it is moved to `a`. -/
def Moves (s : Nbh) (remote a : IpAddr) (ifc : Interface) (p : Ptr) (e : NeighborEntry) : Prop :=
  (∃ l, findLink s remote ifc = some l ∧ l.neighbor = p) ∧ s.nbr p = some e ∧ e.mainAddr ≠ a

theorem moves_iff (s : Nbh) (remote a : IpAddr) (ifc : Interface) (ok : Prop) :
    (∀ l ∈ findLink s remote ifc, ∀ e ∈ s.nbr l.neighbor, e.mainAddr ≠ a → ok) ↔
      ∀ p e, Moves s remote a ifc p e → ok := by
  constructor
  · rintro h p e ⟨⟨l, hl, rfl⟩, he, hne⟩
    exact h l hl e he hne
  · exact fun h l hl e he hne => h l.neighbor e ⟨⟨l, hl, rfl⟩, he, hne⟩

/-- An event that moves an entry meets `ok`. -/
def Event.MovesOk (ok : Nbh → Ptr → NeighborEntry → IpAddr → Prop) (s : Nbh) : Event → Prop
  | .helloLink h => ∀ p e, Moves s h.fromAddr h.message.sourceAddr h.inIf p e → ok s p e h.message.sourceAddr
  | .lookupLink remote a ifc => ∀ p e, Moves s remote a ifc p e → ok s p e a
  | _ => True

theorem lookupLinkEntry_invariant {P : Nbh → Prop} (hs : P s) {remote a : IpAddr} {ifc : Interface}
    {o : Option LinkEntry} (hrekey : ∀ p e, Moves s remote a ifc p e → P (rekeyed s p e a))
    (h : lookupLinkEntry s remote a ifc = some (s', o)) : P s' := by
  obtain ⟨hfind, ⟨rfl, -⟩ | ⟨l, e, hl, he, hne, rfl⟩⟩ := lookupLinkEntry_cases h
  · exact hs
  · exact hrekey _ e ⟨⟨l, hfind ▸ hl, rfl⟩, he, hne⟩

theorem KeyClosedIn.helloLink {A : IpAddr → Prop} {P : Nbh → Prop} (hP : KeyClosedIn A P) (hs : P s) {h : HelloInput}
    {x : Nbh × Ptr} (ha : A h.message.sourceAddr)
    (hrekey : ∀ p e, Moves s h.fromAddr h.message.sourceAddr h.inIf p e → P (rekeyed s p e h.message.sourceAddr))
    (hstep : helloLink env s h = some x) : P x.1 := by
  obtain ⟨s₁, l, h₁, h₂, -⟩ := helloLink_cases hstep
  have hs₁ : P s₁ := by
    rcases addLinkEntry_cases h₁ with hl | ⟨-, s₀, p, e, heq, he, -, rfl⟩
    · exact lookupLinkEntry_invariant hs hrekey hl
    · have hs₀ := hP.neighborFor (hP.same hs (TwoHopOnly.allocated s).sameKeys) ha
      rw [heq] at hs₀
      exact hP.same (hP.same hs₀ (sameKeys_setNbr { e with linkcount := e.linkcount + 1 } he rfl))
        (sameKeys_of_eq rfl rfl (le_refl _))
  exact hP.same hs₁ ((sameKeys_updateLink s₁ _ _).trans (sameKeys_updateNeighborStatus h₂))

/-- The main addresses that the event brings meet `A`. -/
def Event.Brings (A : IpAddr → Prop) : Event → Prop
  | .helloLink h => A h.message.sourceAddr
  | .lookupLink _ a _ | .insertMidAlias _ a _ _ | .insertNeighbor a => A a
  | _ => True

/-- An invariant of the table, kept by an event if the moves of entries keep it. -/
theorem KeyClosedIn.step {A : IpAddr → Prop} {P : Nbh → Prop} (hP : KeyClosedIn A P)
    {C : Nbh → Ptr → NeighborEntry → IpAddr → Prop}
    (hrekey : ∀ {s p e a}, P s → s.nbr p = some e → C s p e a → P (rekeyed s p e a)) (hs : P s) {ev : Event}
    (hbrings : ev.Brings A) (hok : ev.MovesOk C s) (h : step env s ev = some s') : P s' := by
  have same : ∀ {s₁ s₂ : Nbh}, P s₁ → s₂.nbr = s₁.nbr → s₂.nbrTable = s₁.nbrTable → s₂.fresh = s₁.fresh → P s₂ :=
    fun h₁ hn ht hf => hP.same h₁ (sameKeys_of_eq hn ht hf.ge)
  cases ev with
  | tick now => obtain rfl := Option.some.inj h; exact same hs rfl rfl rfl
  | helloLink hin =>
    obtain ⟨x, hx, rfl⟩ := Option.map_eq_some_iff.1 h
    exact hP.helloLink hs hbrings (fun p e hm => hrekey hs hm.2.1 (hok p e hm)) hx
  | lookupLink remote a ifc =>
    obtain ⟨⟨s₁, o⟩, hx, rfl⟩ := Option.map_eq_some_iff.1 h
    exact lookupLinkEntry_invariant hs (fun p e hm => hrekey hs hm.2.1 (hok p e hm)) hx
  | insertMidAlias random m a vtime => exact hP.insertMidAlias hs hbrings h
  | setLinkcost id cost => obtain rfl := Option.some.inj h; exact same hs rfl rfl rfl
  | setWillingness p w =>
    rcases setWillingness_cases h with rfl | ⟨e, he, rfl⟩
    · exact hs
    · exact hP.same hs ((sameKeys_setNbr { e with willingness := w } he rfl).trans (TwoHopOnly.changed _).sameKeys)
  | processMessageNeighbors random p message => exact hP.same hs (twoHopOnly_processMessageNeighbors h).sameKeys
  | expireNbr2List x => exact hP.same hs (twoHopOnly_unlinkNbr2 h).sameKeys
  | expireLinkSym l =>
    rcases expireLinkSym_cases h with ⟨-, rfl⟩ | ⟨-, s₁, s₂, rfl, h₂, rfl⟩
    · exact same hs rfl rfl rfl
    · have hupdated := (sameKeys_updateLink _ _ _).trans (sameKeys_updateNeighborStatus h₂)
      exact same (hP.same hs ((sameKeys_updateLink s _ _).trans hupdated)) rfl rfl rfl
  | expireLinkHello l hyst =>
    exact hP.same hs ((sameKeys_updateLink s _ _).trans (sameKeys_updateNeighborStatus h))
  | deleteLink l => exact hP.deleteLink hs h
  | insertNeighbor a => obtain rfl := Option.some.inj h; exact hP.insertNeighbor hs hbrings
  | deleteNeighbor a => exact hP.deleteNeighbor hs h
  | deleteTwoHop p => exact hP.same hs (twoHopOnly_deleteTwoHop h).sameKeys
  | changeMid mid => obtain rfl := Option.some.inj h; exact same hs rfl rfl rfl

theorem KeyClosed.step {P : Nbh → Prop} (hP : KeyClosed P) {C : Nbh → Ptr → NeighborEntry → IpAddr → Prop}
    (hrekey : ∀ {s p e a}, P s → s.nbr p = some e → C s p e a → P (rekeyed s p e a)) (hs : P s) {ev : Event}
    (hok : ev.MovesOk C s) (h : Neighbor.step env s ev = some s') : P s' :=
  hP.any.step hrekey hs (by cases ev <;> trivial) hok h

/-- A set of main addresses that events only bring members of. -/
theorem KeysIn.step {A : IpAddr → Prop} (h : KeysIn A s) {ev : Event} (hbrings : ev.Brings A)
    (hstep : Neighbor.step env s ev = some s') : KeysIn A s' := by
  refine (keyClosedIn_keysIn A).step (C := fun _ _ _ a => A a)
    (fun h _ ha => h.update ha (keyOf_rekeyed _ _ _ _)) h hbrings ?_ hstep
  cases ev with
  | helloLink _ | lookupLink _ _ _ => exact fun _ _ _ => hbrings
  | _ => trivial

/-- No entry is moved to a main address that another entry has. -/
def MovesFree (s : Nbh) (ev : Event) : Prop :=
  ev.MovesOk (fun s _ _ a => olsrLookupNeighborTableAlias s a = none) s

instance decidableMovesFree (s : Nbh) : ∀ ev : Event, Decidable (MovesFree s ev)
  | .helloLink h => decidable_of_iff _ (moves_iff s h.fromAddr h.message.sourceAddr h.inIf _)
  | .lookupLink remote a ifc => decidable_of_iff _ (moves_iff s remote a ifc _)
  | .tick _ | .insertMidAlias .. | .setLinkcost .. | .setWillingness .. | .processMessageNeighbors .. |
    .expireNbr2List _
  | .expireLinkSym _ | .expireLinkHello .. | .deleteLink _ | .insertNeighbor _ | .deleteNeighbor _ | .deleteTwoHop _
  | .changeMid _ => .isTrue trivial

theorem keyed_emptyNbh : Keyed emptyNbh where
  queued := fun p b => by simp [emptyNbh, keyOf]
  nodup := fun _ => List.nodup_nil
  fresh := fun _ _ => rfl
  unique := fun _ _ _ h => by cases h

/-- A move to the main address of another entry leaves two entries with one main address. -/
theorem Keyed.lookup_eq_none_of_rekeyed (h : Keyed s) {p : Ptr} {e : NeighborEntry} {a : IpAddr}
    (he : s.nbr p = some e) (hne : e.mainAddr ≠ a) (h' : SameKeys (rekeyed s p e a) s') (hs' : Keyed s') :
    olsrLookupNeighborTableAlias s a = none := by
  refine h.lookup_eq_none.2 fun q hq => ?_
  have hqp : q ≠ p := by
    rintro rfl
    rw [keyOf_eq he] at hq
    exact hne (Option.some.inj hq)
  have hmoved : keyOf s' p = some a := by rw [h'.keys, keyOf_rekeyed, if_pos rfl]
  have hother : keyOf s' q = some a := by rw [h'.keys, keyOf_rekeyed, if_neg hqp, hq]
  exact hqp (hs'.unique q p a hother hmoved)

theorem Keyed.lookup_eq_none_of_moves (h : Keyed s) {remote a : IpAddr} {ifc : Interface} {o : Option LinkEntry}
    {p : Ptr} {e : NeighborEntry} (hm : Moves s remote a ifc p e) {s₁ : Nbh}
    (hl : lookupLinkEntry s remote a ifc = some (s₁, o)) (h' : SameKeys s₁ s') (hs' : Keyed s') :
    olsrLookupNeighborTableAlias s a = none := by
  obtain ⟨⟨l, hfind, rfl⟩, he, hne⟩ := hm
  obtain ⟨ho, ⟨-, hsame⟩ | ⟨l', e', hl', he', hne', rfl⟩⟩ := lookupLinkEntry_cases hl
  · obtain ⟨e', he', hmain⟩ := hsame l (ho.trans hfind)
    rw [he] at he'
    obtain rfl := Option.some.inj he'
    exact absurd hmain hne
  · obtain rfl := Option.some.inj ((ho.trans hfind).symm.trans hl')
    exact h.lookup_eq_none_of_rekeyed he' hne' h' hs'

theorem Keyed.step_iff (h : Keyed s) {ev : Event} (hstep : step env s ev = some s') : Keyed s' ↔ MovesFree s ev := by
  refine ⟨fun hs' => ?_, fun hfree => keyClosed_keyed.step (fun h he ha => h.rekey he ha) h hfree hstep⟩
  cases ev with
  | helloLink hin =>
    intro p e hm
    obtain ⟨x, hx, rfl⟩ := Option.map_eq_some_iff.1 hstep
    obtain ⟨s₁, l, h₁, h₂, -⟩ := helloLink_cases hx
    rcases addLinkEntry_cases h₁ with hl | ⟨hfind, -⟩
    · exact h.lookup_eq_none_of_moves hm hl ((sameKeys_updateLink s₁ _ _).trans (sameKeys_updateNeighborStatus h₂)) hs'
    · obtain ⟨⟨l', hl', -⟩, -⟩ := hm
      rw [hfind] at hl'; cases hl'
  | lookupLink remote a ifc =>
    intro p e hm
    obtain ⟨⟨s₁, o⟩, hx, rfl⟩ := Option.map_eq_some_iff.1 hstep
    exact h.lookup_eq_none_of_moves hm hx (sameKeys_of_eq rfl rfl (le_refl _)) hs'
  | _ => trivial

/-- As long as no entry is moved to a main address that another one has, main addresses are unique, and a main
address is found if and only if an entry has it. The next step keeps this exactly if it is no such move. -/
theorem reachable_keyed (h : Reachable env MovesFree s) :
    Keyed s ∧ (∀ a p, olsrLookupNeighborTableAlias s a = some p ↔ keyOf s p = some a) ∧
      (∀ a, olsrLookupNeighborTableAlias s a = none ↔ ∀ p, keyOf s p ≠ some a) ∧
      ∀ ev s', step env s ev = some s' → (Keyed s' ↔ MovesFree s ev) := by
  have hkeyed : Keyed s := Run.Reaches.invariant (fun s hs => hs ▸ keyed_emptyNbh)
    (fun s ev s' hs hok hstep => (hs.step_iff hstep).2 hok.2) h
  exact ⟨hkeyed, fun a p => hkeyed.lookup_iff, fun a => hkeyed.lookup_eq_none, fun ev s' hstep => hkeyed.step_iff hstep⟩

/-- The neighbour 10.0.0.2 gets the main address 10.0.0.9, which nobody has, and an alias, and the link to 10.0.0.3 is
deleted. -/
def movedNeighbor : List Chooser :=
  [.hello (helloFrom [10, 0, 0, 2] [10, 0, 0, 2] []), .hello (helloFrom [10, 0, 0, 3] [10, 0, 0, 3] []),
    .hello (helloFrom [10, 0, 0, 2] [10, 0, 0, 9] []), .newAlias [10, 0, 0, 9] [10, 0, 1, 9], .deleteLink [10, 0, 0, 3]]

theorem reachable_keyed_movedNeighbor : ∃ s, Reachable oneInterface MovesFree s ∧
    olsrLookupNeighborTableAlias s [10, 0, 0, 9] = some 1 ∧ (∀ p, keyOf s p ≠ some [10, 0, 0, 2]) ∧
      ∀ p, keyOf s p ≠ some [10, 0, 0, 3] := by
  have hrounds : Run.Rounds (fun s c => ∀ ev ∈ c s, MovesFree s ev.1) (Chooser.run oneInterface) movedNeighbor
      emptyNbh := by decide +kernel
  have hrun : ((Run.forEach (Chooser.run oneInterface) movedNeighbor emptyNbh).any fun s =>
      keyOf s 1 == some [10, 0, 0, 9] && (olsrLookupNeighborTableAlias s [10, 0, 0, 2]).isNone &&
        (olsrLookupNeighborTableAlias s [10, 0, 0, 3]).isNone) = true := by decide +kernel
  obtain ⟨s, hs, hkeys⟩ := (Option.any_eq_true _ _).1 hrun
  simp only [Bool.and_eq_true, beq_iff_eq, Option.isNone_iff_eq_none] at hkeys
  have hreach := Chooser.reachable (.init rfl) hrounds hs
  obtain ⟨-, hsome, hnone, -⟩ := reachable_keyed hreach
  exact ⟨s, hreach, (hsome _ _).2 hkeys.1.1, (hnone _).1 hkeys.1.2, (hnone _).1 hkeys.2⟩

/-- Two neighbours, and then the second one under the main address of the first. -/
theorem movedHello_not_unique : ∃ s, Reachable oneInterface (fun _ _ => True) s ∧ ¬ UniqueKeys s := by
  have hrun : ((Run.forEach (olsrHelloTap oneInterface) [helloFrom [10, 0, 0, 2] [10, 0, 0, 2] [],
      helloFrom [10, 0, 0, 3] [10, 0, 0, 3] [], helloFrom [10, 0, 0, 3] [10, 0, 0, 2] []] emptyNbh).any
      fun s => keyOf s 1 == some [10, 0, 0, 2] && keyOf s 3 == some [10, 0, 0, 2]) = true := by decide +kernel
  obtain ⟨s, hs, hkeys⟩ := (Option.any_eq_true _ _).1 hrun
  rw [Bool.and_eq_true, beq_iff_eq, beq_iff_eq] at hkeys
  exact ⟨s, reachable_hellos hs, fun hunique => absurd (hunique 1 3 _ hkeys.1 hkeys.2) (by decide)⟩

theorem TableWf.step (h : TableWf s) {ev : Event} (hstep : step env s ev = some s') : TableWf s' :=
  keyClosed_tableWf.step (C := fun _ _ _ _ => True)
    (fun h he _ => h.rekey he _) h (by cases ev <;> simp [Event.MovesOk]) hstep

/-- In any run, entries are in the buckets of their main addresses. -/
theorem reachable_tableWf {ok : Nbh → Event → Prop} (h : Reachable env ok s) : TableWf s :=
  Run.Reaches.invariant (fun _ hs => hs ▸ keyed_emptyNbh.toTableWf) (fun _ _ _ hs _ hstep => hs.step hstep) h

end Olsrd.Neighbor
