/-
Which neighbours see which two hop neighbours is stored twice, in the lists of the neighbours and in the
lists of the two hop neighbours, with a counter beside. The two lists are kept in step by everything but
the merging of neighbour entries of one node, and a link to a two hop entry that is found by an alias.
-/
import Olsrd.Neighbor.LinkCount

namespace Olsrd.Neighbor

variable {env : Env} {s s' : Nbh}

/-! ## The two lists -/

def nbr2ListOf (s : Nbh) (n : Ptr) : List Nbr2ListEntry := ((s.nbr n).map NeighborEntry.nbr2List).getD []

def nblistOf (s : Nbh) (t : Ptr) : List NbListEntry := ((s.nbr2 t).map Neighbor2Entry.nblist).getD []

/-- The two hop entries that the neighbour `n` lists. -/
def hops (s : Nbh) (n : Ptr) : List Ptr := (nbr2ListOf s n).map Nbr2ListEntry.neighbor2

/-- The neighbours that the two hop entry `t` lists. -/
def backs (s : Nbh) (t : Ptr) : List Ptr := (nblistOf s t).map NbListEntry.neighbor

/-- The lists of neighbours and two hop neighbours agree. An entry that is not there lists nothing. -/
structure CrossLinked (s : Nbh) : Prop where
  mirror : ∀ n t, t ∈ hops s n ↔ n ∈ backs s t
  hopsNodup : ∀ n, (hops s n).Nodup
  backsNodup : ∀ t, (backs s t).Nodup
  pointer : ∀ t te, s.nbr2 t = some te → te.pointer.toInt = te.nblist.length
  nonempty : ∀ t te, s.nbr2 t = some te → te.nblist ≠ []

/-- What keeps the lists in step: each two hop link has a name of its own and knows its neighbour, and the two hop
table finds its entries. -/
structure TwoHopWf (s : Nbh) : Prop extends CrossLinked s where
  owner : ∀ n, ∀ x ∈ nbr2ListOf s n, x.nbr2Nbr = n
  ids : ∀ n, ((nbr2ListOf s n).map Nbr2ListEntry.id).Nodup
  idFresh : ∀ n, ∀ x ∈ nbr2ListOf s n, x.id < s.fresh
  queued : ∀ t b, t ∈ s.nbr2Table b ↔ ∃ te, s.nbr2 t = some te ∧ olsrIpHashing te.addr = b
  addrs : ∀ t u te ue, s.nbr2 t = some te → s.nbr2 u = some ue → te.addr = ue.addr → t = u
  fresh : ∀ t, s.fresh ≤ t → s.nbr2 t = none

theorem nbr2ListOf_eq {n : Ptr} {e : NeighborEntry} (he : s.nbr n = some e) : nbr2ListOf s n = e.nbr2List := by
  unfold nbr2ListOf; rw [he]; rfl

theorem nblistOf_eq {t : Ptr} {te : Neighbor2Entry} (ht : s.nbr2 t = some te) : nblistOf s t = te.nblist := by
  unfold nblistOf; rw [ht]; rfl

theorem exists_nbr_of_mem {n : Ptr} {x : Nbr2ListEntry} (hx : x ∈ nbr2ListOf s n) : ∃ e, s.nbr n = some e := by
  cases he : s.nbr n with
  | none => unfold nbr2ListOf at hx; rw [he] at hx; cases hx
  | some e => exact ⟨e, rfl⟩

theorem exists_nbr2_of_mem {n t : Ptr} (hn : n ∈ backs s t) : ∃ te, s.nbr2 t = some te := by
  cases ht : s.nbr2 t with
  | none => unfold backs nblistOf at hn; rw [ht] at hn; cases hn
  | some te => exact ⟨te, rfl⟩

/-- A two hop link without its timer. -/
def Nbr2ListEntry.core (x : Nbr2ListEntry) : Ptr × Ptr × Ptr := (x.id, x.nbr2Nbr, x.neighbor2)

/-- A two hop entry without the costs in its list. -/
def Neighbor2Entry.core (t : Neighbor2Entry) : IpAddr × Int16 × List Ptr :=
  (t.addr, t.pointer, t.nblist.map NbListEntry.neighbor)

/-- No link comes or goes on the two hop side. -/
structure SameHops (s s' : Nbh) : Prop where
  lists : ∀ n, (nbr2ListOf s' n).map Nbr2ListEntry.core = (nbr2ListOf s n).map Nbr2ListEntry.core
  nbr2 : ∀ t, (s'.nbr2 t).map Neighbor2Entry.core = (s.nbr2 t).map Neighbor2Entry.core
  nbr2Table : s'.nbr2Table = s.nbr2Table
  fresh : s.fresh ≤ s'.fresh

namespace SameHops

theorem refl (s : Nbh) : SameHops s s := ⟨fun _ => rfl, fun _ => rfl, rfl, le_refl _⟩

theorem trans {s'' : Nbh} (h : SameHops s s') (h' : SameHops s' s'') : SameHops s s'' :=
  ⟨fun n => (h'.lists n).trans (h.lists n), fun t => (h'.nbr2 t).trans (h.nbr2 t), h'.nbr2Table.trans h.nbr2Table,
    h.fresh.trans h'.fresh⟩

theorem of_eq (hnbr : s'.nbr = s.nbr) (hnbr2 : s'.nbr2 = s.nbr2) (htable : s'.nbr2Table = s.nbr2Table)
    (hfresh : s.fresh ≤ s'.fresh) : SameHops s s' :=
  ⟨fun n => by unfold nbr2ListOf; rw [hnbr], fun t => by rw [hnbr2], htable, hfresh⟩

theorem setNbr {p : Ptr} {e f : NeighborEntry} (he : s.nbr p = some e)
    (hl : f.nbr2List.map Nbr2ListEntry.core = e.nbr2List.map Nbr2ListEntry.core) : SameHops s (s.setNbr p f) := by
  refine ⟨fun n => ?_, fun _ => rfl, rfl, le_refl _⟩
  unfold nbr2ListOf Nbh.setNbr
  by_cases hn : n = p
  · subst hn; simp [he, hl]
  · simp [Function.update_of_ne hn]

theorem setNbr2 {t : Ptr} {te te' : Neighbor2Entry} (ht : s.nbr2 t = some te) (hcore : te'.core = te.core) :
    SameHops s (s.setNbr2 t te') := by
  refine ⟨fun _ => rfl, fun u => ?_, rfl, le_refl _⟩
  unfold Nbh.setNbr2
  by_cases hu : u = t
  · subst hu; simp [ht, hcore]
  · simp [Function.update_of_ne hu]

/-- A list of what the cores of the links determine. -/
theorem map_lists {α : Type} (h : SameHops s s') (f : Ptr × Ptr × Ptr → α) (n : Ptr) :
    (nbr2ListOf s' n).map (fun x => f x.core) = (nbr2ListOf s n).map fun x => f x.core := by
  have hn := congrArg (List.map f) (h.lists n)
  rwa [List.map_map, List.map_map] at hn

theorem hops (h : SameHops s s') (n : Ptr) : Neighbor.hops s' n = Neighbor.hops s n := h.map_lists (fun c => c.2.2) n

theorem backs (h : SameHops s s') (t : Ptr) : Neighbor.backs s' t = Neighbor.backs s t := by
  have ht := congrArg (Option.map fun c => c.2.2) (h.nbr2 t)
  rw [Option.map_map, Option.map_map] at ht
  have hback : ∀ r : Nbh, Neighbor.backs r t = ((r.nbr2 t).map fun te => te.core.2.2).getD [] := by
    intro r
    unfold Neighbor.backs nblistOf
    cases r.nbr2 t with
    | none => rfl
    | some te => rfl
  rw [hback, hback]
  exact congrArg (fun o => o.getD []) ht

theorem exists_link (h : SameHops s s') {n : Ptr} {x : Nbr2ListEntry} (hx : x ∈ nbr2ListOf s' n) :
    ∃ y ∈ nbr2ListOf s n, y.core = x.core := by
  have hmem : x.core ∈ (nbr2ListOf s' n).map Nbr2ListEntry.core := List.mem_map_of_mem hx
  rw [h.lists] at hmem
  exact List.mem_map.1 hmem

theorem exists_nbr2 (h : SameHops s s') {t : Ptr} {te' : Neighbor2Entry} (ht : s'.nbr2 t = some te') :
    ∃ te, s.nbr2 t = some te ∧ te.core = te'.core := by
  have hcore := h.nbr2 t
  rw [ht, Option.map_some, eq_comm, Option.map_eq_some_iff] at hcore
  exact hcore

theorem exists_nbr2_after (h : SameHops s s') {t : Ptr} {te : Neighbor2Entry} (ht : s.nbr2 t = some te) :
    ∃ te', s'.nbr2 t = some te' ∧ te'.core = te.core := by
  have hcore := h.nbr2 t
  rw [ht, Option.map_some, Option.map_eq_some_iff] at hcore
  exact hcore

end SameHops

theorem length_nblist_of_core {te te' : Neighbor2Entry} (h : te.core = te'.core) :
    te.nblist.length = te'.nblist.length := by
  have hlists : te.nblist.map NbListEntry.neighbor = te'.nblist.map NbListEntry.neighbor :=
    congrArg (fun c => c.2.2) h
  have hlen := congrArg List.length hlists
  rwa [List.length_map, List.length_map] at hlen

theorem TwoHopWf.same (h : TwoHopWf s) (h' : SameHops s s') : TwoHopWf s' where
  mirror n t := by rw [h'.hops, h'.backs]; exact h.mirror n t
  hopsNodup n := by rw [h'.hops]; exact h.hopsNodup n
  backsNodup t := by rw [h'.backs]; exact h.backsNodup t
  pointer t te' ht := by
    obtain ⟨te, hte, hcore⟩ := h'.exists_nbr2 ht
    rw [← length_nblist_of_core hcore, ← h.pointer t te hte]
    exact congrArg (fun c => c.2.1.toInt) hcore.symm
  nonempty t te' ht := by
    obtain ⟨te, hte, hcore⟩ := h'.exists_nbr2 ht
    have hlen := List.length_pos_iff.2 (h.nonempty t te hte)
    rw [length_nblist_of_core hcore] at hlen
    exact List.length_pos_iff.1 hlen
  owner n x hx := by
    obtain ⟨y, hy, hcore⟩ := h'.exists_link hx
    rw [← h.owner n y hy]
    exact congrArg (fun c => c.2.1) hcore.symm
  ids n := by
    have hids := h'.map_lists (fun c => c.1) n
    show ((nbr2ListOf s' n).map fun x => x.core.1).Nodup
    rw [hids]
    exact h.ids n
  idFresh n x hx := by
    obtain ⟨y, hy, hcore⟩ := h'.exists_link hx
    have hid : y.id = x.id := congrArg (fun c => c.1) hcore
    rw [← hid]
    exact (h.idFresh n y hy).trans_le h'.fresh
  queued t b := by
    rw [h'.nbr2Table, h.queued]
    constructor
    · rintro ⟨te, hte, hb⟩
      obtain ⟨te', hte', hcore⟩ := h'.exists_nbr2_after hte
      exact ⟨te', hte', (congrArg (fun c => c.1) hcore : te'.addr = te.addr) ▸ hb⟩
    · rintro ⟨te', hte', hb⟩
      obtain ⟨te, hte, hcore⟩ := h'.exists_nbr2 hte'
      exact ⟨te, hte, (congrArg (fun c => c.1) hcore : te.addr = te'.addr) ▸ hb⟩
  addrs t u te' ue' ht hu haddr := by
    obtain ⟨te, hte, htc⟩ := h'.exists_nbr2 ht
    obtain ⟨ue, hue, huc⟩ := h'.exists_nbr2 hu
    have htaddr : te.addr = te'.addr := congrArg (fun c => c.1) htc
    have huaddr : ue.addr = ue'.addr := congrArg (fun c => c.1) huc
    exact h.addrs t u te ue hte hue (by rw [htaddr, huaddr, haddr])
  fresh t ht := by
    have hcore := h'.nbr2 t
    rw [h.fresh t (h'.fresh.trans ht), Option.map_none, Option.map_eq_none_iff] at hcore
    exact hcore

/-! ## Removing a link -/

/-- Taking the link `x` out of a list takes its two hop entry out. -/
theorem map_filter_id {l : List Nbr2ListEntry} (hids : (l.map Nbr2ListEntry.id).Nodup)
    (hhops : (l.map Nbr2ListEntry.neighbor2).Nodup) {x : Nbr2ListEntry} (hx : x ∈ l) :
    (l.filter fun y => y.id != x.id) = l.filter fun y => y.neighbor2 != x.neighbor2 := by
  refine List.filter_congr fun y hy => ?_
  rw [Bool.eq_iff_iff, bne_iff_ne, bne_iff_ne, not_iff_not]
  constructor
  · intro hid; rw [List.inj_on_of_nodup_map hids hy hx hid]
  · intro hhop; rw [List.inj_on_of_nodup_map hhops hy hx hhop]

/-- What a change to both lists has to do. -/
structure Unlinks (s s' : Nbh) (gone : Ptr → Ptr → Bool) : Prop where
  lists : ∀ n, nbr2ListOf s' n = (nbr2ListOf s n).filter fun x => !gone n x.neighbor2
  nbr2 : ∀ t te', s'.nbr2 t = some te' → ∃ te, s.nbr2 t = some te ∧ te'.addr = te.addr ∧
    te'.nblist = te.nblist.filter (fun y => !gone y.neighbor t) ∧ te'.nblist ≠ [] ∧
    te'.pointer.toInt = te'.nblist.length
  freed : ∀ t, s'.nbr2 t = none → ∀ n ∈ backs s t, gone n t = true
  nbr2Table : ∀ t b, t ∈ s'.nbr2Table b ↔ t ∈ s.nbr2Table b ∧ (s'.nbr2 t).isSome
  fresh : s.fresh ≤ s'.fresh

section
variable {gone : Ptr → Ptr → Bool}

theorem Unlinks.hops (h : Unlinks s s' gone) (n : Ptr) :
    hops s' n = (hops s n).filter fun t => !gone n t := by
  unfold Neighbor.hops
  rw [h.lists, List.filter_map]
  rfl

theorem Unlinks.backs (h : Unlinks s s' gone) (t : Ptr) :
    backs s' t = (backs s t).filter fun n => !gone n t := by
  cases ht : s'.nbr2 t with
  | some te' =>
    obtain ⟨te, hte, -, hlist, -⟩ := h.nbr2 t te' ht
    unfold Neighbor.backs
    rw [nblistOf_eq ht, nblistOf_eq hte, hlist, List.filter_map]
    rfl
  | none =>
    have hempty : Neighbor.backs s' t = [] := by unfold Neighbor.backs nblistOf; rw [ht]; rfl
    rw [hempty, eq_comm, List.filter_eq_nil_iff]
    intro n hn
    simp [h.freed t ht n hn]

theorem TwoHopWf.unlinks (h : TwoHopWf s) (h' : Unlinks s s' gone) : TwoHopWf s' where
  mirror n t := by rw [h'.hops, h'.backs, List.mem_filter, List.mem_filter, h.mirror]
  hopsNodup n := by rw [h'.hops]; exact (h.hopsNodup n).filter _
  backsNodup t := by rw [h'.backs]; exact (h.backsNodup t).filter _
  pointer t te' ht := by obtain ⟨te, -, -, -, -, hp⟩ := h'.nbr2 t te' ht; exact hp
  nonempty t te' ht := by obtain ⟨te, -, -, -, hne, -⟩ := h'.nbr2 t te' ht; exact hne
  owner n x hx := by rw [h'.lists] at hx; exact h.owner n x (List.mem_of_mem_filter hx)
  ids n := by rw [h'.lists]; exact (h.ids n).sublist (List.filter_sublist.map _)
  idFresh n x hx := by
    rw [h'.lists] at hx
    exact (h.idFresh n x (List.mem_of_mem_filter hx)).trans_le h'.fresh
  queued t b := by
    rw [h'.nbr2Table, h.queued]
    constructor
    · rintro ⟨⟨te, hte, hb⟩, hsome⟩
      obtain ⟨te', hte'⟩ := Option.isSome_iff_exists.1 hsome
      obtain ⟨te₁, hte₁, haddr, -⟩ := h'.nbr2 t te' hte'
      obtain rfl := Option.some.inj (hte.symm.trans hte₁)
      exact ⟨te', hte', haddr ▸ hb⟩
    · rintro ⟨te', hte', hb⟩
      obtain ⟨te, hte, haddr, -⟩ := h'.nbr2 t te' hte'
      exact ⟨⟨te, hte, haddr ▸ hb⟩, hte' ▸ rfl⟩
  addrs t u te' ue' ht hu haddr := by
    obtain ⟨te, hte, htaddr, -⟩ := h'.nbr2 t te' ht
    obtain ⟨ue, hue, huaddr, -⟩ := h'.nbr2 u ue' hu
    exact h.addrs t u te ue hte hue (by rw [← htaddr, ← huaddr, haddr])
  fresh t ht := by
    by_contra hsome
    obtain ⟨te', hte'⟩ := Option.ne_none_iff_exists'.1 hsome
    obtain ⟨te, hte, -⟩ := h'.nbr2 t te' hte'
    rw [h.fresh t (h'.fresh.trans ht)] at hte
    cases hte

end

/-! ## `olsr_expire_nbr2_list` and the deletion of neighbours -/

theorem unlinkNbr2_cases {n : Ptr} {x : Nbr2ListEntry} (h : unlinkNbr2 n s x = some s') :
    ∃ te e, s.nbr2 x.neighbor2 = some te ∧ s.nbr x.nbr2Nbr = some e ∧ s'.fresh = s.fresh ∧
      s'.nbr = Function.update s.nbr x.nbr2Nbr (some { e with nbr2List := e.nbr2List.filter fun y => y.id != x.id }) ∧
      ((te.pointer - 1 < 1 ∧ s'.nbr2 = Function.update s.nbr2 x.neighbor2 none ∧
          s'.nbr2Table = dequeueElem s.nbr2Table x.neighbor2) ∨
        (¬ te.pointer - 1 < 1 ∧ s'.nbr2Table = s.nbr2Table ∧ s'.nbr2 = Function.update s.nbr2 x.neighbor2
          (some { te with pointer := te.pointer - 1, nblist := te.nblist.filter fun y => y.neighbor != n }))) := by
  obtain ⟨s₁, h₁, h⟩ := Option.bind_eq_some_iff.1 h
  obtain ⟨s₂, h₂, h⟩ := Option.bind_eq_some_iff.1 h
  obtain ⟨te, hte, h₁⟩ := Option.bind_eq_some_iff.1 h₁
  obtain rfl := Option.some.inj h₁
  obtain ⟨te₁, hte₁, h₂⟩ := Option.bind_eq_some_iff.1 h₂
  obtain rfl := Option.some.inj h₂
  have hte₁' : te₁ = { te with pointer := te.pointer - 1 } := by simpa [Nbh.setNbr2] using hte₁.symm
  subst hte₁'
  obtain ⟨te₂, hte₂, h⟩ := Option.bind_eq_some_iff.1 h
  obtain ⟨e, he, h⟩ := Option.bind_eq_some_iff.1 h
  obtain rfl := Option.some.inj h
  have hte₂' : te₂ = { te with pointer := te.pointer - 1, nblist := te.nblist.filter fun y => y.neighbor != n } := by
    simpa [Nbh.setNbr2] using hte₂.symm
  subst hte₂'
  refine ⟨te, e, hte, ?_⟩
  by_cases hlt : te.pointer - 1 < 1
  · rw [if_pos hlt] at he ⊢
    exact ⟨he, rfl, rfl, .inl ⟨hlt, by simp [Nbh.changed, Nbh.setNbr, Nbh.freeNbr2, Nbh.setNbr2], rfl⟩⟩
  · rw [if_neg hlt] at he ⊢
    exact ⟨he, rfl, rfl, .inr ⟨hlt, rfl, by simp [Nbh.changed, Nbh.setNbr, Nbh.setNbr2]⟩⟩

theorem toInt_pointer_sub {a : Int16} (h : 1 ≤ a.toInt) : (a - 1).toInt = a.toInt - 1 := by
  have hlt := a.toInt_lt
  rw [Int16.toInt_sub, Int.bmod_eq_of_le]
  · rfl
  · show _ ≤ a.toInt - 1; omega
  · show a.toInt - 1 < _; omega

theorem toInt_pointer_add {a : Int16} (h : 0 ≤ a.toInt) (hlt : a.toInt < 32767) : (a + 1).toInt = a.toInt + 1 := by
  rw [Int16.toInt_add, Int.bmod_eq_of_le]
  · rfl
  · show _ ≤ a.toInt + 1; omega
  · show a.toInt + 1 < _; omega

theorem length_filter_neighbor {l : List NbListEntry} {n : Ptr} (hnodup : (l.map NbListEntry.neighbor).Nodup)
    (hn : n ∈ l.map NbListEntry.neighbor) : (l.filter fun y => y.neighbor != n).length + 1 = l.length := by
  have hmap : (l.filter fun y => y.neighbor != n).map NbListEntry.neighbor = (l.map NbListEntry.neighbor).erase n := by
    rw [hnodup.erase_eq_filter, List.filter_map]
    rfl
  rw [← List.length_map NbListEntry.neighbor, hmap, List.length_erase_of_mem hn, List.length_map,
    Nat.sub_add_cancel (by rw [← List.length_map NbListEntry.neighbor]; exact List.length_pos_of_mem hn)]

/-- A link that goes on both sides; with its last link, a two hop entry goes. -/
theorem unlinks_unlinkNbr2 (h : TwoHopWf s) {n : Ptr} {x : Nbr2ListEntry} (hx : x ∈ nbr2ListOf s n)
    (hs : unlinkNbr2 n s x = some s') : Unlinks s s' fun m t => m == n && t == x.neighbor2 := by
  obtain ⟨te, e, hte, he, hfresh, hnbr, hcases⟩ := unlinkNbr2_cases hs
  rw [h.owner n x hx] at he hnbr
  have hback : n ∈ te.nblist.map NbListEntry.neighbor := by
    rw [← nblistOf_eq hte]
    exact (h.mirror n x.neighbor2).1 (List.mem_map_of_mem hx)
  have hnodup : (te.nblist.map NbListEntry.neighbor).Nodup := by
    rw [← nblistOf_eq hte]
    exact h.backsNodup x.neighbor2
  have hlen := length_filter_neighbor hnodup hback
  have hpointer : (te.pointer - 1).toInt = (te.nblist.filter fun y => y.neighbor != n).length := by
    rw [toInt_pointer_sub (by rw [h.pointer _ te hte]; omega), h.pointer _ te hte]
    omega
  have hlt : te.pointer - 1 < 1 ↔ te.nblist.filter (fun y => y.neighbor != n) = [] := by
    rw [Int16.lt_iff_toInt_lt, hpointer, ← List.length_eq_zero_iff]
    show _ < (1 : Int) ↔ _
    omega
  have hother : ∀ t, t ≠ x.neighbor2 → s'.nbr2 t = s.nbr2 t := by
    intro t ht
    rcases hcases with ⟨-, hnbr2, -⟩ | ⟨-, -, hnbr2⟩
    · rw [hnbr2, Function.update_of_ne ht]
    · rw [hnbr2, Function.update_of_ne ht]
  have hgone : ∀ t, t ≠ x.neighbor2 → ∀ l : List NbListEntry,
      (l.filter fun y => !(y.neighbor == n && t == x.neighbor2)) = l := by
    intro t ht l
    simp [ht]
  refine ⟨fun m => ?_, fun t te' hte' => ?_, fun t ht m hm => ?_, fun t b => ?_, hfresh.ge⟩
  · by_cases hm : m = n
    · subst hm
      have hlist : nbr2ListOf s' m = (nbr2ListOf s m).filter fun y => y.id != x.id := by
        unfold nbr2ListOf
        rw [hnbr, Function.update_self, he]
        rfl
      rw [hlist, map_filter_id (h.ids m) (h.hopsNodup m) hx]
      refine List.filter_congr fun y _ => ?_
      simp [bne]
    · have hlist : nbr2ListOf s' m = nbr2ListOf s m := by
        unfold nbr2ListOf
        rw [hnbr, Function.update_of_ne hm]
      rw [hlist, eq_comm, List.filter_eq_self]
      intro y _
      simp [hm]
  · by_cases ht : t = x.neighbor2
    · subst ht
      rcases hcases with ⟨-, hnbr2, -⟩ | ⟨hge, -, hnbr2⟩
      · rw [hnbr2, Function.update_self] at hte'
        cases hte'
      · rw [hnbr2, Function.update_self] at hte'
        obtain rfl := Option.some.inj hte'
        refine ⟨te, hte, rfl, ?_, fun hnil => hge (hlt.2 hnil), hpointer⟩
        refine List.filter_congr fun y _ => ?_
        simp [bne]
    · rw [hother t ht] at hte'
      exact ⟨te', hte', rfl, (hgone t ht _).symm, h.nonempty t te' hte', h.pointer t te' hte'⟩
  · by_cases htx : t = x.neighbor2
    · subst htx
      rcases hcases with ⟨hone, -, -⟩ | ⟨-, -, hnbr2⟩
      · have hnil := List.filter_eq_nil_iff.1 (hlt.1 hone)
        unfold backs at hm
        rw [nblistOf_eq hte] at hm
        obtain ⟨y, hy, rfl⟩ := List.mem_map.1 hm
        simpa using hnil y hy
      · rw [hnbr2, Function.update_self] at ht
        cases ht
    · rw [hother t htx] at ht
      unfold backs nblistOf at hm
      rw [ht] at hm
      cases hm
  · rcases hcases with ⟨-, hnbr2, htable⟩ | ⟨-, htable, hnbr2⟩
    · rw [htable, mem_dequeueElem]
      refine and_congr_right fun htb => ?_
      by_cases ht : t = x.neighbor2
      · subst ht; simp [hnbr2]
      · rw [hother t ht]
        obtain ⟨te', hte', -⟩ := (h.queued t b).1 htb
        simp [ht, hte']
    · rw [htable]
      refine (and_iff_left_of_imp fun htb => ?_).symm
      obtain ⟨te', hte', -⟩ := (h.queued t b).1 htb
      by_cases ht : t = x.neighbor2
      · subst ht; simp [hnbr2]
      · rw [hother t ht, hte']; rfl

/-- The loop of `olsr_delete_neighbor_table` leaves the neighbour without two hop links. -/
theorem TwoHopWf.unlinkAll {n : Ptr} : ∀ {l : List Nbr2ListEntry} {s s' : Nbh}, TwoHopWf s → nbr2ListOf s n = l →
    Run.forEach (unlinkNbr2 n) l s = some s' → TwoHopWf s' ∧ nbr2ListOf s' n = []
  | [], s, s', h, hl, hs => by
    obtain rfl := Option.some.inj hs
    exact ⟨h, hl⟩
  | x :: l, s, s', h, hl, hs => by
    obtain ⟨s₁, h₁, hs⟩ := Run.forEach_cons.1 hs
    have hunlinks := unlinks_unlinkNbr2 h (by rw [hl]; exact List.mem_cons_self) h₁
    have hhops := h.hopsNodup n
    unfold hops at hhops
    rw [hl, List.map_cons, List.nodup_cons] at hhops
    refine TwoHopWf.unlinkAll (h.unlinks hunlinks) ?_ hs
    rw [hunlinks.lists, hl, List.filter_cons_of_neg (by simp), List.filter_eq_self]
    intro y hy
    have hne : y.neighbor2 ≠ x.neighbor2 := fun heq => hhops.1 (heq ▸ List.mem_map_of_mem hy)
    simp [hne]

theorem sameHops_freeNbr {n : Ptr} (hn : nbr2ListOf s n = []) : SameHops s (s.freeNbr n) := by
  refine ⟨fun m => ?_, fun _ => rfl, rfl, le_refl _⟩
  by_cases hm : m = n
  · subst hm; rw [hn]; simp [nbr2ListOf, Nbh.freeNbr]
  · simp [nbr2ListOf, Nbh.freeNbr, hm]

theorem TwoHopWf.deleteNeighborTable (h : TwoHopWf s) {a : IpAddr} (hs : olsrDeleteNeighborTable s a = some s') :
    TwoHopWf s' := by
  unfold olsrDeleteNeighborTable at hs
  split at hs
  · obtain rfl := Option.some.inj hs
    exact h
  · obtain ⟨e, he, hs⟩ := Option.bind_eq_some_iff.1 hs
    obtain ⟨s₁, h₁, hs⟩ := Option.bind_eq_some_iff.1 hs
    obtain rfl := Option.some.inj hs
    obtain ⟨hwf, hnil⟩ := h.unlinkAll (nbr2ListOf_eq he) h₁
    exact hwf.same ((sameHops_freeNbr hnil).trans (.of_eq rfl rfl rfl (le_refl _)))

/-! ## The deletion of two hop entries -/

/-- The neighbours chosen by `out` have dropped `t` from their lists. -/
structure Dropped (s s' : Nbh) (t : Ptr) (out : Ptr → Bool) : Prop where
  lists : ∀ n, nbr2ListOf s' n = if out n then (nbr2ListOf s n).filter fun x => x.neighbor2 != t else nbr2ListOf s n
  nbr2 : s'.nbr2 = s.nbr2
  nbr2Table : s'.nbr2Table = s.nbr2Table
  fresh : s'.fresh = s.fresh

theorem Dropped.sublist {t : Ptr} {out : Ptr → Bool} (h : Dropped s s' t out) (n : Ptr) :
    (nbr2ListOf s' n).Sublist (nbr2ListOf s n) := by
  rw [h.lists]
  split
  · exact List.filter_sublist
  · exact List.Sublist.refl _

theorem Dropped.filter {t : Ptr} {out : Ptr → Bool} (h : Dropped s s' t out) (n : Ptr) :
    ((nbr2ListOf s' n).filter fun x => x.neighbor2 != t) = (nbr2ListOf s n).filter fun x => x.neighbor2 != t := by
  rw [h.lists]
  split
  · rw [List.filter_filter]; simp
  · rfl

theorem delNbr2List_cases {x : Nbr2ListEntry} {te : Neighbor2Entry} (hte : s.nbr2 x.neighbor2 = some te)
    (hpointer : ¬ te.pointer < 1) (h : olsrDelNbr2List s x = some s') :
    ∃ e, s.nbr x.nbr2Nbr = some e ∧
      s' = (s.setNbr x.nbr2Nbr { e with nbr2List := e.nbr2List.filter fun y => y.id != x.id }).changed := by
  obtain ⟨te', hte', h⟩ := Option.bind_eq_some_iff.1 h
  obtain rfl := Option.some.inj (hte.symm.trans hte')
  obtain ⟨e, he, h⟩ := Option.bind_eq_some_iff.1 h
  rw [if_neg hpointer] at he h
  exact ⟨e, he, (Option.some.inj h).symm⟩

theorem Dropped.step {s₁ s₂ : Nbh} {t m : Ptr} {te : Neighbor2Entry} {out : Ptr → Bool} (h : TwoHopWf s)
    (hte : s.nbr2 t = some te) (h₁ : Dropped s s₁ t out) (h₂ : olsrDeleteNeighbor2Pointer s₁ m t = some s₂) :
    Dropped s s₂ t fun n => out n || n == m := by
  obtain ⟨e, he, h₂⟩ := Option.bind_eq_some_iff.1 h₂
  have hlist : nbr2ListOf s₁ m = e.nbr2List := nbr2ListOf_eq he
  cases hfind : e.nbr2List.find? fun x => x.neighbor2 == t with
  | none =>
    rw [hfind] at h₂
    obtain rfl := Option.some.inj h₂
    have hnone : ((nbr2ListOf s₁ m).filter fun x => x.neighbor2 != t) = nbr2ListOf s₁ m := by
      rw [List.filter_eq_self, hlist]
      intro y hy
      have hy' := List.find?_eq_none.1 hfind y hy
      simpa using hy'
    refine ⟨fun n => ?_, h₁.nbr2, h₁.nbr2Table, h₁.fresh⟩
    by_cases hn : n = m
    · subst hn
      rw [← hnone, h₁.filter]
      simp
    · simp [hn, h₁.lists n]
  | some x =>
    rw [hfind] at h₂
    have hx : x ∈ nbr2ListOf s₁ m := hlist ▸ List.mem_of_find?_eq_some hfind
    have hxt : x.neighbor2 = t := by simpa using List.find?_some hfind
    have howner : x.nbr2Nbr = m := h.owner m x ((h₁.sublist m).subset hx)
    have hpos : ¬ te.pointer < 1 := by
      rw [Int16.lt_iff_toInt_lt, h.pointer t te hte]
      have hlen := List.length_pos_iff.2 (h.nonempty t te hte)
      show ¬ _ < (1 : Int)
      omega
    obtain ⟨e', he', rfl⟩ := delNbr2List_cases (by rw [h₁.nbr2, hxt]; exact hte) hpos h₂
    rw [howner] at he' ⊢
    obtain rfl := Option.some.inj (he.symm.trans he')
    have hids := (h.ids m).sublist ((h₁.sublist m).map _)
    have hhops : ((nbr2ListOf s₁ m).map Nbr2ListEntry.neighbor2).Nodup := (h.hopsNodup m).sublist ((h₁.sublist m).map _)
    refine ⟨fun n => ?_, h₁.nbr2, h₁.nbr2Table, h₁.fresh⟩
    by_cases hn : n = m
    · subst hn
      have hset : nbr2ListOf (s₁.setNbr n { e with nbr2List := e.nbr2List.filter fun y => y.id != x.id }).changed n =
          (nbr2ListOf s₁ n).filter fun y => y.id != x.id := by
        rw [hlist]; simp [nbr2ListOf, Nbh.changed, Nbh.setNbr]
      rw [hset, map_filter_id hids hhops hx, hxt, h₁.filter]
      simp
    · have hset : nbr2ListOf (s₁.setNbr m { e with nbr2List := e.nbr2List.filter fun y => y.id != x.id }).changed n =
          nbr2ListOf s₁ n := by
        simp [nbr2ListOf, Nbh.changed, Nbh.setNbr, hn]
      rw [hset, h₁.lists]
      simp [hn]

theorem Dropped.loop {t : Ptr} {te : Neighbor2Entry} (h : TwoHopWf s) (hte : s.nbr2 t = some te) :
    ∀ {l : List NbListEntry} {s₁ s₂ : Nbh} {out : Ptr → Bool}, Dropped s s₁ t out →
      Run.forEach (fun s y => olsrDeleteNeighbor2Pointer s y.neighbor t) l s₁ = some s₂ →
      Dropped s s₂ t fun n => out n || (l.map NbListEntry.neighbor).contains n
  | [], s₁, s₂, out, h₁, h₂ => by
    obtain rfl := Option.some.inj h₂
    simpa using h₁
  | y :: l, s₁, s₂, out, h₁, h₂ => by
    obtain ⟨s₃, h₃, h₂⟩ := Run.forEach_cons.1 h₂
    have hrest := Dropped.loop h hte (h₁.step h hte h₃) h₂
    have hout : (fun n => (out n || n == y.neighbor) || (l.map NbListEntry.neighbor).contains n) =
        fun n => out n || ((y :: l).map NbListEntry.neighbor).contains n := by
      funext n
      rw [List.map_cons, List.contains_cons, Bool.or_assoc]
    exact hout ▸ hrest

theorem unlinks_deleteTwoHop (h : TwoHopWf s) {t : Ptr} (hs : olsrDeleteTwoHopNeighborTable s t = some s') :
    Unlinks s s' fun _ u => u == t := by
  obtain ⟨te, hte, hs⟩ := Option.bind_eq_some_iff.1 hs
  obtain ⟨s₁, h₁, hs⟩ := Option.bind_eq_some_iff.1 hs
  obtain ⟨te', hte', hs⟩ := Option.bind_eq_some_iff.1 hs
  obtain rfl := Option.some.inj hs
  have hstart : Dropped s s t fun _ => false := ⟨fun n => by simp, rfl, rfl, rfl⟩
  have hdropped := hstart.loop h hte h₁
  have hother : ∀ u, u ≠ t → (s₁.freeNbr2 t).nbr2 u = s.nbr2 u := by
    intro u hu
    rw [← hdropped.nbr2]
    exact Function.update_of_ne hu _ _
  have hself : (s₁.freeNbr2 t).nbr2 t = none := Function.update_self ..
  refine ⟨fun n => ?_, fun u ue hue => ?_, fun u hu n hn => ?_, fun u b => ?_, hdropped.fresh.ge⟩
  · show nbr2ListOf s₁ n = _
    rw [hdropped.lists]
    by_cases hn : n ∈ te.nblist.map NbListEntry.neighbor
    · rw [if_pos (by simpa using hn)]
      rfl
    · rw [if_neg (by simpa using hn), eq_comm, List.filter_eq_self]
      intro x hx
      have hxt : x.neighbor2 ≠ t := by
        rintro rfl
        have hback := (h.mirror n x.neighbor2).1 (List.mem_map_of_mem hx)
        unfold backs at hback
        rw [nblistOf_eq hte] at hback
        exact hn hback
      simpa using hxt
  · have hut : u ≠ t := by
      rintro rfl
      rw [hself] at hue
      cases hue
    rw [hother u hut] at hue
    refine ⟨ue, hue, rfl, ?_, h.nonempty u ue hue, h.pointer u ue hue⟩
    rw [eq_comm, List.filter_eq_self]
    intro y _
    simp [hut]
  · by_cases hut : u = t
    · simp [hut]
    · rw [hother u hut] at hu
      unfold backs nblistOf at hn
      rw [hu] at hn
      cases hn
  · show u ∈ dequeueElem s₁.nbr2Table t b ↔ _
    rw [mem_dequeueElem, hdropped.nbr2Table]
    refine and_congr_right fun hub => ?_
    by_cases hut : u = t
    · simp [hut, hself]
    · obtain ⟨ue, hue, -⟩ := (h.queued u b).1 hub
      simp [hother u hut, hut, hue]

theorem TwoHopWf.deleteTwoHopIfAny (h : TwoHopWf s) {o : Option Ptr} (hs : deleteTwoHopIfAny s o = some s') :
    TwoHopWf s' := by
  cases o with
  | none => obtain rfl := Option.some.inj hs; exact h
  | some t => exact h.unlinks (unlinks_deleteTwoHop h hs)

/-- Besides the deletion of a two hop entry, nothing happens on the two hop side. -/
theorem updateNeighborStatus_hops {p : Ptr} {lnk : LinkStatus} (h : updateNeighborStatus env s p lnk = some s') :
    ∃ s₁ o, deleteTwoHopIfAny s o = some s₁ ∧ SameHops s₁ s' := by
  have hsignal : ∀ t : Nbh, SameHops t (signalLinkChanges env t.changed) := by
    intro t
    unfold signalLinkChanges
    split
    · exact .of_eq rfl rfl rfl (le_refl _)
    · exact .of_eq rfl rfl rfl (le_refl _)
  obtain ⟨e, he, h⟩ := Option.bind_eq_some_iff.1 h
  split at h
  · split at h
    · obtain rfl := Option.some.inj h
      exact ⟨s, none, rfl, .refl s⟩
    · obtain ⟨s₁, h₁, h⟩ := Option.bind_eq_some_iff.1 h
      obtain ⟨e₁, he₁, h⟩ := Option.bind_eq_some_iff.1 h
      obtain rfl := Option.some.inj h
      exact ⟨s₁, _, h₁, (hsignal s₁).trans (.setNbr he₁ rfl)⟩
  · obtain rfl := Option.some.inj h
    refine ⟨s, none, rfl, ?_⟩
    split
    · rename_i hsym
      have he' : (signalLinkChanges env s.changed).nbr p = some e := by
        unfold signalLinkChanges
        split
        · exact he
        · exact he
      exact (hsignal s).trans (.setNbr he' rfl)
    · exact .setNbr he rfl

theorem TwoHopWf.updateNeighborStatus (h : TwoHopWf s) {p : Ptr} {lnk : LinkStatus}
    (hs : updateNeighborStatus env s p lnk = some s') : TwoHopWf s' := by
  obtain ⟨s₁, o, h₁, hsame⟩ := updateNeighborStatus_hops hs
  exact (h.deleteTwoHopIfAny h₁).same hsame

/-! ## New links -/

/-- A new link between the neighbour `n` and the two hop entry `t`. -/
structure Links (s s' : Nbh) (n t : Ptr) (x : Nbr2ListEntry) (te : Neighbor2Entry) : Prop where
  lists : ∀ m, nbr2ListOf s' m = if m = n then x :: nbr2ListOf s n else nbr2ListOf s m
  target : x.neighbor2 = t
  owner : x.nbr2Nbr = n
  id : s.fresh ≤ x.id ∧ x.id < s'.fresh
  nbr2 : s'.nbr2 = Function.update s.nbr2 t (some te)
  nblist : te.nblist.map NbListEntry.neighbor = n :: backs s t
  pointer : te.pointer.toInt = te.nblist.length
  addr : ∀ u ue, s.nbr2 u = some ue → (ue.addr = te.addr ↔ u = t)
  nbr2Table : ∀ u b, u ∈ s'.nbr2Table b ↔ u ∈ s.nbr2Table b ∨ (u = t ∧ olsrIpHashing te.addr = b)
  fresh : t < s'.fresh

section

variable {n t : Ptr} {x : Nbr2ListEntry} {te : Neighbor2Entry}

theorem Links.hops (h : Links s s' n t x te) (m : Ptr) :
    Neighbor.hops s' m = if m = n then t :: Neighbor.hops s n else Neighbor.hops s m := by
  unfold Neighbor.hops
  rw [h.lists]
  split
  · rw [List.map_cons, h.target]
  · rfl

theorem Links.other (h : Links s s' n t x te) {u : Ptr} (hu : u ≠ t) : s'.nbr2 u = s.nbr2 u := by
  rw [h.nbr2, Function.update_of_ne hu]

theorem Links.self (h : Links s s' n t x te) : s'.nbr2 t = some te := by
  rw [h.nbr2, Function.update_self]

theorem Links.backs (h : Links s s' n t x te) (u : Ptr) :
    Neighbor.backs s' u = if u = t then n :: Neighbor.backs s t else Neighbor.backs s u := by
  split
  · rename_i hu
    rw [hu, ← h.nblist]
    unfold Neighbor.backs
    rw [nblistOf_eq h.self]
  · rename_i hu
    unfold Neighbor.backs nblistOf
    rw [h.other hu]

/-- The two lists of a new link stay in step. -/
theorem CrossLinked.links (h : CrossLinked s) (h' : Links s s' n t x te) (hnew : n ∉ backs s t) : CrossLinked s' := by
  refine ⟨?_, ?_, ?_, ?_, ?_⟩
  · intro m u
    rw [h'.hops, h'.backs]
    by_cases hm : m = n
    · subst hm
      by_cases hu : u = t
      · simp [hu]
      · simp [hu, h.mirror]
    · by_cases hu : u = t
      · subst hu; simp [hm, h.mirror]
      · simp [hm, hu, h.mirror]
  · intro m
    rw [h'.hops]
    split
    · exact List.nodup_cons.2 ⟨fun ht => hnew ((h.mirror n t).1 ht), h.hopsNodup n⟩
    · exact h.hopsNodup m
  · intro u
    rw [h'.backs]
    split
    · exact List.nodup_cons.2 ⟨hnew, h.backsNodup t⟩
    · exact h.backsNodup u
  · intro u ue hue
    by_cases hu : u = t
    · subst hu
      obtain rfl := Option.some.inj (h'.self.symm.trans hue)
      exact h'.pointer
    · rw [h'.other hu] at hue
      exact h.pointer u ue hue
  · intro u ue hue
    by_cases hu : u = t
    · subst hu
      obtain rfl := Option.some.inj (h'.self.symm.trans hue)
      intro hnil
      have hlist := h'.nblist
      rw [hnil] at hlist
      cases hlist
    · rw [h'.other hu] at hue
      exact h.nonempty u ue hue

theorem TwoHopWf.links (h : TwoHopWf s) (h' : Links s s' n t x te) (hnew : n ∉ backs s t) : TwoHopWf s' := by
  have hfresh : s.fresh ≤ s'.fresh := h'.id.1.trans h'.id.2.le
  refine ⟨h.toCrossLinked.links h' hnew, ?_, ?_, ?_, ?_, ?_, ?_⟩
  · intro m y hy
    rw [h'.lists] at hy
    split at hy
    · rename_i hm
      rcases List.mem_cons.1 hy with rfl | hy
      · rw [h'.owner, hm]
      · rw [hm]; exact h.owner n y hy
    · exact h.owner m y hy
  · intro m
    rw [h'.lists]
    split
    · rw [List.map_cons, List.nodup_cons]
      refine ⟨fun hid => ?_, h.ids n⟩
      obtain ⟨y, hy, hyx⟩ := List.mem_map.1 hid
      have hlt := h.idFresh n y hy
      rw [hyx] at hlt
      exact absurd h'.id.1 (Nat.not_le_of_lt hlt)
    · exact h.ids m
  · intro m y hy
    rw [h'.lists] at hy
    split at hy
    · rcases List.mem_cons.1 hy with rfl | hy
      · exact h'.id.2
      · exact (h.idFresh n y hy).trans_le hfresh
    · exact (h.idFresh m y hy).trans_le hfresh
  · intro u b
    rw [h'.nbr2Table, h.queued]
    by_cases hu : u = t
    · subst hu
      rw [h'.self]
      constructor
      · rintro (⟨ue, hue, hb⟩ | ⟨-, hb⟩)
        · exact ⟨te, rfl, by rw [← (h'.addr u ue hue).2 rfl]; exact hb⟩
        · exact ⟨te, rfl, hb⟩
      · rintro ⟨ue, hue, hb⟩
        obtain rfl := Option.some.inj hue
        exact .inr ⟨rfl, hb⟩
    · simp [h'.other hu, hu]
  · intro u v ue ve hue hve haddr
    by_cases hu : u = t
    · subst hu
      obtain rfl := Option.some.inj (h'.self.symm.trans hue)
      by_cases hv : v = u
      · exact hv.symm
      · rw [h'.other hv] at hve
        exact ((h'.addr v ve hve).1 haddr.symm).symm
    · rw [h'.other hu] at hue
      by_cases hv : v = t
      · subst hv
        obtain rfl := Option.some.inj (h'.self.symm.trans hve)
        exact (h'.addr u ue hue).1 haddr
      · rw [h'.other hv] at hve
        exact h.addrs u v ue ve hue hve haddr
  · intro u hu
    rw [h'.other (Nat.ne_of_gt (h'.fresh.trans_le hu))]
    exact h.fresh u (hfresh.trans hu)

end

theorem links_linking (s₁ : Nbh) {n t : Ptr} {vtime : Nat} (te : Neighbor2Entry) (hnbr : s₁.nbr = s.nbr)
    (hfresh : s.fresh ≤ s₁.fresh) (hnbr2 : s₁.nbr2 = Function.update s.nbr2 t (some te))
    (hlist : te.nblist = nblistOf s t)
    (hpointer : te.pointer.toInt = te.nblist.length) (hlen : te.nblist.length < 32767)
    (haddr : ∀ u ue, s.nbr2 u = some ue → (ue.addr = te.addr ↔ u = t))
    (htable : ∀ u b, u ∈ s₁.nbr2Table b ↔ u ∈ s.nbr2Table b ∨ (u = t ∧ olsrIpHashing te.addr = b))
    (ht : t < s₁.fresh + 1)
    (h : linkingThis2Entries s₁ n t vtime = some s') :
    Links s s' n t ⟨s₁.fresh, n, t, none⟩ (te.link n) := by
  obtain ⟨te', hte', h⟩ := Option.bind_eq_some_iff.1 h
  obtain ⟨e, he, h⟩ := Option.bind_eq_some_iff.1 h
  obtain rfl := Option.some.inj h
  have hte : te' = te := by
    rw [hnbr2, Function.update_self] at hte'
    exact (Option.some.inj hte').symm
  subst hte
  have he' : s.nbr n = some e := by rw [← hnbr]; exact he
  refine ⟨fun m => ?_, rfl, rfl, ⟨hfresh, Nat.lt_succ_self _⟩, ?_, ?_, ?_, haddr, htable, ht⟩
  · by_cases hm : m = n
    · subst hm
      rw [if_pos rfl, nbr2ListOf_eq he']
      simp [nbr2ListOf, Nbh.allocated, Nbh.setNbr, Nbh.setNbr2, olsrChangeTimer]
    · rw [if_neg hm]
      simp [nbr2ListOf, Nbh.allocated, Nbh.setNbr, Nbh.setNbr2, hm, hnbr]
  · show Function.update s₁.nbr2 t (some (te'.link n)) = _
    rw [hnbr2, Function.update_idem]
  · show n :: te'.nblist.map NbListEntry.neighbor = _
    rw [hlist]
    rfl
  · show (te'.pointer + 1).toInt = ((te'.nblist.length + 1 : Nat) : Int)
    rw [toInt_pointer_add (by omega) (by omega), hpointer]
    omega

/-- What a neighbour of a HELLO message does not do: hit a two hop entry of another address that the sender has been
linked to, or one with as many neighbours as the counter can count. -/
def LinkOk (n : Ptr) (s : Nbh) (m : HelloNeighbor) : Prop :=
  m.symNeigh = true → olsrLookupMyNeighbors s n m.address = some none → ∀ t te,
    olsrLookupTwoHopNeighborTable s m.address = some t → s.nbr2 t = some te →
      te.nblist.length < 32767 ∧ ∀ y ∈ te.nblist, y.neighbor ≠ n

theorem TwoHopWf.lookup_none (h : TwoHopWf s) {a : IpAddr} (hno : olsrLookupTwoHopNeighborTable s a = none) {t : Ptr}
    {te : Neighbor2Entry} (hte : s.nbr2 t = some te) : te.addr ≠ a := by
  rintro rfl
  have hnot := List.find?_eq_none.1 hno t ((h.queued t _).2 ⟨te, hte, rfl⟩)
  simp [hte] at hnot

theorem sameHops_updateNblist {n t : Ptr} {f : NbListEntry → NbListEntry} (hf : ∀ y, (f y).neighbor = y.neighbor)
    (h : updateNblist s n t f = some s') : SameHops s s' := by
  obtain ⟨te, hte, h⟩ := Option.bind_eq_some_iff.1 h
  obtain rfl := Option.some.inj h
  refine .setNbr2 hte ?_
  unfold Neighbor2Entry.core
  rw [List.map_map]
  refine congrArg (fun l => (te.addr, te.pointer, l)) (List.map_congr_left fun y _ => ?_)
  show NbListEntry.neighbor (if y.neighbor = n then f y else y) = y.neighbor
  split
  · exact hf y
  · rfl

theorem map_core_refreshTimer (now random vtime : Nat) (id : Ptr) (l : List Nbr2ListEntry) :
    (refreshTimer now random vtime id l).map Nbr2ListEntry.core = l.map Nbr2ListEntry.core := by
  unfold refreshTimer
  rw [List.map_map]
  refine List.map_congr_left fun y _ => ?_
  show Nbr2ListEntry.core (if y.id = id then _ else y) = y.core
  split
  · rfl
  · rfl

theorem sameHops_refresh {random : Ptr → Nat} {n : Ptr} {x : Nbr2ListEntry} {vtime : Nat}
    (h : refreshNbr2 env s random n x vtime = some s') : SameHops s s' := by
  obtain ⟨e, he, h⟩ := Option.bind_eq_some_iff.1 h
  have hset : SameHops s (s.setNbr n { e with nbr2List := refreshTimer s.now (random x.id) vtime x.id e.nbr2List }) :=
    .setNbr he (map_core_refreshTimer _ _ _ _ _)
  refine hset.trans ?_
  dsimp only at h
  split at h
  · exact sameHops_updateNblist (by intro; rfl) h
  · obtain rfl := Option.some.inj h
    exact .refl _

/-- The address of a two hop entry. -/
def addrOf (s : Nbh) (t : Ptr) : Option IpAddr := (s.nbr2 t).map Neighbor2Entry.addr

/-- The address of the two hop entry that a neighbour listed as `a` is linked to. -/
def linkAddr (s : Nbh) (a : IpAddr) : IpAddr := ((olsrLookupTwoHopNeighborTable s a).bind (addrOf s)).getD a

/-- A neighbour that the sender had not been linked to. -/
theorem links_processNeighbor (h : TwoHopWf s) {random : Ptr → Nat} {n : Ptr} {vtime : Nat} {m : HelloNeighbor}
    (hok : LinkOk n s m) (hsym : m.symNeigh = true) (hno : olsrLookupMyNeighbors s n m.address = some none)
    (hs : processNeighbor env random n vtime s m = some s') :
    ∃ t x te, Links s s' n t x te ∧ n ∉ backs s t ∧ x.nbr2ListTimer = none ∧ te.addr = linkAddr s m.address := by
  unfold processNeighbor at hs
  rw [if_pos hsym, hno] at hs
  unfold linkAddr
  cases hl : olsrLookupTwoHopNeighborTable s m.address with
  | some t =>
    simp only [hl] at hs
    have hqueued := List.mem_of_find?_eq_some hl
    obtain ⟨te, hte, -⟩ := (h.queued t _).1 hqueued
    obtain ⟨hlen, hnew⟩ := hok hsym hno t te hl hte
    refine ⟨t, _, _, links_linking s.changed te rfl (le_refl _) ?_ (nblistOf_eq hte).symm (h.pointer t te hte) hlen
      ?_ ?_ ?_ hs, ?_, rfl, ?_⟩
    · rw [← hte, Function.update_eq_self]; rfl
    · intro u ue hue
      constructor
      · exact fun haddr => h.addrs u t ue te hue hte haddr
      · rintro rfl
        rw [Option.some.inj (hue.symm.trans hte)]
    · intro u b
      rw [or_iff_left_of_imp]
      · rfl
      · rintro ⟨rfl, hb⟩
        exact (h.queued u b).2 ⟨te, hte, hb⟩
    · refine Nat.lt_succ_of_lt (Nat.lt_of_not_le fun hle => ?_)
      rw [h.fresh t hle] at hte
      cases hte
    · intro hn
      unfold backs at hn
      rw [nblistOf_eq hte] at hn
      obtain ⟨y, hy, hyn⟩ := List.mem_map.1 hn
      exact hnew y hy hyn
    · simp [addrOf, hte, Neighbor2Entry.link]
  | none =>
    simp only [hl] at hs
    have hnone : s.nbr2 s.fresh = none := h.fresh _ (le_refl _)
    refine ⟨s.fresh, _, _, links_linking (insertTwoHop s m.address).1.changed ⟨m.address, 0, []⟩ rfl
      (Nat.le_succ _) rfl ?_ rfl (by simp) ?_ ?_ ?_ hs, ?_, rfl, rfl⟩
    · unfold nblistOf
      rw [hnone]
      rfl
    · intro u ue hue
      refine iff_of_false (h.lookup_none hl hue) ?_
      rintro rfl
      rw [hnone] at hue
      cases hue
    · intro u b
      show u ∈ queueElem s.nbr2Table _ s.fresh b ↔ _
      rw [mem_queueElem]
      show _ ↔ _ ∨ (u = s.fresh ∧ olsrIpHashing m.address = b)
      rw [or_comm, and_comm, eq_comm (a := b)]
    · exact Nat.lt_succ_of_lt (Nat.lt_succ_self _)
    · unfold backs nblistOf
      rw [hnone]
      simp

theorem processNeighbor_cases {random : Ptr → Nat} {n : Ptr} {vtime : Nat} {m : HelloNeighbor}
    (hs : processNeighbor env random n vtime s m = some s') : (¬ m.symNeigh = true ∧ s' = s) ∨ (m.symNeigh = true ∧
      ((∃ x, olsrLookupMyNeighbors s n m.address = some (some x) ∧ refreshNbr2 env s random n x vtime = some s') ∨
        olsrLookupMyNeighbors s n m.address = some none)) := by
  unfold processNeighbor at hs
  split at hs
  · rename_i hsym
    obtain ⟨o, ho, hs⟩ := Option.bind_eq_some_iff.1 hs
    cases o with
    | some x => exact .inr ⟨hsym, .inl ⟨x, ho, hs⟩⟩
    | none => exact .inr ⟨hsym, .inr ho⟩
  · exact .inl ⟨‹_›, (Option.some.inj hs).symm⟩

theorem TwoHopWf.processNeighbor (h : TwoHopWf s) {random : Ptr → Nat} {n : Ptr} {vtime : Nat} {m : HelloNeighbor}
    (hok : LinkOk n s m) (hs : processNeighbor env random n vtime s m = some s') : TwoHopWf s' := by
  rcases processNeighbor_cases hs with ⟨-, rfl⟩ | ⟨hsym, ⟨x, -, hrefresh⟩ | hno⟩
  · exact h
  · exact h.same (sameHops_refresh hrefresh)
  · obtain ⟨t, x, te, hlinks, hnew, -⟩ := links_processNeighbor h hok hsym hno hs
    exact h.links hlinks hnew

/-- Costs of paths are no part of the links. -/
theorem processCost_cases {n : Ptr} {firstHop : UInt32} {m : HelloNeighbor}
    (h : processCost env n firstHop s m = some s') : SameHops s s' ∧ s'.nbr = s.nbr ∧ s'.now = s.now := by
  unfold processCost at h
  split at h
  · obtain ⟨o, -, h⟩ := Option.bind_eq_some_iff.1 h
    cases o with
    | none => obtain rfl := Option.some.inj h; exact ⟨.refl s, rfl, rfl⟩
    | some x =>
      obtain ⟨t, -, h⟩ := Option.bind_eq_some_iff.1 h
      obtain ⟨s₁, h₁, h⟩ := Option.bind_eq_some_iff.1 h
      obtain rfl := Option.some.inj h
      have hbetter : ∀ y, (betterPath firstHop m.cost y).neighbor = y.neighbor := by
        intro y
        unfold betterPath
        split
        · rfl
        · rfl
      have hsame := sameHops_updateNblist hbetter h₁
      obtain ⟨te, -, h₁⟩ := Option.bind_eq_some_iff.1 h₁
      obtain rfl := Option.some.inj h₁
      split
      · exact ⟨hsame.trans (.of_eq rfl rfl rfl (le_refl _)), rfl, rfl⟩
      · exact ⟨hsame, rfl, rfl⟩
  · obtain rfl := Option.some.inj h; exact ⟨.refl s, rfl, rfl⟩

/-- After the neighbours have been linked, only path costs change. -/
theorem processMessageNeighbors_cases {random : Ptr → Nat} {n : Ptr} {message : HelloMessage}
    (h : processMessageNeighbors env s random n message = some s') : ∃ s₁,
    Run.forEach (processNeighbor env random n message.vtime) (foreignNeighbors env s message.neighbors) s = some s₁ ∧
      SameHops s₁ s' ∧ s'.nbr = s₁.nbr ∧ s'.now = s₁.now := by
  obtain ⟨s₁, h₁, h⟩ := Option.bind_eq_some_iff.1 h
  refine ⟨s₁, h₁, ?_⟩
  split at h
  · obtain ⟨e, -, h⟩ := Option.bind_eq_some_iff.1 h
    obtain ⟨o, -, h⟩ := Option.bind_eq_some_iff.1 h
    cases o with
    | none => obtain rfl := Option.some.inj h; exact ⟨.refl _, rfl, rfl⟩
    | some l =>
      refine Run.forEach_relation (R := fun s s' => SameHops s s' ∧ s'.nbr = s.nbr ∧ s'.now = s.now)
        (fun s => ⟨.refl s, rfl, rfl⟩) (fun _ _ _ h₁ h₂ => ?_) (fun _ _ _ => processCost_cases) h
      exact ⟨h₁.1.trans h₂.1, h₂.2.1.trans h₁.2.1, h₂.2.2.trans h₁.2.2⟩
  · obtain rfl := Option.some.inj h; exact ⟨.refl _, rfl, rfl⟩

/-! ## Aliases -/

/-- An alias that has a neighbour entry beside the one of its main address: the entry has no two hop links left once
the two hop entry of the alias has gone. -/
def MergeOk (m : IpAddr) (s : Nbh) (a : IpAddr) : Prop :=
  (olsrLookupNeighborTableAlias s m).isSome → ∀ tmp e, olsrLookupNeighborTableAlias s a = some tmp →
    s.nbr tmp = some e → ∀ x ∈ e.nbr2List, olsrLookupTwoHopNeighborTableMid s a = some x.neighbor2

theorem sameHops_replaceLinks (s : Nbh) (old new : Ptr) : SameHops s (replaceNeighborLinkSet s old new) :=
  .of_eq rfl rfl rfl (le_refl _)

theorem TwoHopWf.mergeAlias (h : TwoHopWf s) {m a : IpAddr} (hok : MergeOk m s a) (hs : mergeAlias m s a = some s') :
    TwoHopWf s' := by
  obtain ⟨s₁, b, h₁, rfl⟩ := mergeAlias_cases hs
  have hkeys := (twoHopOnly_deleteTwoHopIfAny h₁).sameKeys
  have hflag : SameHops s₁ { s₁ with changesNeighborhood := b } := .of_eq rfl rfl rfl (le_refl _)
  rcases mergeNeighbors_cases { s₁ with changesNeighborhood := b } (olsrLookupNeighborTableAlias s₁ a)
    (olsrLookupNeighborTableAlias s₁ m) with heq | ⟨tmp, real, htmp, hreal, heq⟩
  · rw [heq]
    exact (h.deleteTwoHopIfAny h₁).same hflag
  · rw [heq]
    rw [hkeys.lookup] at htmp hreal
    have hlinks : ∀ x ∈ nbr2ListOf s tmp, olsrLookupTwoHopNeighborTableMid s a = some x.neighbor2 := by
      intro x hx
      obtain ⟨e, he⟩ := exists_nbr_of_mem hx
      exact hok (by rw [hreal]; rfl) tmp e htmp he x (nbr2ListOf_eq he ▸ hx)
    have hnil : nbr2ListOf s₁ tmp = [] := by
      cases hl : olsrLookupTwoHopNeighborTableMid s a with
      | none =>
        rw [hl] at h₁ hlinks
        obtain rfl := Option.some.inj h₁
        exact List.eq_nil_iff_forall_not_mem.2 fun x hx => by cases hlinks x hx
      | some t =>
        rw [hl] at h₁ hlinks
        rw [(unlinks_deleteTwoHop h h₁).lists, List.filter_eq_nil_iff]
        intro x hx
        simp [Option.some.inj (hlinks x hx)]
    have hreplaced := hflag.trans (sameHops_replaceLinks _ tmp real)
    have hfree : SameHops (replaceNeighborLinkSet { s₁ with changesNeighborhood := b } tmp real) _ :=
      sameHops_freeNbr hnil
    exact (h.deleteTwoHopIfAny h₁).same ((hreplaced.trans hfree).trans (.of_eq rfl rfl rfl (le_refl _)))

theorem sameHops_inserted (hw : TableWf s) (a : IpAddr) : SameHops s (inserted s a) := by
  refine ⟨fun n => ?_, fun _ => rfl, rfl, Nat.le_succ _⟩
  by_cases hn : n = s.fresh
  · subst hn
    have hnone : s.nbr s.fresh = none := by
      have hkey := hw.fresh s.fresh (le_refl _)
      unfold keyOf at hkey
      exact Option.map_eq_none_iff.1 hkey
    simp [nbr2ListOf, inserted, hnone, newNeighborEntry]
  · simp [nbr2ListOf, inserted, hn]

theorem sameHops_insertNeighborTable (hw : TableWf s) (a : IpAddr) : SameHops s (olsrInsertNeighborTable s a).1 := by
  rcases insertNeighborTable_cases s a with ⟨p, -, heq⟩ | ⟨-, heq⟩
  · rw [heq]; exact .refl s
  · rw [heq]; exact sameHops_inserted hw a

theorem TwoHopWf.replaceNeighbor (h : TwoHopWf s) (hw : TableWf s) {m a : IpAddr}
    (hs : replaceNeighbor s m a = some s') : TwoHopWf s' := by
  rcases replaceNeighbor_cases hs with ⟨-, rfl⟩ | ⟨old, s₁, mid, -, h₁, rfl⟩
  · exact h
  · have hw₁ : TableWf s₁ := keyClosed_tableWf.any.deleteNeighbor hw h₁
    have hinsert := (sameHops_insertNeighborTable hw₁ m).trans
      (sameHops_replaceLinks _ old (olsrInsertNeighborTable s₁ m).2)
    exact (h.deleteNeighborTable h₁).same (hinsert.trans (.of_eq rfl rfl rfl (le_refl _)))

/-! ## Runs -/

/-- Each neighbour that a HELLO message lists, and each alias that is merged, meets its condition when its turn
comes. -/
def CrossOk (env : Env) (s : Nbh) : Event → Prop
  | .processMessageNeighbors random n message =>
    Run.Rounds (LinkOk n) (processNeighbor env random n message.vtime) (foreignNeighbors env s message.neighbors) s
  | .insertMidAlias random m a vtime => olsrValidateAddress env.cnf a = true → ∀ s₁, replaceNeighbor s m a = some s₁ →
    midLookupMainAddr s₁.mid a ≠ some m → Run.Rounds (MergeOk m) (mergeAlias m) (a :: midLookupAliases s₁.mid m)
      { s₁ with mid := s₁.mid.register s₁.now random m a vtime }
  | _ => True

theorem twoHopWf_emptyNbh : TwoHopWf emptyNbh where
  mirror := by simp [hops, backs, nbr2ListOf, nblistOf, emptyNbh]
  hopsNodup := by simp [hops, nbr2ListOf, emptyNbh]
  backsNodup := by simp [backs, nblistOf, emptyNbh]
  pointer := by simp [emptyNbh]
  nonempty := by simp [emptyNbh]
  owner := by simp [nbr2ListOf, emptyNbh]
  ids := by simp [nbr2ListOf, emptyNbh]
  idFresh := by simp [nbr2ListOf, emptyNbh]
  queued := by simp [emptyNbh]
  addrs := by simp [emptyNbh]
  fresh := by simp [emptyNbh]

theorem TwoHopWf.insertMidAlias (h : TwoHopWf s) (hw : TableWf s) {random : Nat} {m a : IpAddr} {vtime : Nat}
    (hok : CrossOk env s (.insertMidAlias random m a vtime)) (hs : insertMidAlias env s random m a vtime = some s') :
    TwoHopWf s' := by
  by_cases hv : olsrValidateAddress env.cnf a = true
  · rcases insertMidAlias_cases hs with rfl | ⟨s₁, s₂, h₁, h₂, rfl⟩
    · exact h
    · have hreplaced := h.replaceNeighbor hw h₁
      have htuple : TwoHopWf s₂ := by
        rcases insertMidTuple_cases h₂ with rfl | ⟨hnew, h₂⟩
        · exact hreplaced
        · exact Run.forEach_rounds (fun _ _ _ h₃ => h₃.mergeAlias) (hok hv s₁ h₁ hnew)
            (hreplaced.same (.of_eq rfl rfl rfl (le_refl _))) h₂
      exact htuple.same (.of_eq rfl rfl rfl (le_refl _))
  · unfold Neighbor.insertMidAlias at hs
    rw [if_pos (by simp [hv])] at hs
    obtain rfl := Option.some.inj hs
    exact h

theorem sameHops_rekeyed {p : Ptr} {e : NeighborEntry} (he : s.nbr p = some e) (a : IpAddr) :
    SameHops s (rekeyed s p e a) :=
  (SameHops.setNbr (f := { e with mainAddr := a }) he rfl).trans (.of_eq rfl rfl rfl (le_refl _))

theorem TwoHopWf.lookupLinkEntry (h : TwoHopWf s) {remote a : IpAddr} {ifc : Interface} {o : Option LinkEntry}
    (hs : lookupLinkEntry s remote a ifc = some (s', o)) : TwoHopWf s' :=
  lookupLinkEntry_invariant h (fun _ _ hm => h.same (sameHops_rekeyed hm.2.1 a)) hs

theorem TwoHopWf.helloLink (h : TwoHopWf s) (hw : TableWf s) {hin : HelloInput} {x : Nbh × Ptr}
    (hs : helloLink env s hin = some x) : TwoHopWf x.1 := by
  obtain ⟨s₁, l, h₁, h₂, -⟩ := helloLink_cases hs
  have hadded : TwoHopWf s₁ := by
    rcases addLinkEntry_cases h₁ with hl | ⟨-, s₀, p, e, heq, he, -, rfl⟩
    · exact h.lookupLinkEntry hl
    · have hallocated : SameHops s s.allocated := .of_eq rfl rfl rfl (Nat.le_succ _)
      have hneighbor : SameHops s s₀ := by
        rcases neighborFor_cases s.allocated hin.message.sourceAddr with ⟨q, b, -, heq'⟩ | ⟨-, heq'⟩
        · obtain ⟨rfl, rfl⟩ := Prod.mk.inj (heq'.symm.trans heq)
          exact hallocated
        · obtain ⟨rfl, rfl⟩ := Prod.mk.inj (heq'.symm.trans heq)
          exact hallocated.trans (sameHops_inserted (hw.same (TwoHopOnly.allocated s).sameKeys) _)
      have hcounted : SameHops s₀ (s₀.setNbr p { e with linkcount := e.linkcount + 1 }) := .setNbr he rfl
      exact h.same ((hneighbor.trans hcounted).trans (.of_eq rfl rfl rfl (le_refl _)))
  have hsensed : TwoHopWf (s₁.updateLink l.id (sensedLink s₁.now (hin.random 0) hin.message hin.inIf hin.hyst)) :=
    hadded.same (.of_eq rfl rfl rfl (le_refl _))
  exact hsensed.updateNeighborStatus h₂

theorem TwoHopWf.deleteLinkEntry (h : TwoHopWf s) {l : LinkEntry} (hs : olsrDeleteLinkEntry s l = some s') :
    TwoHopWf s' := by
  obtain ⟨e, s₁, he, rfl, ⟨-, h₁⟩ | ⟨-, rfl⟩⟩ := deleteLinkEntry_cases hs
  · exact (h.deleteNeighborTable h₁).same (.of_eq rfl rfl rfl (le_refl _))
  · have hset : SameHops s (s.setNbr l.neighbor { e with linkcount := e.linkcount - 1 }) := .setNbr he rfl
    exact h.same (hset.trans (.of_eq rfl rfl rfl (le_refl _)))

theorem TwoHopWf.step (h : TwoHopWf s) (hw : TableWf s) {ev : Event} (hen : ev.Enabled s) (hok : CrossOk env s ev)
    (hs : step env s ev = some s') : TwoHopWf s' := by
  have hlinks : ∀ (t : Nbh) (id : Ptr) (f : LinkEntry → LinkEntry), SameHops t (t.updateLink id f) :=
    fun t id f => .of_eq rfl rfl rfl (le_refl _)
  cases ev with
  | tick now => obtain rfl := Option.some.inj hs; exact h.same (.of_eq rfl rfl rfl (le_refl _))
  | helloLink hin =>
    obtain ⟨x, hx, rfl⟩ := Option.map_eq_some_iff.1 hs
    exact h.helloLink hw hx
  | lookupLink remote a ifc =>
    obtain ⟨⟨s₁, o⟩, hx, rfl⟩ := Option.map_eq_some_iff.1 hs
    exact h.lookupLinkEntry hx
  | insertMidAlias random m a vtime => exact h.insertMidAlias hw hok hs
  | setLinkcost id cost => obtain rfl := Option.some.inj hs; exact h.same (hlinks s id _)
  | setWillingness p w =>
    rcases setWillingness_cases hs with rfl | ⟨e, he, rfl⟩
    · exact h
    · have hset : SameHops s (s.setNbr p { e with willingness := w }) := .setNbr he rfl
      exact h.same (hset.trans (.of_eq rfl rfl rfl (le_refl _)))
  | processMessageNeighbors random n message =>
    obtain ⟨s₁, h₁, hsame, -⟩ := processMessageNeighbors_cases hs
    exact (Run.forEach_rounds (fun _ _ _ h₂ => h₂.processNeighbor) hok h h₁).same hsame
  | expireNbr2List x =>
    obtain ⟨p, e, he, hx, -⟩ := hen
    rw [← nbr2ListOf_eq he] at hx
    change unlinkNbr2 x.nbr2Nbr s x = some s' at hs
    rw [h.owner p x hx] at hs
    exact h.unlinks (unlinks_unlinkNbr2 h hx hs)
  | expireLinkSym l =>
    rcases expireLinkSym_cases hs with ⟨-, rfl⟩ | ⟨-, s₁, s₂, rfl, h₂, rfl⟩
    · exact h.same (hlinks s l.id _)
    · exact (((h.same (hlinks s l.id _)).same (hlinks _ l.id _)).updateNeighborStatus h₂).same
        (.of_eq rfl rfl rfl (le_refl _))
  | expireLinkHello l hyst => exact (h.same (hlinks s l.id _)).updateNeighborStatus hs
  | deleteLink l => exact h.deleteLinkEntry hs
  | insertNeighbor a => obtain rfl := Option.some.inj hs; exact h.same (sameHops_insertNeighborTable hw a)
  | deleteNeighbor a => exact h.deleteNeighborTable hs
  | deleteTwoHop t => exact h.unlinks (unlinks_deleteTwoHop h hs)
  | changeMid mid => obtain rfl := Option.some.inj hs; exact h.same (.of_eq rfl rfl rfl (le_refl _))

theorem reachable_twoHopWf (h : Reachable env (CrossOk env) s) : TwoHopWf s := by
  have hboth : TableWf s ∧ TwoHopWf s := by
    refine Run.Reaches.invariant (P := fun s => TableWf s ∧ TwoHopWf s) ?_ ?_ h
    · rintro _ rfl
      exact ⟨keyed_emptyNbh.toTableWf, twoHopWf_emptyNbh⟩
    · rintro s ev s' ⟨hw, ht⟩ ⟨hen, hok⟩ hstep
      exact ⟨hw.step hstep, ht.step hw hen hok hstep⟩
  exact hboth.2

/-- As long as no neighbour is linked twice to a two hop entry, no counter overflows and no neighbour entry is merged
away with its two hop links, the lists on both sides agree and all that they name is in the tables. -/
theorem reachable_crossLinked (h : Reachable env (CrossOk env) s) : CrossLinked s ∧ ∀ n t, t ∈ hops s n →
    (∃ e, s.nbr n = some e ∧ n ∈ s.nbrTable (olsrIpHashing e.mainAddr)) ∧
      ∃ te, s.nbr2 t = some te ∧ t ∈ s.nbr2Table (olsrIpHashing te.addr) := by
  have hw := reachable_tableWf h
  have ht := reachable_twoHopWf h
  refine ⟨ht.toCrossLinked, fun n t hnt => ?_⟩
  obtain ⟨x, hx, -⟩ := List.mem_map.1 hnt
  obtain ⟨e, he⟩ := exists_nbr_of_mem hx
  obtain ⟨te, hte⟩ := exists_nbr2_of_mem ((ht.mirror n t).1 hnt)
  exact ⟨⟨e, he, (hw.queued n _).2 ⟨_, keyOf_eq he, rfl⟩⟩, te, hte, (ht.queued t _).2 ⟨te, hte, rfl⟩⟩

/-- 10.0.0.5 as a symmetric neighbour of the sender. -/
def symNeighbor5 : HelloNeighbor := ⟨[10, 0, 0, 5], .sym, true, 1024⟩

/-- The state after the link of a first HELLO message has been made. -/
def firstLink : Nbh :=
  ((step oneInterface emptyNbh (.helloLink (helloFrom [10, 0, 0, 2] [10, 0, 0, 2] []))).getD emptyNbh)

theorem step_firstLink :
    step oneInterface emptyNbh (.helloLink (helloFrom [10, 0, 0, 2] [10, 0, 0, 2] [])) = some firstLink := by
  have hsome : (step oneInterface emptyNbh (.helloLink (helloFrom [10, 0, 0, 2] [10, 0, 0, 2] []))).isSome = true := by
    decide +kernel
  unfold firstLink
  obtain ⟨s, hs⟩ := Option.isSome_iff_exists.1 hsome
  rw [hs, Option.getD_some]

/-- The neighbour lists its neighbour 10.0.0.5. -/
theorem reachable_crossLinked_firstHello : ∃ s, hops s 1 = [2] ∧ CrossLinked s := by
  have hrun : ((step oneInterface firstLink (.processMessageNeighbors (fun _ => 0) 1
      (helloFrom [10, 0, 0, 2] [10, 0, 0, 2] [symNeighbor5]).message)).any fun s => hops s 1 == [2]) = true := by
    decide +kernel
  obtain ⟨s, hs, hhops⟩ := (Option.any_eq_true _ _).1 hrun
  have hnone : olsrLookupTwoHopNeighborTable firstLink (midMainAddr firstLink.mid [10, 0, 0, 5]) = none := by
    decide +kernel
  have hlink : ∃ l ∈ firstLink.links, l.neighbor = 1 := by decide +kernel
  have hok : CrossOk oneInterface firstLink (.processMessageNeighbors (fun _ => 0) 1
      (helloFrom [10, 0, 0, 2] [10, 0, 0, 2] [symNeighbor5]).message) := by
    refine ⟨fun _ _ t te ht _ => ?_, fun _ _ => trivial⟩
    cases hnone.symm.trans ht
  have hfirst : Reachable oneInterface (CrossOk oneInterface) firstLink :=
    .step (.helloLink (helloFrom [10, 0, 0, 2] [10, 0, 0, 2] [])) (.init rfl) ⟨trivial, trivial⟩ step_firstLink
  exact ⟨s, beq_iff_eq.1 hhops, (reachable_crossLinked (.step (.processMessageNeighbors (fun _ => 0) 1
    (helloFrom [10, 0, 0, 2] [10, 0, 0, 2] [symNeighbor5]).message) hfirst ⟨hlink, hok⟩ hs)).1⟩

/-- A neighbour that calls itself 10.0.0.2 is known as an alias of 10.0.0.9, which is a neighbour too. Another alias
of 10.0.0.9 makes the first entry go; its two hop neighbour still lists it. -/
theorem mergedNeighbor_not_crossLinked : ∃ s, Reachable oneInterface (fun _ _ => True) s ∧ ¬ CrossLinked s := by
  have hrun : ((insertMidAlias oneInterface emptyNbh 0 [10, 0, 0, 9] [10, 0, 0, 2] 6000).any fun s₁ =>
      (olsrHelloTap oneInterface s₁ (helloFrom [10, 0, 0, 2] [10, 0, 0, 2] [symNeighbor5])).any fun s₂ =>
        (olsrHelloTap oneInterface s₂ (helloFrom [10, 0, 0, 9] [10, 0, 0, 9] [])).any fun s₃ =>
          midLookupMainAddr s₃.mid [10, 0, 0, 3] == none &&
            (insertMidAlias oneInterface s₃ 0 [10, 0, 0, 9] [10, 0, 0, 3] 6000).any fun s =>
              backs s 2 == [1] && hops s 1 == []) = true := by decide +kernel
  obtain ⟨s₁, h₁, hrun⟩ := (Option.any_eq_true _ _).1 hrun
  obtain ⟨s₂, h₂, hrun⟩ := (Option.any_eq_true _ _).1 hrun
  obtain ⟨s₃, h₃, hrun⟩ := (Option.any_eq_true _ _).1 hrun
  obtain ⟨hnone, hrun⟩ := Bool.and_eq_true_iff.1 hrun
  obtain ⟨s, hs, hlists⟩ := (Option.any_eq_true _ _).1 hrun
  rw [Bool.and_eq_true, beq_iff_eq, beq_iff_eq] at hlists
  have hreach₁ : Reachable oneInterface (fun _ _ => True) s₁ :=
    .step (.insertMidAlias 0 [10, 0, 0, 9] [10, 0, 0, 2] 6000) (.init rfl) ⟨.inl rfl, trivial⟩ h₁
  have hreach₃ := reachable_hello (reachable_hello hreach₁ h₂) h₃
  refine ⟨s, .step (.insertMidAlias 0 [10, 0, 0, 9] [10, 0, 0, 3] 6000) hreach₃ ⟨.inl (beq_iff_eq.1 hnone), trivial⟩ hs,
    fun hcross => ?_⟩
  have hmem := (hcross.mirror 1 2).2 (by rw [hlists.1]; exact List.mem_singleton.2 rfl)
  rw [hlists.2] at hmem
  cases hmem

end Olsrd.Neighbor
