/-
The states of the smart gateway state machine: what every run keeps, and what the steps have to meet so that the
current gateways are valid and no tunnel leads to a missing gateway.
-/
import Olsrd.Gateway.Choice
import Olsrd.Lib.Run

namespace Olsrd.Gateway

open Bytes
open Olsrd.Flood (olsrSeqnoDiff)

variable {platform : Platform} {cnf : GwCnf} {s s' : GwState} {f : Family} {p : GwPtr}

/-! ## The gateway tree -/

/-- What holds of an entry alone. -/
structure EntryOk (cnf : GwCnf) (gw : GatewayEntry) : Prop where
  inet : cnf.ipVersion = .inet → gw.ipv6 = false
  running : gw.cleanupTimer = .running → gw.offers = false
  deleted : gw.deleted = true → gw.offers = false ∧ gw.cleanupTimer = .running

structure Wf (cnf : GwCnf) (s : GwState) : Prop where
  keys : (s.tree.map Prod.fst).Nodup
  ptrs : (s.tree.map Prod.snd).Nodup
  key : ∀ e ∈ s.tree, (s.mem e.2).originator = e.1
  entry : ∀ e ∈ s.tree, EntryOk cnf (s.mem e.2)

theorem Wf.find_iff (h : Wf cnf s) {a : IpAddr} : olsrFindGatewayEntry s a = some p ↔ (a, p) ∈ s.tree :=
  (⟨h.keys, fun _ _ => Iff.rfl⟩ : Keyed.Indexes s.tree fun k i => (k, i) ∈ s.tree).find_iff

theorem Wf.findable (h : Wf cnf s) : Findable s := by
  intro p hp
  obtain ⟨e, he, rfl⟩ := List.mem_map.1 hp
  rw [h.find_iff, h.key e he]
  exact he

theorem Wf.originator (h : Wf cnf s) {a : IpAddr} (hf : olsrFindGatewayEntry s a = some p) :
    p ∈ s.tree.map Prod.snd ∧ (s.mem p).originator = a := by
  have hmem := h.find_iff.1 hf
  exact ⟨List.mem_map.2 ⟨_, hmem, rfl⟩, h.key _ hmem⟩

theorem Wf.entry_of_mem (h : Wf cnf s) (hp : p ∈ s.tree.map Prod.snd) : EntryOk cnf (s.mem p) := by
  obtain ⟨e, he, rfl⟩ := List.mem_map.1 hp
  exact h.entry e he

theorem Wf.congr (h : Wf cnf s) (htree : s'.tree = s.tree) (hmem : s'.mem = s.mem) : Wf cnf s' := by
  obtain ⟨h1, h2, h3, h4⟩ := h
  constructor <;> simpa only [htree, hmem]

@[simp] theorem modify_mem_self (g : GatewayEntry → GatewayEntry) : (s.modify p g).mem p = g (s.mem p) :=
  Function.update_self ..

theorem modify_mem_ne {q : GwPtr} (h : q ≠ p) (g : GatewayEntry → GatewayEntry) : (s.modify p g).mem q = s.mem q :=
  Function.update_of_ne h ..

theorem modify_originator {g : GatewayEntry → GatewayEntry} (hg : ∀ e, (g e).originator = e.originator) (q : GwPtr) :
    ((s.modify p g).mem q).originator = (s.mem q).originator := by
  by_cases h : q = p
  · rw [h, modify_mem_self, hg]
  · rw [modify_mem_ne h]

theorem Findable.modify (h : Findable s) {g : GatewayEntry → GatewayEntry} (hg : ∀ e, (g e).originator = e.originator) :
    Findable (s.modify p g) := by
  intro q hq
  rw [modify_originator hg]
  exact h q hq

theorem Wf.modify (h : Wf cnf s) {g : GatewayEntry → GatewayEntry} (hg : ∀ e, (g e).originator = e.originator)
    (hok : EntryOk cnf (g (s.mem p))) : Wf cnf (s.modify p g) where
  keys := h.keys
  ptrs := h.ptrs
  key e he := (modify_originator hg e.2).trans (h.key e he)
  entry e he := by
    by_cases hp : e.2 = p
    · rw [hp, modify_mem_self]
      exact hok
    · rw [modify_mem_ne hp]
      exact h.entry e he

/-! ## The current gateways -/

/-- The current gateways are valid, and the tunnels lead to them. -/
structure Selected (cnf : GwCnf) (s : GwState) : Prop where
  current : ∀ f p, s.current f = some p →
    p ∈ s.tree.map Prod.snd ∧ (s.mem p).valid cnf f = true ∧ cnf.serves f = true
  tunnels : TunnelsMatch s

theorem targetOf_modify {g : GatewayEntry → GatewayEntry} (hg : ∀ e, (g e).originator = e.originator) :
    (s.modify p g).targetOf = s.targetOf := by
  funext gw
  cases gw with
  | none => rfl
  | some q => exact congrArg (fun a => some (some a)) (modify_originator hg q)

theorem TunnelsMatch.modify (h : TunnelsMatch s) {g : GatewayEntry → GatewayEntry}
    (hg : ∀ e, (g e).originator = e.originator) : TunnelsMatch (s.modify p g) := by
  rw [TunnelsMatch, targetOf_modify hg]
  exact ⟨h.tunnel, h.usage, h.nullTaken⟩

/-- The default handler leaves valid gateways, if those that it does not change are. -/
theorem Selected.of_chosen (hc : Chosen cnf s s') (ht : TunnelsMatch s) (hcur : ∀ f p, s'.current f = some p →
    s.current f = some p → p ∈ s.tree.map Prod.snd ∧ (s.mem p).valid cnf f = true ∧ cnf.serves f = true) :
    Selected cnf s' := by
  refine ⟨fun f p hp => ?_, hc.tunnels ht⟩
  rw [hc.tree, hc.mem]
  rcases hc.current f with hf | ⟨q, hq, hmem, hcand, hs⟩
  · exact hcur f p hp (hf.symm.trans hp)
  · obtain rfl : q = p := Option.some.inj (hq.symm.trans hp)
    exact ⟨hmem, candidate_valid hcand, hs⟩

structure Inv (cnf : GwCnf) (s : GwState) : Prop where
  wf : Wf cnf s
  selected : Selected cnf s

theorem Inv.of_chosen (h : Inv cnf s) (hc : Chosen cnf s s') : Inv cnf s' :=
  ⟨h.wf.congr hc.tree hc.mem, .of_chosen hc h.selected.tunnels fun f p _ hp => h.selected.current f p hp⟩

/-! ## Updates -/

theorem refresh_originator (mask : Mem) (prefixlen : Nat) (seqno : UInt16) (gw : GatewayEntry) :
    (gw.refresh cnf mask prefixlen seqno).originator = gw.originator := rfl

theorem refresh_ok {gw : GatewayEntry} (h : cnf.ipVersion = .inet → gw.ipv6 = false) (mask : Mem) (prefixlen : Nat)
    (seqno : UInt16) : EntryOk cnf (gw.refresh cnf mask prefixlen seqno) where
  inet hv := by simp [GatewayEntry.refresh, GatewayEntry.readNetmask, hv, h hv]
  running ht := by simp [GatewayEntry.refresh] at ht
  deleted hd := by simp [GatewayEntry.refresh] at hd

/-- A new entry in the tree. -/
theorem Wf.insert (h : Wf cnf s) (platform : Platform) {a : IpAddr} {block : GwPtr} {gw : GatewayEntry}
    (hnew : olsrFindGatewayEntry s a = none)
    (hblock : block ∉ s.tree.map Prod.snd) (ha : gw.originator = a) (hok : EntryOk cnf gw) :
    Wf cnf { s with
      tree := Keyed.insert (addrLt platform cnf.ipVersion) a block s.tree
      mem := Function.update s.mem block gw } := by
  have hperm := Keyed.insert_perm (addrLt platform cnf.ipVersion) a block s.tree
  have hne : ∀ e ∈ s.tree, e.2 ≠ block := fun e he hb => hblock (hb ▸ List.mem_map_of_mem he)
  have ha' : a ∉ s.tree.map Prod.fst := by
    intro hmem
    obtain ⟨e, he, rfl⟩ := List.mem_map.1 hmem
    rw [h.find_iff.2 (show (e.1, e.2) ∈ s.tree from he)] at hnew
    nomatch hnew
  refine ⟨?_, ?_, ?_, ?_⟩
  · rw [(hperm.map Prod.fst).nodup_iff]
    exact List.nodup_cons.2 ⟨ha', h.keys⟩
  · rw [(hperm.map Prod.snd).nodup_iff]
    exact List.nodup_cons.2 ⟨hblock, h.ptrs⟩
  · intro e he
    rcases Keyed.mem_insert.1 he with rfl | he
    · simp [ha]
    · simp only [Function.update_of_ne (hne e he)]
      exact h.key e he
  · intro e he
    rcases Keyed.mem_insert.1 he with rfl | he
    · simpa using hok
    · simp only [Function.update_of_ne (hne e he)]
      exact h.entry e he

theorem Wf.update (h : Wf cnf s) {a : IpAddr} {mask : Mem} {prefixlen : Nat} {seqno : UInt16} {block : GwPtr}
    (hblock : block ∉ s.tree.map Prod.snd) :
    Wf cnf (olsrUpdateGatewayEntry platform cnf s a mask prefixlen seqno block) := by
  unfold olsrUpdateGatewayEntry
  cases hf : olsrFindGatewayEntry s a with
  | none =>
    have hi := h.insert platform hf hblock (refresh_originator mask prefixlen seqno (newGatewayEntry a))
      (refresh_ok (fun _ => rfl) mask prefixlen seqno)
    have hc := (gwDefaultUpdateHandler_spec cnf hi.findable block).1
    exact hi.congr hc.tree hc.mem
  | some gw =>
    dsimp only
    split
    · exact h
    · have hm := h.modify (p := gw) (refresh_originator mask prefixlen seqno)
        (refresh_ok (h.entry_of_mem (h.originator hf).1).inet mask prefixlen seqno)
      have hc := (gwDefaultUpdateHandler_spec cnf hm.findable gw).1
      exact hm.congr hc.tree hc.mem

/-! ## Deletions -/

/-- An entry that loses a family keeps the rest. -/
structure Lost (gw gw' : GatewayEntry) : Prop where
  originator : gw'.originator = gw.originator
  cleanupTimer : gw'.cleanupTimer = gw.cleanupTimer
  deleted : gw'.deleted = gw.deleted
  ipv6 : gw'.ipv6 = true → gw.ipv6 = true

theorem lose_lost (cnf : GwCnf) (prefixlen : UInt8) (gw : GatewayEntry) : Lost gw (gw.lose cnf prefixlen) := by
  unfold GatewayEntry.lose
  split
  · exact ⟨rfl, rfl, rfl, id⟩
  · split
    · exact ⟨rfl, rfl, rfl, fun h => nomatch h⟩
    · split <;> exact ⟨rfl, rfl, rfl, id⟩

/-- IPv4 is lost with its NAT flag, or both stay. -/
theorem lose_ipv4 (cnf : GwCnf) (prefixlen : UInt8) (gw : GatewayEntry) :
    (gw.lose cnf prefixlen).ipv4 = false ∨
      (gw.lose cnf prefixlen).ipv4 = gw.ipv4 ∧ (gw.lose cnf prefixlen).ipv4nat = gw.ipv4nat := by
  unfold GatewayEntry.lose
  split
  · exact .inl rfl
  · split
    · exact .inr ⟨rfl, rfl⟩
    · split
      · exact .inl rfl
      · exact .inr ⟨rfl, rfl⟩

theorem lose_valid {prefixlen : UInt8} {gw : GatewayEntry} (h : gw.changedBy cnf prefixlen = false)
    (hv : gw.valid cnf f = true) : (gw.lose cnf prefixlen).valid cnf f = true := by
  simp only [GatewayEntry.changedBy, Bool.or_eq_false_iff, bne_eq_false_iff_eq] at h
  obtain ⟨h4, h6⟩ := h
  cases f with
  | v4 =>
    rcases lose_ipv4 cnf prefixlen gw with hl | ⟨hl, hnat⟩
    · simp [GatewayEntry.valid, h4, hl] at hv
    · rw [GatewayEntry.valid, hl, hnat]
      exact hv
  | v6 => exact h6.symm.trans hv

/-- No cleanup waits for an entry that `olsr_delete_gateway_entry` does not leave alone. -/
theorem EntryOk.not_awaited {gw : GatewayEntry} (h : EntryOk cnf gw)
    (hdel : gw.cleanupTimer = .none ∨ gw.offers = true) : gw.cleanupTimer ≠ .running ∧ gw.deleted = false := by
  have htimer : gw.cleanupTimer ≠ .running := by
    intro ht
    rcases hdel with hn | ho
    · rw [ht] at hn
      nomatch hn
    · rw [h.running ht] at ho
      nomatch ho
  refine ⟨htimer, ?_⟩
  rw [← Bool.not_eq_true]
  exact fun hd => htimer (h.deleted hd).2

theorem EntryOk.lost {gw gw' : GatewayEntry} (h : EntryOk cnf gw)
    (hdel : gw.cleanupTimer ≠ .running ∧ gw.deleted = false) (hl : Lost gw gw') : EntryOk cnf gw' where
  inet hv := by
    rw [← Bool.not_eq_true]
    intro h6
    have hgw := hl.ipv6 h6
    rw [h.inet hv] at hgw
    nomatch hgw
  running ht := absurd (hl.cleanupTimer.symm.trans ht) hdel.1
  deleted hd := by
    rw [hl.deleted, hdel.2] at hd
    nomatch hd

theorem dropCurrent_frame (gw : GwPtr) (s : GwState) (f : Family) :
    (dropCurrent gw s f).tree = s.tree ∧ (dropCurrent gw s f).mem = s.mem ∧
      (dropCurrent gw s f).current = if s.current f = some gw then Function.update s.current f none else s.current := by
  unfold dropCurrent
  split
  · obtain ⟨h1, h2, h3, -, -⟩ := olsrOsDelIpipTunnel_same s (s.tunnel f)
    exact ⟨h1, h2, congrArg (fun c => Function.update c f none) h3⟩
  · exact ⟨rfl, rfl, rfl⟩

theorem dropCurrent_current {gw : GwPtr} {g : Family} (h : (dropCurrent gw s f).current g = some p) :
    s.current g = some p ∧ (g = f → p ≠ gw) := by
  rw [(dropCurrent_frame gw s f).2.2] at h
  by_cases hf : s.current f = some gw
  · rw [if_pos hf] at h
    by_cases hg : g = f
    · subst hg
      simp at h
    · rw [Function.update_of_ne hg] at h
      exact ⟨h, fun hg' => absurd hg' hg⟩
  · rw [if_neg hf] at h
    refine ⟨h, ?_⟩
    rintro rfl rfl
    exact hf h

theorem TunnelsMatch.dropCurrent (h : TunnelsMatch s) (gw : GwPtr) (f : Family) :
    TunnelsMatch (dropCurrent gw s f) := by
  by_cases hf : s.current f = some gw
  · have hl := linked_dropCurrent h hf
    obtain ⟨-, hmem, hcur⟩ := dropCurrent_frame gw s f
    rw [if_pos hf] at hcur
    refine Eq.mp (congrArg (Linked _) (funext fun g => ?_)) hl
    rw [targetOf_congr hmem, hcur]
    by_cases hg : g = f
    · subst hg
      simp [GwState.targetOf]
    · rw [Function.update_of_ne hg, Function.update_of_ne hg]
  · rw [Gateway.dropCurrent, if_neg hf]
    exact h

theorem clear_lost (gw : GatewayEntry) : Lost gw gw.clear := ⟨rfl, rfl, rfl, fun h => nomatch h⟩

variable (cnf) in
/-- The state before the cleanup timer is set. -/
theorem removeGateway_dropped (hfind : Findable (s.modify p GatewayEntry.clear)) :
    ∃ s₁ s₂, Chosen cnf (s.modify p GatewayEntry.clear) s₁ ∧ s₂.tree = s₁.tree ∧ s₂.mem = s₁.mem ∧
      (∀ f q, s₂.current f = some q → s₁.current f = some q ∧ q ≠ p) ∧ (TunnelsMatch s₁ → TunnelsMatch s₂) ∧
      removeGateway cnf s p = s₂.modify p GatewayEntry.awaitCleanup := by
  refine ⟨_, _, gwDefaultDeleteHandler_chosen hfind p, ?_, ?_, ?_,
    fun ht => (ht.dropCurrent p .v4).dropCurrent p .v6, rfl⟩
  · rw [(dropCurrent_frame _ _ _).1, (dropCurrent_frame _ _ _).1]
  · rw [(dropCurrent_frame _ _ _).2.1, (dropCurrent_frame _ _ _).2.1]
  · intro f q hq
    obtain ⟨hq, h6⟩ := dropCurrent_current hq
    obtain ⟨hq, h4⟩ := dropCurrent_current hq
    refine ⟨hq, ?_⟩
    cases f with
    | v4 => exact h4 rfl
    | v6 => exact h6 rfl

theorem Wf.removeGateway (h : Wf cnf s) (hok : EntryOk cnf (s.mem p))
    (hdel : (s.mem p).cleanupTimer ≠ .running ∧ (s.mem p).deleted = false) : Wf cnf (removeGateway cnf s p) := by
  have hclear := hok.lost hdel (clear_lost _)
  have hm := h.modify (p := p) (g := GatewayEntry.clear) (fun _ => rfl) hclear
  obtain ⟨s₁, s₂, hc, htree, hmem, -, -, heq⟩ := removeGateway_dropped cnf hm.findable
  rw [heq]
  have h₂ : Wf cnf s₂ := (hm.congr hc.tree hc.mem).congr htree hmem
  have hentry : s₂.mem p = (s.mem p).clear := by rw [hmem, hc.mem, modify_mem_self]
  refine h₂.modify (fun _ => rfl) ?_
  rw [hentry]
  exact ⟨fun _ => rfl, fun _ => rfl, fun _ => ⟨rfl, rfl⟩⟩

theorem Selected.removeGateway (hfind : Findable s) (ht : TunnelsMatch s) (hcur : ∀ f q, s.current f = some q → q ≠ p →
    q ∈ s.tree.map Prod.snd ∧ (s.mem q).valid cnf f = true ∧ cnf.serves f = true) :
    Selected cnf (removeGateway cnf s p) := by
  have hfind' : Findable (s.modify p GatewayEntry.clear) := hfind.modify fun _ => rfl
  obtain ⟨s₁, s₂, hc, htree, hmem, hcur₂, ht₂, heq⟩ := removeGateway_dropped cnf hfind'
  rw [heq]
  refine ⟨fun f q hq => ?_, (ht₂ (hc.tunnels (ht.modify fun _ => rfl))).modify fun _ => rfl⟩
  obtain ⟨hq, hne⟩ := hcur₂ f q hq
  rw [modify_mem_ne hne, hmem, hc.mem, modify_mem_ne hne]
  have htree' : (s₂.modify p GatewayEntry.awaitCleanup).tree = s.tree := htree.trans hc.tree
  rw [htree']
  rcases hc.current f with hf | ⟨q', hq', hmem', hcand, hs⟩
  · exact hcur f q (hf.symm.trans hq) hne
  · obtain rfl : q' = q := Option.some.inj (hq'.symm.trans hq)
    rw [modify_mem_ne hne] at hcand
    exact ⟨hmem', candidate_valid hcand, hs⟩

theorem Wf.delete (h : Wf cnf s) (a : IpAddr) (prefixlen : UInt8) :
    Wf cnf (olsrDeleteGatewayEntry cnf s a prefixlen) := by
  unfold olsrDeleteGatewayEntry
  cases hf : olsrFindGatewayEntry s a with
  | none => exact h
  | some gw =>
    dsimp only
    by_cases hdel : (s.mem gw).cleanupTimer = .none ∨ (s.mem gw).offers = true
    · rw [if_pos hdel]
      have hentry := h.entry_of_mem (h.originator hf).1
      have hno := hentry.not_awaited hdel
      have hok := hentry.lost hno (lose_lost cnf prefixlen _)
      have hm := h.modify (p := gw) (fun e => (lose_lost cnf prefixlen e).originator) hok
      by_cases hfull : prefixlen = forceDeleteGwEntry ∨
          ¬((s.modify gw fun e => e.lose cnf prefixlen).mem gw).offers = true
      · rw [if_pos hfull]
        refine hm.removeGateway ?_ ?_
        · rw [modify_mem_self]
          exact hok
        · rw [modify_mem_self, (lose_lost cnf prefixlen _).cleanupTimer, (lose_lost cnf prefixlen _).deleted]
          exact hno
      · rw [if_neg hfull]
        split
        · have hc := (gwDefaultUpdateHandler_spec cnf hm.findable gw).1
          exact hm.congr hc.tree hc.mem
        · exact hm
    · rw [if_neg hdel]
      exact h

/-! ## Runs -/

/-- Another gateway can take the place of one that a family loses. -/
def Replaceable (cnf : GwCnf) (s : GwState) (gw : GwPtr) (f : Family) : Prop := ∃ p, p ≠ gw ∧ Eligible cnf s f p

/-- An entry that a current gateway changes to is valid for the families that use it, or can be replaced. -/
def LossReplaceable (cnf : GwCnf) (s : GwState) (gw : GwPtr) (e : GatewayEntry) : Prop :=
  ∀ f, s.current f = some gw → e.valid cnf f = false → Replaceable cnf s gw f

/-- What a step has to meet: nobody sets an invalid gateway in place of a current one, and a current gateway that an
HNA or a partial deletion makes invalid can be replaced. -/
def Allowed (cnf : GwCnf) (s : GwState) : GwEvent → Prop
  | .set originator want _ => ∀ f, want f = true → cnf.serves f = true → s.current f ≠ none →
      ∃ p, olsrFindGatewayEntry s originator = some p ∧ (s.mem p).valid cnf f = true
  | .update originator mask prefixlen seqno _ => ∀ gw, olsrFindGatewayEntry s originator = some gw →
      0 < olsrSeqnoDiff seqno (s.mem gw).seqno →
      LossReplaceable cnf s gw ((s.mem gw).refresh cnf mask prefixlen seqno)
  | .delete originator prefixlen => ∀ gw, olsrFindGatewayEntry s originator = some gw → prefixlen ≠ forceDeleteGwEntry →
      ((s.mem gw).lose cnf prefixlen).offers = true → LossReplaceable cnf s gw ((s.mem gw).lose cnf prefixlen)
  | _ => True

/-- The update handler leaves valid gateways when the changed one was the only that may be invalid and can be
replaced. -/
theorem Selected.updateHandler (h : Inv cnf s) {gw : GwPtr} {g : GatewayEntry → GatewayEntry}
    (hg : ∀ e, (g e).originator = e.originator) (hloss : LossReplaceable cnf s gw (g (s.mem gw))) :
    Selected cnf (gwDefaultUpdateHandler cnf (s.modify gw g) gw) := by
  obtain ⟨hc, hrep⟩ := gwDefaultUpdateHandler_spec cnf (h.wf.findable.modify (p := gw) hg) gw
  refine .of_chosen hc (h.selected.tunnels.modify hg) fun f p hp hp₀ => ?_
  obtain ⟨hmem, hvalid, hserves⟩ := h.selected.current f p hp₀
  refine ⟨hmem, ?_, hserves⟩
  by_cases hpgw : p = gw
  · subst hpgw
    rw [modify_mem_self, ← Bool.not_eq_false]
    intro hv
    -- the family has got another gateway
    obtain ⟨q, hne, hq⟩ := hloss f hp₀ hv
    have hq' : Eligible cnf (s.modify p g) f q := by
      refine ⟨hq.mem, ?_, ?_⟩
      · rw [modify_mem_ne hne]
        exact hq.candidate
      · rw [modify_mem_ne hne]
        exact hq.cost
    obtain ⟨r, hr, -, hcand⟩ := hrep f hp₀ (by rw [modify_mem_self]; exact hv) hserves ⟨q, hq'⟩
    obtain rfl : r = p := Option.some.inj (hr.symm.trans hp)
    have hvalid' := candidate_valid hcand
    rw [modify_mem_self, hv] at hvalid'
    nomatch hvalid'
  · rw [modify_mem_ne hpgw]
    exact hvalid

theorem Selected.update (h : Inv cnf s) {a : IpAddr} {mask : Mem} {prefixlen : Nat} {seqno : UInt16} {block : GwPtr}
    (hblock : block ∉ s.tree.map Prod.snd) (hok : Allowed cnf s (.update a mask prefixlen seqno block)) :
    Selected cnf (olsrUpdateGatewayEntry platform cnf s a mask prefixlen seqno block) := by
  unfold olsrUpdateGatewayEntry
  cases hf : olsrFindGatewayEntry s a with
  | none =>
    have hi := h.wf.insert platform hf hblock (refresh_originator mask prefixlen seqno (newGatewayEntry a))
      (refresh_ok (fun _ => rfl) mask prefixlen seqno)
    have hc := (gwDefaultUpdateHandler_spec cnf hi.findable block).1
    have hne : ∀ {q}, q ∈ s.tree.map Prod.snd → q ≠ block := fun hq hb => hblock (hb ▸ hq)
    have hmem : ∀ {q}, q ∈ s.tree.map Prod.snd →
        Function.update s.mem block ((newGatewayEntry a).refresh cnf mask prefixlen seqno) q = s.mem q :=
      fun hq => Function.update_of_ne (hne hq) ..
    refine .of_chosen hc ?_ fun f p _ hp => ?_
    · have htarget : ∀ f, Option.map (fun p => some (Function.update s.mem block
            ((newGatewayEntry a).refresh cnf mask prefixlen seqno) p).originator) (s.current f) =
          s.targetOf (s.current f) := by
        intro f
        cases hp : s.current f with
        | none => rfl
        | some q => simp only [GwState.targetOf, Option.map_some, hmem (h.selected.current f q hp).1]
      obtain ⟨h1, h2, h3⟩ := h.selected.tunnels
      refine Eq.mp (congrArg (Linked _) (funext fun f => (htarget f).symm)) ?_
      exact ⟨h1, h2, h3⟩
    · obtain ⟨hq, hvalid, hserves⟩ := h.selected.current f p hp
      refine ⟨?_, (congrArg (fun e => GatewayEntry.valid cnf e f) (hmem hq)).trans hvalid, hserves⟩
      obtain ⟨e, he, rfl⟩ := List.mem_map.1 hq
      exact List.mem_map_of_mem (Keyed.mem_insert.2 (.inr he))
  | some gw =>
    dsimp only
    by_cases hold : olsrSeqnoDiff seqno (s.mem gw).seqno ≤ 0
    · rw [if_pos hold]
      exact h.selected
    · rw [if_neg hold]
      exact .updateHandler h (refresh_originator mask prefixlen seqno) (hok gw hf (by omega))

theorem Selected.delete (h : Inv cnf s) {a : IpAddr} {prefixlen : UInt8} (hok : Allowed cnf s (.delete a prefixlen)) :
    Selected cnf (olsrDeleteGatewayEntry cnf s a prefixlen) := by
  unfold olsrDeleteGatewayEntry
  cases hf : olsrFindGatewayEntry s a with
  | none => exact h.selected
  | some gw =>
    dsimp only
    have horig : ∀ e : GatewayEntry, (e.lose cnf prefixlen).originator = e.originator :=
      fun e => (lose_lost cnf prefixlen e).originator
    split
    · by_cases hfull : prefixlen = forceDeleteGwEntry ∨
          ¬((s.modify gw fun e => e.lose cnf prefixlen).mem gw).offers = true
      · rw [if_pos hfull]
        refine .removeGateway (h.wf.findable.modify horig) (h.selected.tunnels.modify horig) fun f q hq hne => ?_
        rw [modify_mem_ne hne]
        exact h.selected.current f q hq
      · rw [if_neg hfull]
        rw [not_or, Classical.not_not, modify_mem_self] at hfull
        have hloss := hok gw hf hfull.1 hfull.2
        by_cases hchange : (s.mem gw).changedBy cnf prefixlen = true
        · rw [if_pos hchange]
          exact .updateHandler h horig hloss
        · rw [if_neg hchange]
          -- the families that the entry offers are the same
          refine ⟨fun f p hp => ?_, h.selected.tunnels.modify horig⟩
          obtain ⟨hmem, hvalid, hserves⟩ := h.selected.current f p hp
          refine ⟨hmem, ?_, hserves⟩
          by_cases hpgw : p = gw
          · subst hpgw
            rw [modify_mem_self]
            exact lose_valid (by simpa using hchange) hvalid
          · rw [modify_mem_ne hpgw]
            exact hvalid
    · exact h.selected

theorem valid_offers {gw : GatewayEntry} (h : gw.valid cnf f = true) : gw.offers = true := by
  cases f with
  | v4 => simp [GatewayEntry.offers, (Bool.and_eq_true_iff.1 h).1]
  | v6 => simp [GatewayEntry.offers, show gw.ipv6 = true from h]

/-- A timer that fires takes its entry out of the tree. -/
theorem cleanupGatewayHandler_eq (h : Wf cnf s) (hp : p ∈ s.tree.map Prod.snd)
    (ht : (s.mem p).cleanupTimer = .running) : cleanupGatewayHandler s p = { s with tree := Keyed.erase p s.tree } := by
  rw [cleanupGatewayHandler, (h.entry_of_mem hp).running ht]
  rfl

theorem Wf.step (h : Wf cnf s) {e : GwEvent} (hs : s.step platform cnf e = some s') : Wf cnf s' := by
  cases e with
  | update originator mask prefixlen seqno block =>
    simp only [GwState.step] at hs
    split at hs
    · nomatch hs
    · rename_i hblock
      obtain rfl := Option.some.inj hs
      exact h.update hblock
  | delete originator prefixlen =>
    obtain rfl := Option.some.inj hs
    exact h.delete originator prefixlen
  | set originator want external =>
    obtain rfl := Option.some.inj hs
    have hsame := olsrSetInetGateway_same cnf s originator want external
    exact h.congr hsame.tree hsame.mem
  | select want =>
    obtain rfl := Option.some.inj hs
    have hc := gwDefaultChoosegwHandler_chosen cnf h.findable want
    exact h.congr hc.tree hc.mem
  | startup =>
    obtain rfl := Option.some.inj hs
    exact h.congr rfl rfl
  | choose =>
    obtain rfl := Option.some.inj hs
    have hc := (gwDefaultChooseGateway_spec cnf h.findable).1
    exact h.congr hc.tree hc.mem
  | pathCosts pathCost =>
    obtain rfl := Option.some.inj hs
    exact h.congr rfl rfl
  | cleanup gw =>
    simp only [GwState.step] at hs
    split at hs
    · rename_i hgw
      obtain rfl := Option.some.inj hs
      rw [cleanupGatewayHandler_eq h hgw.1 hgw.2]
      obtain ⟨h1, h2, h3, h4⟩ := h
      refine ⟨h1.sublist (List.filter_sublist.map _), h2.sublist (List.filter_sublist.map _), ?_, ?_⟩
      · exact fun e he => h3 e (Keyed.mem_erase.1 he).1
      · exact fun e he => h4 e (Keyed.mem_erase.1 he).1
    · nomatch hs

theorem Inv.step (h : Inv cnf s) {e : GwEvent} (hok : Allowed cnf s e) (hs : s.step platform cnf e = some s') :
    Inv cnf s' := by
  refine ⟨h.wf.step hs, ?_⟩
  cases e with
  | update originator mask prefixlen seqno block =>
    simp only [GwState.step] at hs
    split at hs
    · cases hs
    · rename_i hblock
      obtain rfl := Option.some.inj hs
      exact .update h hblock hok
  | delete originator prefixlen =>
    obtain rfl := Option.some.inj hs
    exact .delete h hok
  | set originator want external =>
    obtain rfl := Option.some.inj hs
    have hsame := olsrSetInetGateway_same cnf s originator want external
    refine ⟨fun f p hp => ?_, olsrSetInetGateway_tunnels h.selected.tunnels (fun f hf => ?_) external⟩
    · rw [hsame.current] at hp
      rw [hsame.tree, hsame.mem]
      simp only [setCurrent] at hp
      split at hp
      · rename_i hw
        obtain ⟨hf, hvalid⟩ := Option.filter_eq_some_iff.1 hp
        exact ⟨(h.wf.originator hf).1, hvalid, (Bool.and_eq_true_iff.1 hw).2⟩
      · exact h.selected.current f p hp
    · unfold setCurrent
      split
      · rename_i hw
        obtain ⟨hw, hserves⟩ := Bool.and_eq_true_iff.1 hw
        obtain ⟨p, hp, hvalid⟩ := hok f hw hserves hf
        rw [hp, Option.filter_some, if_pos hvalid]
        exact Option.some_ne_none p
      · exact hf
  | select want =>
    obtain rfl := Option.some.inj hs
    exact (h.of_chosen (gwDefaultChoosegwHandler_chosen cnf h.wf.findable want)).selected
  | startup =>
    obtain rfl := Option.some.inj hs
    exact (h.of_chosen (chosen_finished _)).selected
  | choose =>
    obtain rfl := Option.some.inj hs
    exact (h.of_chosen (gwDefaultChooseGateway_spec cnf h.wf.findable).1).selected
  | pathCosts pathCost =>
    obtain rfl := Option.some.inj hs
    obtain ⟨h1, h2, h3⟩ := h.selected.tunnels
    exact ⟨h.selected.current, ⟨h1, h2, h3⟩⟩
  | cleanup gw =>
    simp only [GwState.step] at hs
    split at hs
    · rename_i hgw
      obtain rfl := Option.some.inj hs
      rw [cleanupGatewayHandler_eq h.wf hgw.1 hgw.2]
      obtain ⟨h1, h2, h3⟩ := h.selected.tunnels
      refine ⟨fun f p hp => ?_, ⟨h1, h2, h3⟩⟩
      obtain ⟨hmem, hvalid, hserves⟩ := h.selected.current f p hp
      refine ⟨?_, hvalid, hserves⟩
      have hne : p ≠ gw := by
        rintro rfl
        have hoff := valid_offers hvalid
        rw [(h.wf.entry_of_mem hmem).running hgw.2] at hoff
        cases hoff
      obtain ⟨e, he, rfl⟩ := List.mem_map.1 hmem
      exact List.mem_map_of_mem (Keyed.mem_erase.2 ⟨he, hne⟩)
    · cases hs

/-- The state after `olsr_init_gateways`. -/
def GwState.initial (mem : GwPtr → GatewayEntry) (pathCost : IpAddr → Option Nat) : GwState where
  tree := []
  mem := mem
  current _ := none
  tunnel _ := none
  choosenExternal _ := false
  usage _ := 0
  finished _ := false
  pathCost := pathCost
  nullTaken := false

def GwState.Initial (s : GwState) : Prop := ∃ mem pathCost, s = .initial mem pathCost

/-- The states that steps get to that all meet `ok`. -/
def Reachable (platform : Platform) (cnf : GwCnf) (ok : GwState → GwEvent → Prop) : GwState → Prop :=
  Run.Reaches GwState.Initial ok (GwState.step platform cnf)

theorem Wf.initial (mem : GwPtr → GatewayEntry) (pathCost : IpAddr → Option Nat) : Wf cnf (.initial mem pathCost) :=
  ⟨List.nodup_nil, List.nodup_nil, fun _ he => (nomatch he), fun _ he => (nomatch he)⟩

theorem Inv.initial (mem : GwPtr → GatewayEntry) (pathCost : IpAddr → Option Nat) :
    Inv cnf (.initial mem pathCost) where
  wf := .initial mem pathCost
  selected := ⟨fun _ _ h => (nomatch h), ⟨rfl, fun _ => rfl, rfl⟩⟩

theorem reachable_wf {ok : GwState → GwEvent → Prop} (h : Reachable platform cnf ok s) : Wf cnf s :=
  Run.Reaches.invariant (P := Wf cnf) (fun _ ⟨mem, pathCost, hs⟩ => hs ▸ .initial mem pathCost)
    (fun _ _ _ hwf _ hs => hwf.step hs) h

theorem reachable_inv (h : Reachable platform cnf (Allowed cnf) s) : Inv cnf s :=
  Run.Reaches.invariant (P := Inv cnf) (fun _ ⟨mem, pathCost, hs⟩ => hs ▸ .initial mem pathCost)
    (fun _ _ _ hinv hok hs => hinv.step hok hs) h

/-- What the state machine is to keep. -/
structure Sound (cnf : GwCnf) (s : GwState) : Prop where
  /-- a current gateway is in the tree, offers the family and is acceptable under the NAT setting -/
  current : ∀ f p, s.current f = some p → p ∈ s.tree.map Prod.snd ∧ (s.mem p).valid cnf f = true
  /-- a family has a tunnel exactly when it has a gateway, which it leads to -/
  tunnel : ∀ f, s.tunnel f = s.targetOf (s.current f)
  usage : ∀ target, s.usage target = users s.tunnel target
  nullTaken : s.nullTaken = false
  /-- an entry that a deletion left without a family waits for its cleanup -/
  cleanup : ∀ p ∈ s.tree.map Prod.snd, (s.mem p).deleted = true → (s.mem p).offers = false →
    (s.mem p).cleanupTimer = .running

theorem reachable_sound (h : Reachable platform cnf (Allowed cnf) s) : Sound cnf s := by
  obtain ⟨hwf, hcur, htunnels⟩ := reachable_inv h
  refine ⟨fun f p hp => ?_, congrFun htunnels.tunnel, ?_, htunnels.nullTaken, fun p hp hd _ => ?_⟩
  · obtain ⟨hmem, hvalid, -⟩ := hcur f p hp
    exact ⟨hmem, hvalid⟩
  · rw [htunnels.tunnel]
    exact htunnels.usage
  · exact ((hwf.entry_of_mem hp).deleted hd).2

/-! ### A node with one gateway -/

def testPlatform : Platform := ⟨true, 8⟩

theorem length_testPrefix : (List.replicate 16 (0 : UInt8)).length = 16 := List.length_replicate

def testCnf : GwCnf where
  ipVersion := .inet
  smartGwActive := true
  smartGwAllowNat := true
  smartGwUplinkNat := true
  smartGwUplink := 128
  smartGwDownlink := 1024
  smartGwPrefix := List.replicate 16 0
  length_smartGwPrefix := length_testPrefix
  smartGwPrefixLen := 0
  hasIpv4Gateway := false
  hasIpv6Gateway := false
  useNiit := false

def testStart : GwState := .initial (fun _ => newGatewayEntry []) fun _ => none

/-- A gateway announces IPv4 and is set. -/
def gatewaySet : List GwEvent :=
  [.update [10, 0, 0, 1] (Mem.write (fun _ => 0) 1 [flagIpv4]) 0 1 0, .set [10, 0, 0, 1] (families true false) true]

/-- A user sets a gateway that is unknown, and the originator of no gateway is taken. -/
def unknownSet : List GwEvent := gatewaySet ++ [.set [10, 0, 0, 2] (families true false) true]

/-- The gateway, which is the only one, announces that it has no IPv4 any more. -/
def familyGone : List GwEvent :=
  gatewaySet ++ [.update [10, 0, 0, 1] (Mem.write (fun _ => 0) 1 [flagLinkspeed]) 0 2 1]

theorem reachable_run (l : List GwEvent) {s : GwState}
    (h : Run.forEach (GwState.step testPlatform testCnf) l testStart = some s) :
    Reachable testPlatform testCnf (fun _ _ => True) s :=
  Run.reaches_forEach (.init ⟨_, _, rfl⟩) (Run.rounds_of_forall (fun _ _ => trivial) l testStart) h

theorem reachable_not_sound :
    (∃ s, Reachable testPlatform testCnf (fun _ _ => True) s ∧ s.nullTaken = true ∧ ¬ Sound testCnf s) ∧
      ∃ s p, Reachable testPlatform testCnf (fun _ _ => True) s ∧ s.current .v4 = some p ∧ (s.mem p).ipv4 = false ∧
        ¬ Sound testCnf s := by
  constructor
  · have hrun : (Run.forEach (GwState.step testPlatform testCnf) unknownSet testStart).any (·.nullTaken) = true := by
      decide +kernel
    obtain ⟨s, hs, hnull⟩ := (Option.any_eq_true _ _).1 hrun
    refine ⟨s, reachable_run _ hs, hnull, fun hsound => ?_⟩
    rw [hsound.nullTaken] at hnull
    nomatch hnull
  · have hrun : (Run.forEach (GwState.step testPlatform testCnf) familyGone testStart).any
        (fun s => s.current .v4 == some 0 && !(s.mem 0).ipv4) = true := by
      decide +kernel
    obtain ⟨s, hs, hgone⟩ := (Option.any_eq_true _ _).1 hrun
    simp only [Bool.and_eq_true, beq_iff_eq, Bool.not_eq_true'] at hgone
    refine ⟨s, 0, reachable_run _ hs, hgone.1, hgone.2, fun hsound => ?_⟩
    have hvalid := (hsound.current .v4 0 hgone.1).2
    simp [GatewayEntry.valid, hgone.2] at hvalid

theorem gatewaySet_sound : ∃ s, Run.forEach (GwState.step testPlatform testCnf) gatewaySet testStart = some s ∧
    s.current .v4 = some 0 ∧ Sound testCnf s := by
  have hrun : (Run.forEach (GwState.step testPlatform testCnf) gatewaySet testStart).any
      (fun s => s.current .v4 == some 0) = true := by
    decide +kernel
  obtain ⟨s, hs, hcur⟩ := (Option.any_eq_true _ _).1 hrun
  have hreach : Reachable testPlatform testCnf (Allowed testCnf) s := by
    refine Run.reaches_forEach (s := testStart) (l := gatewaySet) (.init ⟨_, _, rfl⟩) ?_ hs
    simp only [gatewaySet, Run.Rounds]
    refine ⟨fun gw hgw => (nomatch hgw), fun s₁ hs₁ => ⟨fun f _ _ hf => ?_, fun _ _ => trivial⟩⟩
    -- no gateway is current yet
    obtain rfl := Option.some.inj hs₁
    exact absurd rfl hf
  exact ⟨s, hs, by simpa using hcur, reachable_sound hreach⟩

end Olsrd.Gateway
