/-
A node forwards messages only for those who have chosen it as MPR: what is in its MPR selector set was in a HELLO, whose
sender had chosen this node over a link that it had found symmetric.
-/
import Olsrd.Flood.DuplicateSet
import Olsrd.Sensing.Symmetric

namespace Olsrd.Sensing

open Olsrd.Neighbor (Nbh Interface LinkEntry LinkStatus lookupLinkStatus)
open Olsrd.Flood (World forwardsFor)

/-! ## What `olsr_forward_message` asks -/

/-- The tables of a node, as `olsr_forward_message` looks them up. -/
def world (nd : Node) (nowTimes : UInt32) (ifnet : List Flood.Interface) : World where
  nowTimes := nowTimes
  midLookupMainAddr := Neighbor.midLookupMainAddr nd.nbh.mid
  neighborTable a := ((Neighbor.olsrLookupNeighborTable nd.nbh a).bind nd.nbh.nbr).map fun e =>
    if e.sym then .sym else .notSym
  mprsSet a := (olsrLookupMprsSet nd.mprs a).isSome
  ifnet := ifnet

/-- A message is forwarded only if the main address of its sender, as far as it is known, is that of a selector. -/
theorem exists_selector {nd : Node} {nowTimes : UInt32} {ifnet : List Flood.Interface} {fromAddr : IpAddr}
    (h : forwardsFor (world nd nowTimes ifnet) fromAddr = true) :
    ∃ m ∈ nd.mprs, m.mainAddr = Neighbor.midMainAddr nd.nbh.mid fromAddr := by
  unfold forwardsFor at h
  dsimp only at h
  split at h
  · cases h
  · cases h
  · obtain ⟨m, hm⟩ := Option.isSome_iff_exists.1 h
    have hkey := List.find?_some hm
    rw [beq_iff_eq] at hkey
    exact ⟨m, List.mem_of_find?_eq_some hm, hkey⟩

/-! ## What is behind a selector -/

variable {V : Type} {mesh : Mesh V}

/-- The sender of the HELLO has chosen the node with the interface `i` as MPR. -/
def Chooses (p : Packet V) (i : Interface) : Prop :=
  ∃ l ∈ p.node.nbh.links, l.localIfaceAddr = p.outIf.ipAddr ∧ l.neighborIfaceAddr = i.ipAddr ∧
    lookupLinkStatus p.node.nbh l = .sym ∧ p.node.isMpr l.neighbor = true

/-- The HELLO came in, and before it was sent its sender had heard one from `v`, which `v` had sent after one from the
sender had come in. -/
def ThreeWay (log : List (Entry V)) (v : V) (i : Interface) (p : Packet V) (time : Nat) : Prop :=
  ∃ q time' r time'', q.sender = v ∧ q.outIf = i ∧ r.sender = p.sender ∧ r.outIf = p.outIf ∧
    List.Sublist [.received v i p time, .sent p, .received p.sender p.outIf q time', .sent q, .received v i r time'',
      .sent r] log

/-- What is behind an MPR selector: a HELLO of the node with this main address, which had chosen `v` over a link that it
had found symmetric. The timer of the selector is due no later than the validity time of the HELLO after it came in. -/
def SelectedBy (mesh : Mesh V) (log : List (Entry V)) (v : V) (m : MprSelector) : Prop :=
  ∃ i ∈ (mesh.env v).ifnet, ∃ p time, (mesh.env p.sender).cnf.mainAddr = m.mainAddr ∧ ThreeWay log v i p time ∧
    Chooses p i ∧ ∀ t, m.timer = some t → t.clock ≤ time + mesh.vtime p.sender p.outIf

variable {log log' : List (Entry V)} {v : V} {i : Interface} {p : Packet V}

theorem SelectedBy.mono {m : MprSelector} (h : SelectedBy mesh log v m) (hlog : List.Sublist log log') :
    SelectedBy mesh log' v m := by
  obtain ⟨i, hi, p, time, hmain, ⟨q, time', r, time'', hq, hqi, hr, hrj, hchain⟩, hrest⟩ := h
  exact ⟨i, hi, p, time, hmain, ⟨q, time', r, time'', hq, hqi, hr, hrj, hchain.trans hlog⟩, hrest⟩

/-- A HELLO that makes its sender a selector lists the receiving interface as that of an MPR. -/
theorem exists_lookupMprStatus {ns : List Listed} (h : lookupMprStatus ns i = true) :
    ∃ n ∈ ns, n.address = i.ipAddr ∧ n.link = .sym ∧ n.status = .mprNeigh := by
  unfold lookupMprStatus at h
  obtain ⟨n, hn, hchosen⟩ := (Option.any_eq_true _ _).1 h
  have hown := List.find?_some hn
  rw [Bool.and_eq_true, bne_iff_ne, beq_iff_eq] at hown
  rw [Bool.and_eq_true, beq_iff_eq, beq_iff_eq] at hchosen
  exact ⟨n, List.mem_of_find?_eq_some hn, hown.2, hchosen⟩

theorem Chronicle.chooses (h : Chronicle mesh log) (hp : .sent p ∈ log) {n : Listed} (hn : n ∈ p.neighbors)
    (haddress : n.address = i.ipAddr) (hlink : n.link = .sym) (hstatus : n.status = .mprNeigh) : Chooses p i := by
  obtain ⟨-, -, -, hbuild, -⟩ := h.of_sent hp
  have hne : n.link ≠ .unspec := by
    rw [hlink]
    decide
  obtain ⟨l, hl, hlocal, hremote, hlooked, hmpr⟩ := stated_buildHello hbuild n hn hne
  exact ⟨l, hl, hlocal, hremote.trans haddress, hlooked.trans hlink, hmpr hstatus⟩

/-- Two HELLO messages are behind a choice: the node that chooses had found the link symmetric. -/
theorem Chronicle.threeWay (h : Chronicle mesh log) (haddr : mesh.Addressed) (hp : .sent p ∈ log)
    (hi : i ∈ (mesh.env v).ifnet) (hchooses : Chooses p i) (time : Nat) :
    ThreeWay (.received v i p time :: log) v i p time := by
  obtain ⟨l, hl, hlocal, hremote, hsym, -⟩ := hchooses
  obtain ⟨log₀, hsub, hout, -, hbehind⟩ := h.of_sent hp
  obtain ⟨j, hj⟩ := hbehind l hl
  obtain ⟨t, ht⟩ := hj.exists_timer hsym
  obtain ⟨q, time', hfrom, hqout, -, ⟨r, time'', hr, hrj, hchain⟩, -⟩ := hj.twoWay t ht
  have hji : j = p.outIf := haddr.interface _ j hj.interface _ hout (.inl (hj.addr.symm.trans hlocal))
  have hsender : q.sender = v := haddr.node _ _ _ hqout _ hi (hfrom.symm.trans hremote)
  have hqi : q.outIf = i := by
    rw [hsender] at hqout
    exact haddr.interface v _ hqout _ hi (.inl (hfrom.symm.trans hremote))
  subst hji
  rw [hsender, hqi] at hchain
  have hpast := (List.Sublist.cons_cons (Entry.sent p) hchain).trans hsub
  exact ⟨q, time', r, time'', hsender, hqi, hr, hrj, hpast.cons_cons _⟩

/-- The selectors after a HELLO. -/
theorem SelectedBy.deliver {nd nd' : Node} (h : ∀ m ∈ nd.mprs, SelectedBy mesh log v m) (hinv : NodeInv mesh log v nd)
    (hlog : Chronicle mesh log) (haddr : mesh.Addressed) {ns : List (Listed × UInt32)} {random : Neighbor.Ptr →
      Nat} {hyst : Option LinkStatus}
    {linkcost : UInt32} (hp : .sent p ∈ log) (hi : i ∈ (mesh.env v).ifnet) (hns : ∀ n ∈ ns, n.1 ∈ p.neighbors)
    (htap : olsrHelloTap (mesh.env v) nd (mesh.reception i p random hyst linkcost) ns = some nd') :
    ∀ m ∈ nd'.mprs, SelectedBy mesh (.received v i p nd.nbh.now :: log) v m := by
  obtain ⟨x, hx, -, -, s, hnow, hmprs⟩ := olsrHelloTap_cases htap
  obtain ⟨hsame, -⟩ := helloLink_spec hinv.links hx
  intro m hm
  rw [hmprs] at hm
  have hold : m ∈ nd.mprs → SelectedBy mesh (.received v i p nd.nbh.now :: log) v m := fun hm =>
    (h m hm).mono (List.sublist_cons_self _ _)
  unfold checkMprStatus at hm
  split at hm
  · next hchosen =>
    rcases mem_olsrUpdateMprsSet hm with hm | ⟨hmain, hclock⟩
    · exact hold hm
    · obtain ⟨n, hn, haddress, hlink, hstatus⟩ := exists_lookupMprStatus hchosen
      obtain ⟨n₁, hn₁, rfl⟩ := List.mem_map.1 hn
      have hchooses : Chooses p i := hlog.chooses hp (hns n₁ hn₁) haddress hlink hstatus
      refine ⟨i, hi, p, nd.nbh.now, hmain.symm, hlog.threeWay haddr hp hi hchooses _, hchooses, fun t ht => ?_⟩
      rw [← hsame, ← hnow]
      exact hclock t ht
  · exact hold hm

/-! ## Runs -/

section

variable [DecidableEq V] {net net' : Net V}

/-- What is behind the selectors of all nodes. -/
def AllSelected (mesh : Mesh V) (net : Net V) : Prop := ∀ v, ∀ m ∈ (net.node v).mprs, SelectedBy mesh net.log v m

theorem AllSelected.update (h : AllSelected mesh net) {v : V} {nd : Node}
    (hnd : ∀ m ∈ nd.mprs, SelectedBy mesh net.log v m) :
    AllSelected mesh { net with node := Function.update net.node v nd } :=
  (Function.forall_update_iff net.node fun u nd => ∀ m ∈ nd.mprs, SelectedBy mesh net.log u m).2
    ⟨hnd, fun u _ => h u⟩

theorem AllSelected.step (h : AllSelected mesh net) (hinv : Inv mesh net) (haddr : mesh.Addressed) {e : NetEvent V}
    (hen : e.Enabled mesh net)
    (hstep : net.step mesh e = some net') : AllSelected mesh net' := by
  cases e with
  | hello v outIf =>
    obtain ⟨ns, -, rfl⟩ := Option.map_eq_some_iff.1 hstep
    exact fun u m hm => (h u m hm).mono (List.sublist_cons_self _ _)
  | deliver v inIf p ns random hyst linkcost =>
    obtain ⟨hp, -, hi, hns, -⟩ := hen
    obtain ⟨nd, hnd, rfl⟩ := Option.map_eq_some_iff.1 hstep
    have hlog : AllSelected mesh { net with log := .received v inIf p (net.node v).nbh.now :: net.log } :=
      fun u m hm => (h u m hm).mono (List.sublist_cons_self _ _)
    exact hlog.update (SelectedBy.deliver (h v) (hinv.nodes v) hinv.chronicle haddr hp hi hns hnd)
  | tick v now =>
    obtain rfl := Option.some.inj hstep
    exact h.update (h v)
  | neighborhood v ev =>
    obtain ⟨s, -, rfl⟩ := Option.map_eq_some_iff.1 hstep
    exact h.update (h v)
  | setMprs v isMpr =>
    obtain rfl := Option.some.inj hstep
    exact h.update (h v)
  | expireMprSel v k =>
    obtain rfl := Option.some.inj hstep
    exact h.update fun m hm => h v m (List.mem_of_mem_eraseIdx hm)

theorem allSelected_of_reachable (haddr : mesh.Addressed) (h : Reachable mesh net) :
    Inv mesh net ∧ AllSelected mesh net := by
  refine Run.Reaches.invariant (P := fun net => Inv mesh net ∧ AllSelected mesh net) ?_ ?_ h
  · rintro _ rfl
    exact ⟨inv_emptyNet, fun _ _ hm => absurd hm List.not_mem_nil⟩
  · rintro net e net' ⟨hinv, hsel⟩ hen hstep
    exact ⟨hinv.step haddr hen hstep, hsel.step hinv haddr hen hstep⟩

/-- A node forwards the messages of `fromAddr` only if the node whose main address it takes this for has chosen it as
MPR, over a link that it had found symmetric, and said so in a HELLO that came in here. The timer of the selector, if it
has one, is due no later than the validity time of this HELLO after that. -/
theorem forwards_for_selector (haddr : mesh.Addressed) (h : Reachable mesh net) (v : V) (nowTimes : UInt32)
    (ifnet : List Flood.Interface) (fromAddr : IpAddr)
    (hfor : forwardsFor (world (net.node v) nowTimes ifnet) fromAddr = true) :
    ∃ m ∈ (net.node v).mprs, m.mainAddr = Neighbor.midMainAddr (net.node v).nbh.mid fromAddr ∧
      SelectedBy mesh net.log v m := by
  obtain ⟨-, hsel⟩ := allSelected_of_reachable haddr h
  obtain ⟨m, hm, hmain⟩ := exists_selector hfor
  exact ⟨m, hm, hmain, hsel v m hm⟩

end

/-- The second node forwards what comes from the first. -/
theorem forwards_for_selector_pair : ∃ net, Reachable pairMesh net ∧
    forwardsFor (world (net.node true) 0 []) [10, 0, 0, 1] = true ∧
    ∃ m ∈ (net.node true).mprs, m.mainAddr = Neighbor.midMainAddr (net.node true).nbh.mid [10, 0, 0, 1] ∧
      SelectedBy pairMesh net.log true m := by
  have hrun : (pairRun.any fun net => forwardsFor (world (net.node true) 0 []) [10, 0, 0, 1]) = true := by
    decide +kernel
  obtain ⟨net, hnet, hfor⟩ := (Option.any_eq_true _ _).1 hrun
  have hreach := reachable_pairRun hnet
  exact ⟨net, hreach, hfor, forwards_for_selector pair_addressed hreach true 0 [] _ hfor⟩

end Olsrd.Sensing
