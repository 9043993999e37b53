/-
Two HELLO messages make a link. What one end has heard it lists, until its link to the sender runs out or is deleted,
and the HELLO that lists the other end makes the link symmetric there.
-/
import Olsrd.Sensing.Symmetric

namespace Olsrd.Sensing

open Olsrd.Neighbor (Nbh Interface LinkEntry LinkStatus HelloInput TableWf LinksWf lookupLinkStatus)

/-! ## What a HELLO lists -/

section

variable {env : Neighbor.Env} {nd : Node} {outif i : Interface}

/-- The link is listed with its status. -/
def ListsLink (nd : Node) (ns : List Listed) (l : LinkEntry) : Prop :=
  ∃ n ∈ ns, n.address = l.neighborIfaceAddr ∧ n.link = lookupLinkStatus nd.nbh l

theorem listsLink_cons {ns : List Listed} {l : LinkEntry} (n : Listed) (h : ListsLink nd ns l) :
    ListsLink nd (n :: ns) l := by
  obtain ⟨m, hm, hrest⟩ := h
  exact ⟨m, List.mem_cons_of_mem n hm, hrest⟩

theorem listsLink_createLqHello {ns : List Listed} (h : createLqHello nd outif = some ns) :
    ∀ l ∈ nd.nbh.links, l.localIfaceAddr = outif.ipAddr → ListsLink nd ns l := by
  refine Run.forEach_each (P := fun l ns => l.localIfaceAddr = outif.ipAddr → ListsLink nd ns l) ?_ ?_ h
  · intro neigh l neigh' hbody hlocal
    obtain ⟨e, -, hbody⟩ := Option.bind_eq_some_iff.1 hbody
    obtain rfl := Option.some.inj hbody
    exact ⟨_, List.mem_cons_self, rfl, if_pos hlocal⟩
  · intro neigh l l' neigh' hl hbody hlocal
    obtain ⟨e, -, hbody⟩ := Option.bind_eq_some_iff.1 hbody
    obtain rfl := Option.some.inj hbody
    exact listsLink_cons _ (hl hlocal)

theorem listsLink_olsrBuildHelloPacket {ns : List HelloNeighbor} (h : olsrBuildHelloPacket env nd outif = some ns) :
    ∀ l ∈ nd.nbh.links, l.localIfaceAddr = outif.ipAddr → ListsLink nd (ns.map HelloNeighbor.toListed) l := by
  obtain ⟨ns₁, h₁, h⟩ := Option.bind_eq_some_iff.1 h
  have hlinks : ∀ l ∈ nd.nbh.links, l.localIfaceAddr = outif.ipAddr →
      ListsLink nd (ns₁.map HelloNeighbor.toListed) l := by
    refine Run.forEach_each (P := fun l (ns : List HelloNeighbor) => l.localIfaceAddr = outif.ipAddr →
      ListsLink nd (ns.map HelloNeighbor.toListed) l) ?_ ?_ h₁
    · intro neighbors l neighbors' hbody hlocal
      unfold addLink at hbody
      rw [if_pos hlocal] at hbody
      obtain ⟨e, -, hbody⟩ := Option.bind_eq_some_iff.1 hbody
      obtain rfl := Option.some.inj hbody
      exact ⟨_, List.mem_cons_self, rfl, rfl⟩
    · intro neighbors l l' neighbors' hl hbody hlocal
      unfold addLink at hbody
      split at hbody
      · obtain ⟨e, -, hbody⟩ := Option.bind_eq_some_iff.1 hbody
        obtain rfl := Option.some.inj hbody
        exact listsLink_cons _ (hl hlocal)
      · obtain rfl := Option.some.inj hbody
        exact hl hlocal
  split at h
  · refine Run.forEach_invariant (P := fun ns : List HelloNeighbor => ∀ l ∈ nd.nbh.links,
      l.localIfaceAddr = outif.ipAddr → ListsLink nd (ns.map HelloNeighbor.toListed) l) ?_ hlinks h
    intro neighbors p neighbors' _ hold hbody l hl hlocal
    obtain ⟨e, -, hbody⟩ := Option.bind_eq_some_iff.1 hbody
    split at hbody
    · obtain rfl := Option.some.inj hbody
      exact hold l hl hlocal
    · obtain rfl := Option.some.inj hbody
      exact listsLink_cons _ (hold l hl hlocal)
  · obtain rfl := Option.some.inj h
    exact hlinks

/-- A HELLO lists the links of its interface. -/
theorem listsLink_buildHello {ns : List Listed} (h : buildHello env nd outif = some ns) :
    ∀ l ∈ nd.nbh.links, l.localIfaceAddr = outif.ipAddr → ListsLink nd ns l := by
  unfold buildHello at h
  split at h
  · obtain ⟨ns₁, h₁, rfl⟩ := Option.map_eq_some_iff.1 h
    exact listsLink_olsrBuildHelloPacket h₁
  · exact listsLink_createLqHello h

/-! ## What `check_link_status` finds -/

theorem checkLinkStatus_unmentioned {ns : List Neighbor.HelloNeighbor}
    (h : ∀ n ∈ ns, n.address = i.ipAddr → n.link = .unspec) (ret : LinkStatus) :
    Neighbor.checkLinkStatus i ret ns = ret := by
  by_contra hne
  obtain ⟨n, hn, haddress, hlink, -⟩ := exists_checkLinkStatus hne
  exact hlink (h n hn haddress)

/-- If all mentions of an interface agree, this is what is found. -/
theorem checkLinkStatus_eq {st : LinkStatus} {ns : List Neighbor.HelloNeighbor}
    (hall : ∀ n ∈ ns, n.address = i.ipAddr → n.link ≠ .unspec → n.link = st)
    (hsome : ∃ n ∈ ns, n.address = i.ipAddr ∧ n.link ≠ .unspec) (ret : LinkStatus) :
    Neighbor.checkLinkStatus i ret ns = st := by
  induction ns generalizing ret with
  | nil =>
    obtain ⟨n, hn, -⟩ := hsome
    exact absurd hn List.not_mem_nil
  | cons n ns ih =>
    have hrest : ∀ m ∈ ns, m.address = i.ipAddr → m.link ≠ .unspec → m.link = st := fun m hm =>
      hall m (List.mem_cons_of_mem n hm)
    unfold Neighbor.checkLinkStatus
    split
    · next hmention =>
      have hst := hall n List.mem_cons_self hmention.1 hmention.2
      split
      · next hsym => exact hsym.symm.trans hst
      · rw [hst]
        by_cases hmore : ∃ m ∈ ns, m.address = i.ipAddr ∧ m.link ≠ .unspec
        · exact ih hrest hmore st
        · refine checkLinkStatus_unmentioned (fun m hm haddress => ?_) st
          by_contra hlink
          exact hmore ⟨m, hm, haddress, hlink⟩
    · next hmention =>
      obtain ⟨m, hm, hown⟩ := hsome
      rcases List.mem_cons.1 hm with rfl | hm
      · exact absurd hown hmention
      · exact ih hrest ⟨m, hm, hown⟩ ret

end

/-! ## A sensed link -/

section

variable (now random : Nat) (message : Neighbor.HelloMessage) (ifc : Interface) (hyst : Option LinkStatus)
  (l : LinkEntry)

theorem asymTime_sensedLink : (Neighbor.sensedLink now random message ifc hyst l).asymTime = now + message.vtime := by
  unfold Neighbor.sensedLink
  dsimp only
  cases Neighbor.checkLinkStatus ifc .unspec message.neighbors <;> (dsimp only; split <;> [split; skip]) <;> rfl

theorem addrs_sensedLink : (Neighbor.sensedLink now random message ifc hyst l).localIfaceAddr = l.localIfaceAddr ∧
    (Neighbor.sensedLink now random message ifc hyst l).neighborIfaceAddr = l.neighborIfaceAddr := by
  have hsite := site_sensedLink now random message ifc hyst l
  unfold site at hsite
  rw [Prod.mk.injEq, Prod.mk.injEq] at hsite
  exact ⟨hsite.1, hsite.2.1⟩

theorem hysteresis_sensedLink : (Neighbor.sensedLink now random message ifc hyst l).hysteresis = hyst := rfl

theorem clock_setTimer (timer : Option Timer) {relTime : Nat} (hpos : 0 < relTime) :
    ∃ t, olsrSetTimer now random timer relTime 0 = some t ∧ t.clock = now + relTime := by
  have hjitter : ∀ r, calcJitter now relTime 0 r = now + relTime := fun r => if_pos (.inl rfl)
  unfold olsrSetTimer olsrChangeTimer
  rw [if_neg hpos.ne']
  cases timer with
  | none => exact ⟨_, rfl, hjitter random⟩
  | some t => exact ⟨_, rfl, hjitter t.random⟩

/-- A link that is listed as heard gets a symmetric timer. -/
theorem exists_linkSymTimer (hpos : 0 < message.vtime)
    (hstatus : Neighbor.checkLinkStatus ifc .unspec message.neighbors = .sym ∨
      Neighbor.checkLinkStatus ifc .unspec message.neighbors = .asym) :
    ∃ t, (Neighbor.sensedLink now random message ifc hyst l).linkSymTimer = some t ∧ t.clock = now + message.vtime := by
  obtain ⟨t, ht, hclock⟩ := clock_setTimer now random l.linkSymTimer hpos
  refine ⟨t, ?_, hclock⟩
  unfold Neighbor.sensedLink
  dsimp only
  rcases hstatus with heq | heq <;> (rw [heq]; dsimp only; split <;> [split; skip]) <;> exact ht

end

/-! ## A link that lives -/

/-- Some link over the interface to the address lives on until the deadline, at least as an asymmetric one. -/
def Live (s : Nbh) (outIf : Interface) (remote : IpAddr) (deadline : Nat) : Prop :=
  ∃ l ∈ s.links, l.localIfaceAddr = outIf.ipAddr ∧ l.neighborIfaceAddr = remote ∧ l.hysteresis = none ∧
    deadline ≤ l.asymTime

section

variable {env : Neighbor.Env} {s s' : Nbh} {outIf : Interface} {remote : IpAddr} {deadline : Nat}

theorem lookupLinkStatus_live {l : LinkEntry} (hhyst : l.hysteresis = none) (hnow : s.now < l.asymTime) :
    lookupLinkStatus s l = .sym ∨ lookupLinkStatus s l = .asym := by
  unfold lookupLinkStatus
  rw [hhyst]
  dsimp only
  split
  · exact .inl rfl
  · exact .inr rfl

theorem Live.same (h : Live s outIf remote deadline) (hcores : s'.links.map core = s.links.map core) :
    Live s' outIf remote deadline := by
  obtain ⟨l, hl, hlocal, hremote, hhyst, hdeadline⟩ := h
  obtain ⟨l', hl', hcore⟩ := List.mem_map.1 (hcores ▸ List.mem_map_of_mem (f := core) hl)
  unfold core site at hcore
  simp only [Prod.mk.injEq] at hcore
  obtain ⟨-, ⟨hlocal', hremote', -⟩, -, htime, hhyst'⟩ := hcore
  exact ⟨l', hl', hlocal'.trans hlocal, hremote'.trans hremote, hhyst'.trans hhyst, htime ▸ hdeadline⟩

/-- A change that spares the link. -/
theorem Live.updateLink (h : Live s outIf remote deadline) (id : Neighbor.Ptr) {f : LinkEntry → LinkEntry}
    (hlinks : s'.links = s.links.map fun l => if l.id = id then f l else l)
    (hf : ∀ l ∈ s.links, l.id = id → l.localIfaceAddr = outIf.ipAddr → l.neighborIfaceAddr = remote →
      l.hysteresis = none → deadline ≤ l.asymTime →
      site (f l) = site l ∧ (f l).hysteresis = none ∧ deadline ≤ (f l).asymTime) : Live s' outIf remote deadline := by
  obtain ⟨l, hl, hlocal, hremote, hhyst, hdeadline⟩ := h
  by_cases hid : l.id = id
  · obtain ⟨hsite, hhyst', hdeadline'⟩ := hf l hl hid hlocal hremote hhyst hdeadline
    unfold site at hsite
    rw [Prod.mk.injEq, Prod.mk.injEq] at hsite
    refine ⟨f l, ?_, hsite.1.trans hlocal, hsite.2.1.trans hremote, hhyst', hdeadline'⟩
    rw [hlinks]
    exact List.mem_map.2 ⟨l, hl, if_pos hid⟩
  · refine ⟨l, ?_, hlocal, hremote, hhyst, hdeadline⟩
    rw [hlinks]
    exact List.mem_map.2 ⟨l, hl, if_neg hid⟩

/-- The link is neither deleted nor hidden or lost by hysteresis. -/
def SparesLink (outIf : Interface) (remote : IpAddr) (ev : Neighbor.Event) : Prop :=
  ∀ l, (ev = .deleteLink l ∨ ∃ st, ev = .expireLinkHello l (some st)) → l.localIfaceAddr = outIf.ipAddr →
    l.neighborIfaceAddr ≠ remote

theorem Live.step (h : Live s outIf remote deadline) (hw : LinksWf false s) {ev : Neighbor.Event} (hen : ev.Enabled s)
    (hsilent : Silent ev) (hspares : SparesLink outIf remote ev) (hstep : Neighbor.step env s ev = some s') :
    Live s' outIf remote deadline := by
  by_cases hneutral : Neutral ev
  · exact h.same (Same.step hneutral hstep).cores
  cases ev with
  | tick now => exact hsilent.elim
  | helloLink hin => exact hsilent.elim
  | expireLinkSym l₀ =>
    have hclear : Live (s.updateLink l₀.id fun l => { l with linkSymTimer := none }) outIf remote deadline :=
      h.updateLink l₀.id rfl fun l _ _ _ _ hhyst hdeadline => ⟨rfl, hhyst, hdeadline⟩
    rcases Neighbor.expireLinkSym_cases hstep with ⟨-, rfl⟩ | ⟨-, s₁, s₂, rfl, h₂, rfl⟩
    · exact hclear
    · refine Live.same ?_ (Same.updateNeighborStatus h₂).cores
      exact hclear.updateLink l₀.id rfl fun l _ _ _ _ hhyst hdeadline => ⟨rfl, hhyst, hdeadline⟩
  | expireLinkHello l₀ hyst =>
    have hset : Live (s.updateLink l₀.id fun l => { l with hysteresis := hyst }) outIf remote deadline := by
      refine h.updateLink l₀.id rfl fun l hl hid hlocal hremote _ hdeadline => ⟨rfl, ?_, hdeadline⟩
      cases hyst with
      | none => rfl
      | some st =>
        obtain rfl := id_inj hw hl hen hid
        exact absurd hremote (hspares l (.inr ⟨st, rfl⟩) hlocal)
    exact hset.same (Same.updateNeighborStatus hstep).cores
  | deleteLink l₀ =>
    obtain ⟨e, s₁, -, rfl, hcases⟩ := Neighbor.deleteLinkEntry_cases hstep
    have hsame : s₁.links.map core = s.links.map core := by
      rcases hcases with ⟨-, h₁⟩ | ⟨-, rfl⟩
      · exact (Same.deleteNeighborTable h₁).cores
      · rfl
    obtain ⟨l, hl, hlocal, hremote, hhyst, hdeadline⟩ := h
    have hne : l.id ≠ l₀.id := by
      intro hid
      obtain rfl := id_inj hw hl hen hid
      exact hspares l (.inl rfl) hlocal hremote
    obtain ⟨l', hl', hcore⟩ := List.mem_map.1 (hsame ▸ List.mem_map_of_mem (f := core) hl)
    unfold core site at hcore
    simp only [Prod.mk.injEq] at hcore
    obtain ⟨hid, ⟨hlocal', hremote', -⟩, -, htime, hhyst'⟩ := hcore
    exact ⟨l', List.mem_filter.2 ⟨hl', bne_iff_ne.2 (hid ▸ hne)⟩, hlocal'.trans hlocal, hremote'.trans hremote,
      hhyst'.trans hhyst, htime ▸ hdeadline⟩
  | _ => exact absurd trivial hneutral

end

/-! ## The network -/

section

variable {V : Type} [DecidableEq V] {mesh : Mesh V} {net net' : Net V} {v w : V} {i j : Interface} {deadline : Nat}

/-- What the link of `w` to interface `i` has to be spared until the deadline. -/
def Spares (w : V) (j i : Interface) (deadline : Nat) : NetEvent V → Prop
  | .deliver u _ _ _ _ hyst _ => u = w → hyst = none
  | .tick u now => u = w → now < deadline
  | .neighborhood u ev => u = w → SparesLink j i.ipAddr ev
  | _ => True

/-- The link of `w` to interface `i` of `v` lives, no longer than a HELLO from there that came in now would make it. -/
structure LivesAt (mesh : Mesh V) (net : Net V) (v w : V) (j i : Interface) (deadline : Nat) : Prop where
  live : Live (net.node w).nbh j i.ipAddr deadline
  now : (net.node w).nbh.now < deadline
  renewed : deadline ≤ (net.node w).nbh.now + mesh.vtime v i

omit [DecidableEq V] in
theorem LivesAt.same (nd : Node) (h : LivesAt mesh net v w j i deadline) (hsame : Same (net.node w).nbh nd.nbh)
    (hnode : net'.node w = nd) : LivesAt mesh net' v w j i deadline := by
  subst hnode
  exact ⟨h.live.same hsame.cores, hsame.now ▸ h.now, hsame.now ▸ h.renewed⟩

omit [DecidableEq V] in
/-- The HELLO of a third node, or one from `v` again. -/
theorem LivesAt.deliver (h : LivesAt mesh net v w j i deadline) (hinv : Inv mesh net) (haddr : mesh.Addressed)
    (hi : i ∈ (mesh.env v).ifnet) {p : Packet V} {inIf : Interface} {ns : List (Listed × UInt32)}
    {random : Neighbor.Ptr → Nat} {linkcost : UInt32} (hp : .sent p ∈ net.log) {nd : Node}
    (htap : olsrHelloTap (mesh.env w) (net.node w) (mesh.reception inIf p random none linkcost) ns = some nd)
    (hnode : net'.node w = nd) : LivesAt mesh net' v w j i deadline := by
  obtain ⟨x, hx, hsettles, -⟩ := olsrHelloTap_cases htap
  have hw := hinv.nodes w
  obtain ⟨-, -, hout, -⟩ := hinv.chronicle.of_sent hp
  obtain ⟨hnow, hlinks⟩ := helloLink_links (fun l hl => hw.links.ids _ (List.mem_map_of_mem hl)) hx
  have hlive : Live x.1 j i.ipAddr deadline := by
    rcases hlinks with ⟨l₀, hfind, hlinks⟩ | ⟨-, q, hlinks⟩
    · refine h.live.updateLink l₀.id hlinks fun l hl hid hlocal hremote _ _ => ⟨site_sensedLink _ _ _ _ _ l, rfl, ?_⟩
      obtain rfl := id_inj hw.links hl (List.mem_of_find?_eq_some hfind) hid
      have hkey := List.find?_some hfind
      rw [Bool.and_eq_true, beq_iff_eq] at hkey
      -- the message is from interface `i` again
      have hfrom : p.outIf.ipAddr = i.ipAddr := hkey.1.symm.trans hremote
      have hsender : p.sender = v := haddr.node _ _ _ hout _ hi hfrom
      have hout' : p.outIf = i := haddr.interface v _ (hsender ▸ hout) _ hi (.inl hfrom)
      rw [asymTime_sensedLink]
      have hrenewed := h.renewed
      rwa [← hsender, ← hout'] at hrenewed
    · obtain ⟨l, hl, hrest⟩ := h.live
      exact ⟨l, hlinks ▸ List.mem_append_left _ hl, hrest⟩
  subst hnode
  have hsame := hsettles.now.trans hnow
  exact ⟨hlive.same hsettles.cores, hsame ▸ h.now, hsame ▸ h.renewed⟩

theorem LivesAt.step (h : LivesAt mesh net v w j i deadline) (hinv : Inv mesh net) (haddr : mesh.Addressed)
    (hi : i ∈ (mesh.env v).ifnet) {e : NetEvent V} (hen : e.Enabled mesh net) (hspares : Spares w j i deadline e)
    (hstep : net.step mesh e = some net') : LivesAt mesh net' v w j i deadline := by
  have helse : ∀ {u : V} {nd : Node} {log : List (Entry V)}, u ≠ w →
      LivesAt mesh ⟨Function.update net.node u nd, log⟩ v w j i deadline := fun {u nd log} hu =>
    h.same _ (.refl _) (Function.update_of_ne (Ne.symm hu) nd net.node)
  cases e with
  | hello u outIf =>
    obtain ⟨ns, -, rfl⟩ := Option.map_eq_some_iff.1 hstep
    exact h.same _ (.refl _) rfl
  | deliver u inIf p ns random hyst linkcost =>
    obtain ⟨nd, hnd, rfl⟩ := Option.map_eq_some_iff.1 hstep
    by_cases hu : u = w
    · subst hu
      obtain rfl := hspares rfl
      exact h.deliver hinv haddr hi hen.1 hnd (Function.update_self u nd net.node)
    · exact helse hu
  | tick u now =>
    obtain rfl := Option.some.inj hstep
    by_cases hu : u = w
    · subst hu
      have hnode := Function.update_self u { net.node u with nbh := { (net.node u).nbh with now := now } } net.node
      constructor
      · dsimp only
        rw [hnode]
        exact h.live
      · dsimp only
        rw [hnode]
        exact hspares rfl
      · dsimp only
        rw [hnode]
        exact h.renewed.trans (Nat.add_le_add_right hen _)
    · exact helse hu
  | neighborhood u ev =>
    obtain ⟨s, hs, rfl⟩ := Option.map_eq_some_iff.1 hstep
    by_cases hu : u = w
    · subst hu
      have hnode := Function.update_self u { net.node u with nbh := s } net.node
      have hnow : s.now = (net.node u).nbh.now := (Kept.step hen.2 hs).now
      constructor
      · dsimp only
        rw [hnode]
        exact h.live.step (hinv.nodes u).links hen.1 hen.2 (hspares rfl) hs
      · dsimp only
        rw [hnode]
        exact hnow.symm ▸ h.now
      · dsimp only
        rw [hnode]
        exact hnow.symm ▸ h.renewed
    · exact helse hu
  | setMprs u isMpr =>
    obtain rfl := Option.some.inj hstep
    by_cases hu : u = w
    · subst hu
      exact h.same { net.node u with isMpr := isMpr } (.refl _) (Function.update_self u _ net.node)
    · exact helse hu
  | expireMprSel u k =>
    obtain rfl := Option.some.inj hstep
    by_cases hu : u = w
    · subst hu
      exact h.same (olsrExpireMprSelEntry (net.node u) k) (.of_links rfl rfl) (Function.update_self u _ net.node)
    · exact helse hu

/-! ## A HELLO each way -/

/-- What becomes of a HELLO. -/
theorem exchange_cases {x : Reading} (hx : net.exchange mesh v w i j x = some net') :
    ∃ ns h y, buildHello (mesh.env v) (net.node v) i = some ns ∧ h.inIf = j ∧ h.fromAddr = i.ipAddr ∧ h.hyst = none ∧
      h.message.vtime = mesh.vtime v i ∧ h.message.neighbors = heardNeighbors (ns.map fun n => (n, x.cost n)) ∧
      Neighbor.helloLink (mesh.env w) (net.node w).nbh h = some y ∧ Settles y.1 (net'.node w).nbh := by
  obtain ⟨ns, hns, hx⟩ := Option.bind_eq_some_iff.1 hx
  obtain ⟨net₁, h₁, hx⟩ := Option.bind_eq_some_iff.1 hx
  obtain ⟨ns₁, -, rfl⟩ := Option.map_eq_some_iff.1 h₁
  obtain ⟨nd, hnd, rfl⟩ := Option.map_eq_some_iff.1 hx
  obtain ⟨y, hy, hsettles, -⟩ := olsrHelloTap_cases hnd
  refine ⟨ns, _, y, hns, rfl, rfl, rfl, rfl, rfl, hy, ?_⟩
  dsimp only
  rw [Function.update_self]
  exact hsettles

/-- The node that a HELLO comes in at has a link to where it comes from, until the HELLO is no longer valid. -/
theorem exchange_live (hinv : Inv mesh net) (haddr : mesh.Addressed) (hj : j ∈ (mesh.env w).ifnet)
    (hpos : 0 < mesh.vtime v i) {x : Reading} (hx : net.exchange mesh v w i j x = some net') :
    LivesAt mesh net' v w j i ((net.node w).nbh.now + mesh.vtime v i) := by
  obtain ⟨ns, h, y, -, rfl, hfrom, hhyst, hvtime, -, hy, hsettles⟩ := exchange_cases hx
  have hw := hinv.nodes w
  obtain ⟨l, htarget, hl⟩ := exists_sensed hw.links hy
  obtain ⟨hnow, -⟩ := helloLink_links (fun l hl => hw.links.ids _ (List.mem_map_of_mem hl)) hy
  obtain ⟨hlocal, hremote, -, -⟩ := htarget.between haddr hj hw.behind
  obtain ⟨hlocal', hremote'⟩ := addrs_sensedLink (net.node w).nbh.now (h.random 0) h.message h.inIf h.hyst l
  have hlive : Live y.1 h.inIf i.ipAddr ((net.node w).nbh.now + mesh.vtime v i) := by
    refine ⟨_, hl, hlocal'.trans hlocal, hremote'.trans (hremote.trans hfrom), hhyst, ?_⟩
    rw [asymTime_sensedLink, hvtime]
  have hsame : (net'.node w).nbh.now = (net.node w).nbh.now := hsettles.now.trans hnow
  constructor
  · exact hlive.same hsettles.cores
  · rw [hsame]
    exact Nat.lt_add_of_pos_right hpos
  · rw [hsame]

omit [DecidableEq V] in
/-- All that a HELLO of `w` says about the interface comes from the one link to it. -/
theorem agree_of_live (hinv : Inv mesh net) (haddr : mesh.Addressed) (hj : j ∈ (mesh.env w).ifnet) {ns : List Listed}
    (hns : buildHello (mesh.env w) (net.node w) j = some ns) {l : LinkEntry} (hl : l ∈ (net.node w).nbh.links)
    (hlocal : l.localIfaceAddr = j.ipAddr) {n : Listed} (hn : n ∈ ns) (haddress : n.address = l.neighborIfaceAddr)
    (hlink : n.link ≠ .unspec) : n.link = lookupLinkStatus (net.node w).nbh l := by
  have hw := hinv.nodes w
  obtain ⟨l', hl', hlocal', hremote', hstatus, -⟩ := stated_buildHello hns n hn hlink
  have hname : ∀ l ∈ (net.node w).nbh.links, l.localIfaceAddr = j.ipAddr → l.ifName = j.intName := by
    intro l hl hlocal
    obtain ⟨k, hk⟩ := hw.behind l hl
    obtain rfl := haddr.interface w k hk.interface j hj (.inl (hk.addr.symm.trans hlocal))
    exact hk.name
  have hsite : site l' = site l := by
    unfold site
    rw [hlocal', hlocal, hremote', haddress, hname l' hl' hlocal', hname l hl hlocal]
  rw [← hstatus, List.inj_on_of_nodup_map hw.sites hl' hl hsite]

/-- The HELLO of a node whose link lives makes the link symmetric at the other end. -/
theorem exchange_symmetric (hinv : Inv mesh net) (haddr : mesh.Addressed) (hi : i ∈ (mesh.env v).ifnet)
    (hj : j ∈ (mesh.env w).ifnet) (hpos : 0 < mesh.vtime w j) (hlive : LivesAt mesh net v w j i deadline) {x : Reading}
    (hx : net.exchange mesh w v j i x = some net') :
    ∃ l ∈ (net'.node v).nbh.links, l.localIfaceAddr = i.ipAddr ∧ l.neighborIfaceAddr = j.ipAddr ∧
      lookupLinkStatus (net'.node v).nbh l = .sym ∧
      ∃ t, l.linkSymTimer = some t ∧ t.clock = (net.node v).nbh.now + mesh.vtime w j := by
  obtain ⟨ns, h, y, hns, rfl, hfrom, hhyst', hvtime, hneighbors, hy, hsettles⟩ := exchange_cases hx
  have hv := hinv.nodes v
  obtain ⟨l₀, htarget, hl₀⟩ := exists_sensed hv.links hy
  obtain ⟨hlocal₀, hremote₀, -, -⟩ := htarget.between haddr hi hv.behind
  obtain ⟨hlocal', hremote'⟩ := addrs_sensedLink (net.node v).nbh.now (h.random 0) h.message h.inIf h.hyst l₀
  -- what the message says about the interface
  obtain ⟨l, hl, hlocal, hremote, hhyst, hdeadline⟩ := hlive.live
  have hstatus := lookupLinkStatus_live hhyst (hlive.now.trans_le hdeadline)
  have hfound : Neighbor.checkLinkStatus h.inIf .unspec h.message.neighbors = lookupLinkStatus (net.node w).nbh l := by
    rw [hneighbors]
    refine checkLinkStatus_eq (fun n hn haddress hlink => ?_) ?_ .unspec
    · obtain ⟨m, hm, rfl⟩ := List.mem_map.1 hn
      obtain ⟨n, hn', rfl⟩ := List.mem_map.1 hm
      exact agree_of_live hinv haddr hj hns hl hlocal hn' (haddress.trans hremote.symm) hlink
    · obtain ⟨n, hn, haddress, hlink⟩ := listsLink_buildHello hns l hl hlocal
      refine ⟨_, List.mem_map_of_mem (List.mem_map_of_mem hn), haddress.trans hremote, ?_⟩
      show n.link ≠ .unspec
      rw [hlink]
      rcases hstatus with heq | heq <;> (rw [heq]; decide)
  obtain ⟨t, ht, hclock⟩ := exists_linkSymTimer (net.node v).nbh.now (h.random 0) h.message h.inIf h.hyst l₀
    (hvtime ▸ hpos) (hfound ▸ hstatus)
  -- it stays what it is to the end of the message
  obtain ⟨l', hl', hcore⟩ := List.mem_map.1 (hsettles.cores ▸ List.mem_map_of_mem (f := core) hl₀)
  unfold core site at hcore
  simp only [Prod.mk.injEq] at hcore
  obtain ⟨-, ⟨hlocal'', hremote'', -⟩, htimer, -, hhyst''⟩ := hcore
  refine ⟨l', hl', hlocal''.trans (hlocal'.trans hlocal₀),
    hremote''.trans (hremote'.trans (hremote₀.trans hfrom)), ?_, t, htimer.trans ht, hvtime ▸ hclock⟩
  unfold lookupLinkStatus
  rw [hhyst'', hysteresis_sensedLink, hhyst', htimer, ht]
  rfl

/-- A HELLO of `v` comes in at `w`, and then whatever may happen happens, as long as `w` keeps the link until the HELLO
is no longer valid: the next HELLO of `w` that comes in at `v` makes the link symmetric there, for as long as it is
valid. -/
theorem handshake (haddr : mesh.Addressed) (hne : v ≠ w) (hi : i ∈ (mesh.env v).ifnet) (hj : j ∈ (mesh.env w).ifnet)
    (hv : 0 < mesh.vtime v i) (hw : 0 < mesh.vtime w j) (net net₁ net₂ net' : Net V) (es : List (NetEvent V))
    (x y : Reading) (h : Reachable mesh net) (hhear : net.exchange mesh v w i j x = some net₁)
    (hok : Run.Rounds (fun s e => e.Enabled mesh s ∧ Spares w j i ((net.node w).nbh.now + mesh.vtime v i) e)
      (Net.step mesh) es net₁)
    (hrun : Run.forEach (Net.step mesh) es net₁ = some net₂) (hanswer : net₂.exchange mesh w v j i y = some net') :
    ∃ l ∈ (net'.node v).nbh.links, l.localIfaceAddr = i.ipAddr ∧ l.neighborIfaceAddr = j.ipAddr ∧
      lookupLinkStatus (net'.node v).nbh l = .sym ∧
      ∃ t, l.linkSymTimer = some t ∧ t.clock = (net₂.node v).nbh.now + mesh.vtime w j := by
  have hinv₁ : Inv mesh net₁ := inv_of_reachable haddr (reachable_exchange h hi hj hne hhear)
  have hlive₁ := exchange_live (inv_of_reachable haddr h) haddr hj hv hhear
  have hboth : Inv mesh net₂ ∧ LivesAt mesh net₂ v w j i ((net.node w).nbh.now + mesh.vtime v i) := by
    refine Run.forEach_rounds
      (P := fun s => Inv mesh s ∧ LivesAt mesh s v w j i ((net.node w).nbh.now + mesh.vtime v i))
      ?_ hok ⟨hinv₁, hlive₁⟩ hrun
    rintro s e s' ⟨hinv, hlive⟩ ⟨hen, hspares⟩ hstep
    exact ⟨hinv.step haddr hen hstep, hlive.step hinv haddr hi hen hspares hstep⟩
  exact exchange_symmetric hboth.1 haddr hi hj hw hboth.2 hanswer

end

/-- Between the two HELLO messages the clock of the second node goes on, and the first chooses its MPRs. -/
theorem handshake_pair : ∃ net₁ net₂ net' : Net Bool,
    emptyNet.exchange pairMesh false true (pairIf false) (pairIf true) pairReading = some net₁ ∧
    Run.forEach (Net.step pairMesh) [.tick true 1500, .setMprs false fun _ => true] net₁ = some net₂ ∧
    net₂.exchange pairMesh true false (pairIf true) (pairIf false) pairReading = some net' ∧
    ∃ l ∈ (net'.node false).nbh.links, l.localIfaceAddr = [10, 0, 0, 1] ∧ l.neighborIfaceAddr = [10, 0, 0, 2] ∧
      lookupLinkStatus (net'.node false).nbh l = .sym ∧
      ∃ t, l.linkSymTimer = some t ∧ t.clock = (net₂.node false).nbh.now + 6000 := by
  have hif : ∀ v, pairIf v ∈ (pairMesh.env v).ifnet := fun v => List.mem_singleton.2 rfl
  have hrun : ((emptyNet.exchange pairMesh false true (pairIf false) (pairIf true) pairReading).any fun net₁ =>
      decide ((net₁.node true).nbh.now ≤ 1500) &&
        (Run.forEach (Net.step pairMesh) [.tick true 1500, .setMprs false fun _ => true] net₁).any fun net₂ =>
          (net₂.exchange pairMesh true false (pairIf true) (pairIf false) pairReading).isSome) =
            true := by decide +kernel
  obtain ⟨net₁, hhear, hrun⟩ := (Option.any_eq_true _ _).1 hrun
  obtain ⟨hnow, hrun⟩ := Bool.and_eq_true_iff.1 hrun
  obtain ⟨net₂, hevents, hrun⟩ := (Option.any_eq_true _ _).1 hrun
  obtain ⟨net', hanswer⟩ := Option.isSome_iff_exists.1 hrun
  have hen : NetEvent.Enabled pairMesh net₁ (.tick true 1500) :=
    of_decide_eq_true (p := (net₁.node true).nbh.now ≤ 1500) hnow
  have hspares : Spares true (pairIf true) (pairIf false) 6000 (.tick true 1500) := fun _ => by decide
  refine ⟨net₁, net₂, net', hhear, hevents, hanswer, ?_⟩
  exact handshake pair_addressed Bool.false_ne_true (hif false) (hif true) (by decide)
    (by decide) emptyNet net₁ net₂ net'
    [.tick true 1500, .setMprs false fun _ => true] pairReading pairReading (.init rfl) hhear
    ⟨⟨hen, hspares⟩, fun _ _ => ⟨⟨trivial, trivial⟩, fun _ _ => trivial⟩⟩ hevents hanswer

end Olsrd.Sensing
