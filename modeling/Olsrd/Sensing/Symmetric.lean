/-
A link is symmetric only if HELLO messages have gone both ways: the other side has heard this one and has said so in a
HELLO of its own, and the symmetric timer is due no later than the validity time of this HELLO after it came in.
-/
import Olsrd.Sensing.LinkFrames

namespace Olsrd.Sensing

open Olsrd.Neighbor (Nbh Interface LinkEntry LinkStatus HelloInput TableWf LinksWf lookupLinkStatus)

variable {V : Type} {mesh : Mesh V}

/-! ## What has happened -/

/-- A HELLO was sent and came in. -/
def Heard (log : List (Entry V)) (v : V) (i : Interface) (p : Packet V) (time : Nat) : Prop :=
  List.Sublist [.received v i p time, .sent p] log

/-- Before the HELLO was sent, its sender had heard one from `v`. -/
def TwoWay (log : List (Entry V)) (v : V) (i : Interface) (p : Packet V) (time : Nat) : Prop :=
  ∃ q time', q.sender = v ∧ q.outIf = i ∧
    List.Sublist [.received v i p time, .sent p, .received p.sender p.outIf q time', .sent q] log

/-- The HELLO lists the interface as heard, because its sender had such a link. -/
def Lists (p : Packet V) (i : Interface) : Prop :=
  ∃ l ∈ p.node.nbh.links, l.localIfaceAddr = p.outIf.ipAddr ∧ l.neighborIfaceAddr = i.ipAddr ∧
    (lookupLinkStatus p.node.nbh l = .sym ∨ lookupLinkStatus p.node.nbh l = .asym)

/-- What is behind a link: a HELLO from its other end, and if it is symmetric one that lists this end. -/
structure Behind (mesh : Mesh V) (log : List (Entry V)) (v : V) (i : Interface) (l : LinkEntry) : Prop where
  interface : i ∈ (mesh.env v).ifnet
  addr : l.localIfaceAddr = i.ipAddr
  name : l.ifName = i.intName
  hysteresis : l.hysteresis ≠ some .sym
  heard : ∃ p time, l.neighborIfaceAddr = p.outIf.ipAddr ∧ p.outIf ∈ (mesh.env p.sender).ifnet ∧ Heard log v i p time
  twoWay : ∀ t, l.linkSymTimer = some t → ∃ p time, l.neighborIfaceAddr = p.outIf.ipAddr ∧
    p.outIf ∈ (mesh.env p.sender).ifnet ∧ t.clock ≤ time + mesh.vtime p.sender p.outIf ∧
    TwoWay log v i p time ∧ Lists p i

/-- Nothing happens without what it takes: a HELLO says what its sender was like, and only what was sent comes in. -/
inductive Chronicle (mesh : Mesh V) : List (Entry V) → Prop
  | nil : Chronicle mesh []
  | sent {log : List (Entry V)} {p : Packet V} : Chronicle mesh log → p.outIf ∈ (mesh.env p.sender).ifnet →
      buildHello (mesh.env p.sender) p.node p.outIf = some p.neighbors →
      (∀ l ∈ p.node.nbh.links, ∃ i, Behind mesh log p.sender i l) → Chronicle mesh (.sent p :: log)
  | received {log : List (Entry V)} {v : V} {i : Interface} {p : Packet V} {time : Nat} : Chronicle mesh log →
      .sent p ∈ log → Chronicle mesh (.received v i p time :: log)

/-- The invariant of a node. -/
structure NodeInv (mesh : Mesh V) (log : List (Entry V)) (v : V) (nd : Node) : Prop where
  table : TableWf nd.nbh
  links : LinksWf false nd.nbh
  sites : (nd.nbh.links.map site).Nodup
  behind : ∀ l ∈ nd.nbh.links, ∃ i, Behind mesh log v i l

/-- The invariant of the network. -/
structure Inv (mesh : Mesh V) (net : Net V) : Prop where
  chronicle : Chronicle mesh net.log
  nodes : ∀ v, NodeInv mesh net.log v (net.node v)

section

variable {log log' : List (Entry V)} {v : V} {i : Interface} {l l' : LinkEntry} {p : Packet V}

/-- A HELLO that was sent, and what had happened by then. -/
theorem Chronicle.of_sent (h : Chronicle mesh log) (hp : .sent p ∈ log) :
    ∃ log₀, List.Sublist (.sent p :: log₀) log ∧ p.outIf ∈ (mesh.env p.sender).ifnet ∧
      buildHello (mesh.env p.sender) p.node p.outIf = some p.neighbors ∧
      ∀ l ∈ p.node.nbh.links, ∃ i, Behind mesh log₀ p.sender i l := by
  induction h with
  | nil => cases hp
  | @sent log q hlog hout hbuild hbehind ih =>
    rcases List.mem_cons.1 hp with heq | hp
    · cases heq
      exact ⟨log, .refl _, hout, hbuild, hbehind⟩
    · obtain ⟨log₀, hsub, hrest⟩ := ih hp
      exact ⟨log₀, hsub.cons _, hrest⟩
  | received hlog hsent ih =>
    rcases List.mem_cons.1 hp with heq | hp
    · cases heq
    · obtain ⟨log₀, hsub, hrest⟩ := ih hp
      exact ⟨log₀, hsub.cons _, hrest⟩

theorem Behind.mono (h : Behind mesh log v i l) (hlog : List.Sublist log log') : Behind mesh log' v i l := by
  constructor
  · exact h.interface
  · exact h.addr
  · exact h.name
  · exact h.hysteresis
  · obtain ⟨p, time, haddr, hout, hheard⟩ := h.heard
    exact ⟨p, time, haddr, hout, hheard.trans hlog⟩
  · intro t ht
    obtain ⟨p, time, haddr, hout, hclock, ⟨q, time', hq, hi, htwo⟩, hlists⟩ := h.twoWay t ht
    exact ⟨p, time, haddr, hout, hclock, ⟨q, time', hq, hi, htwo.trans hlog⟩, hlists⟩

theorem Behind.weaker (h : Behind mesh log v i l) (hweak : Weaker l' l) : Behind mesh log v i l' := by
  have hsite := hweak.site
  unfold site at hsite
  rw [Prod.mk.injEq, Prod.mk.injEq] at hsite
  obtain ⟨hlocal, hremote, hname⟩ := hsite
  constructor
  · exact h.interface
  · exact hlocal.trans h.addr
  · exact hname.trans h.name
  · rcases hweak.hysteresis with hne | heq
    · exact hne
    · exact heq ▸ h.hysteresis
  · rw [hremote]
    exact h.heard
  · intro t ht
    rw [hremote]
    rcases hweak.timer with hnone | heq
    · rw [hnone] at ht
      cases ht
    · exact h.twoWay t (heq ▸ ht)

/-- The timer of a symmetric link runs. -/
theorem Behind.exists_timer (h : Behind mesh log v i l) {s : Nbh} (hsym : lookupLinkStatus s l = .sym) :
    ∃ t, l.linkSymTimer = some t := by
  unfold lookupLinkStatus at hsym
  split at hsym
  · next st hst => exact absurd (hsym ▸ hst) h.hysteresis
  · split at hsym
    · next htimer => exact Option.isSome_iff_exists.1 htimer
    · split at hsym
      · cases hsym
      · cases hsym

/-! ## A HELLO comes in -/

/-- The status that `check_link_status` finds is that of some neighbour in the message. -/
theorem exists_checkLinkStatus {ns : List Neighbor.HelloNeighbor} {ret : LinkStatus}
    (h : Neighbor.checkLinkStatus i ret ns ≠ ret) :
    ∃ n ∈ ns, n.address = i.ipAddr ∧ n.link ≠ .unspec ∧ n.link = Neighbor.checkLinkStatus i ret ns := by
  induction ns generalizing ret with
  | nil => exact absurd rfl h
  | cons n ns ih =>
    unfold Neighbor.checkLinkStatus at h ⊢
    split at h
    · next hmention =>
      rw [if_pos hmention]
      split at h
      · next hsym =>
        rw [if_pos hsym]
        exact ⟨n, List.mem_cons_self, hmention.1, hmention.2, hsym⟩
      · next hsym =>
        rw [if_neg hsym]
        by_cases heq : Neighbor.checkLinkStatus i n.link ns = n.link
        · exact ⟨n, List.mem_cons_self, hmention.1, hmention.2, heq.symm⟩
        · obtain ⟨m, hm, hrest⟩ := ih heq
          exact ⟨m, List.mem_cons_of_mem _ hm, hrest⟩
    · next hmention =>
      rw [if_neg hmention]
      obtain ⟨m, hm, hrest⟩ := ih h
      exact ⟨m, List.mem_cons_of_mem _ hm, hrest⟩

/-- The sender of a HELLO that lists an interface of `v` has heard `v` there. -/
theorem Chronicle.heard_of_lists (h : Chronicle mesh log) (haddr : mesh.Addressed) (hp : .sent p ∈ log)
    (hi : i ∈ (mesh.env v).ifnet) {l : LinkEntry} (hl : l ∈ p.node.nbh.links)
    (hlocal : l.localIfaceAddr = p.outIf.ipAddr)
    (hremote : l.neighborIfaceAddr = i.ipAddr) :
    ∃ q time', q.sender = v ∧ q.outIf = i ∧
      List.Sublist [.sent p, .received p.sender p.outIf q time', .sent q] log := by
  obtain ⟨log₀, hsub, hout, -, hbehind⟩ := h.of_sent hp
  obtain ⟨j, hj⟩ := hbehind l hl
  obtain ⟨q, time', hfrom, hqout, hheard⟩ := hj.heard
  have hji : j = p.outIf := haddr.interface _ j hj.interface _ hout (.inl (hj.addr.symm.trans hlocal))
  have hsender : q.sender = v := haddr.node _ _ _ hqout _ hi (hfrom.symm.trans hremote)
  have hqi : q.outIf = i := by
    rw [hsender] at hqout
    exact haddr.interface v _ hqout _ hi (.inl (hfrom.symm.trans hremote))
  subst hji
  exact ⟨q, time', hsender, hqi, (List.Sublist.cons_cons _ hheard).trans hsub⟩

/-- A HELLO that lists the interface it comes in through as symmetric or asymmetric has gone back to its sender's
links. -/
theorem Chronicle.lists (h : Chronicle mesh log) (hp : .sent p ∈ log) {n : Listed} (hn : n ∈ p.neighbors)
    (hlink : n.link = .sym ∨ n.link = .asym) (haddress : n.address = i.ipAddr) : Lists p i := by
  obtain ⟨-, -, -, hbuild, -⟩ := h.of_sent hp
  have hne : n.link ≠ .unspec := by
    rcases hlink with heq | heq <;> (rw [heq]; decide)
  obtain ⟨l, hl, hlocal, hremote, hstatus, -⟩ := stated_buildHello hbuild n hn hne
  exact ⟨l, hl, hlocal, hremote.trans haddress, hstatus.symm ▸ hlink⟩

/-- The link that a HELLO is about is one between the two interfaces, and has no symmetric timer yet or one with all
that is behind it. -/
theorem Target.between {s : Nbh} {h : HelloInput} (haddr : mesh.Addressed) (hi : h.inIf ∈ (mesh.env v).ifnet)
    (hbehind : ∀ l ∈ s.links, ∃ j, Behind mesh log v j l) (htarget : Target s h l) :
    l.localIfaceAddr = h.inIf.ipAddr ∧ l.neighborIfaceAddr = h.fromAddr ∧ l.ifName = h.inIf.intName ∧
      (l.linkSymTimer = none ∨ Behind mesh log v h.inIf l) := by
  rcases htarget with ⟨hmem, hfrom, hon⟩ | ⟨hat, hfrom, hcalled, hnone⟩
  · obtain ⟨j, hj⟩ := hbehind l hmem
    have hji : j = h.inIf := by
      refine haddr.interface v j hj.interface _ hi ?_
      unfold LinkEntry.onInterface at hon
      rw [hj.name] at hon
      cases hcase : j.intName with
      | none =>
        rw [hcase] at hon
        exact .inl (hj.addr.symm.trans (beq_iff_eq.1 hon).symm)
      | some name =>
        rw [hcase] at hon
        exact .inr (beq_iff_eq.1 hon).symm
    subst hji
    exact ⟨hj.addr, hfrom, hj.name, .inr hj⟩
  · exact ⟨hat, hfrom, hcalled, .inl hnone⟩

/-- The link that a HELLO senses. -/
theorem Behind.sensed (hlog : Chronicle mesh log) (haddr : mesh.Addressed) (hp : .sent p ∈ log)
    (hi : i ∈ (mesh.env v).ifnet) {ns : List (Listed × UInt32)} (hns : ∀ n ∈ ns, n.1 ∈ p.neighbors)
    {random : Neighbor.Ptr → Nat} {hyst : Option LinkStatus} {linkcost : UInt32} (hhyst : hyst ≠ some .sym) {s : Nbh}
    (hbehind : ∀ l ∈ s.links, ∃ j, Behind mesh log v j l)
    (htarget : Target s ((mesh.reception i p random hyst linkcost).input ns) l) {r : Nat} :
    Behind mesh (.received v i p s.now :: log) v i
      (Neighbor.sensedLink s.now r ((mesh.reception i p random hyst linkcost).input ns).message i hyst l) := by
  obtain ⟨log₀, hsub, hout, -, -⟩ := hlog.of_sent hp
  have hlog' : List.Sublist log (.received v i p s.now :: log) := List.sublist_cons_self _ _
  have hsite := site_sensedLink s.now r ((mesh.reception i p random hyst linkcost).input ns).message i hyst l
  unfold site at hsite
  rw [Prod.mk.injEq, Prod.mk.injEq] at hsite
  obtain ⟨hlocal, hremote, hname⟩ := hsite
  obtain ⟨hat, hfrom, hcalled, hold⟩ := htarget.between haddr hi hbehind
  constructor
  · exact hi
  · exact hlocal.trans hat
  · exact hname.trans hcalled
  · exact hhyst
  · rw [hremote]
    exact ⟨p, s.now, hfrom, hout, List.Sublist.cons_cons _ (List.singleton_sublist.2 hp)⟩
  · intro t ht
    rw [hremote]
    rcases linkSymTimer_sensedLink ht with hbefore | ⟨hstatus, hclock⟩
    · rcases hold with hnone | hj
      · rw [hnone] at hbefore
        cases hbefore
      · exact (hj.mono hlog').twoWay t hbefore
    · have hne : Neighbor.checkLinkStatus i .unspec (heardNeighbors ns) ≠ .unspec := by
        rcases hstatus with heq | heq <;> (intro hunspec; exact absurd (heq.symm.trans hunspec) (by decide))
      obtain ⟨n, hn, haddress, -, hlink⟩ := exists_checkLinkStatus hne
      obtain ⟨⟨n₁, cost⟩, hn₁, rfl⟩ := List.mem_map.1 hn
      have hlinks : n₁.link = .sym ∨ n₁.link = .asym := hstatus.imp hlink.trans hlink.trans
      have hlists : Lists p i := hlog.lists hp (hns _ hn₁) hlinks haddress
      obtain ⟨l₁, hl₁, hlocal₁, hremote₁, -⟩ := id hlists
      obtain ⟨q, time', hsender, hqi, hchain⟩ := hlog.heard_of_lists haddr hp hi hl₁ hlocal₁ hremote₁
      exact ⟨p, s.now, hfrom, hout, hclock, ⟨q, time', hsender, hqi, List.Sublist.cons_cons _ hchain⟩, hlists⟩

end

/-! ## The other events -/

/-- A neighbourhood goes on with the same links. -/
structure Settles (s s' : Nbh) : Prop extends Same s s' where
  table : TableWf s → TableWf s'
  linksWf : TableWf s → LinksWf false s → LinksWf false s'

namespace Settles

variable {env : Neighbor.Env} {s s' s'' : Nbh}

theorem refl (s : Nbh) : Settles s s := ⟨.refl s, id, fun _ => id⟩

theorem trans (h : Settles s s') (h' : Settles s' s'') : Settles s s'' :=
  ⟨h.toSame.trans h'.toSame, h'.table ∘ h.table, fun hw hl => h'.linksWf (h.table hw) (h.linksWf hw hl)⟩

theorem step (env : Neighbor.Env) (ev : Neighbor.Event) (hneutral : Neutral ev) (h : Neighbor.step env s ev = some s') :
    Settles s s' :=
  ⟨.step hneutral h, fun hw => hw.step h, fun hw hl => hl.step hw h⟩

/-- A flag is set. -/
theorem linkChanges (s : Nbh) : Settles s { s with linkChanges := true } :=
  ⟨.of_links rfl rfl, fun hw => hw.same ⟨fun _ => rfl, rfl, le_rfl⟩, fun _ hl => hl.of_refs rfl le_rfl fun _ => rfl⟩

theorem helloAlias {random : Nat} {message : Neighbor.HelloMessage} {fromAddr : IpAddr}
    (h : Neighbor.helloAlias env s random message fromAddr = some s') : Settles s s' := by
  have hinsert : ∀ {m a : IpAddr} {vtime : Nat}, Neighbor.insertMidAlias env s random m a vtime = some s' →
    Settles s s' :=
    fun {m a vtime} => step env (.insertMidAlias random m a vtime) trivial
  unfold Neighbor.helloAlias at h
  split at h
  · split at h
    · exact hinsert h
    · split at h
      · exact hinsert h
      · obtain rfl := Option.some.inj h
        exact refl s
  · obtain rfl := Option.some.inj h
    exact refl s

theorem setLinkcost (env : Neighbor.Env) (s : Nbh) (id : Neighbor.Ptr) (cost : UInt32) :
    Settles s (if env.cnf.lqLevel > 0 then Neighbor.setLinkcost s id cost else s) := by
  split
  · exact step env (.setLinkcost id cost) trivial rfl
  · exact refl s

theorem checkMprStatus (nd : Node) (r : Reception) (ns : List (Listed × UInt32)) :
    Settles nd.nbh (checkMprStatus nd r ns).nbh := by
  unfold Sensing.checkMprStatus
  split
  · unfold olsrUpdateMprsSet
    split
    · exact linkChanges nd.nbh
    · exact refl nd.nbh
  · exact refl nd.nbh

theorem helloNeighbors {h : HelloInput} {neighbor : Neighbor.Ptr}
    (hstep : Neighbor.helloNeighbors env s h neighbor = some s') : Settles s s' := by
  obtain ⟨s₁, h₁, hstep⟩ := Option.bind_eq_some_iff.1 hstep
  have hwilling : Settles s s₁ :=
    step env (.setWillingness neighbor h.message.willingness) trivial h₁
  split at hstep
  · obtain rfl := Option.some.inj hstep
    exact hwilling
  · exact hwilling.trans (step env (.processMessageNeighbors h.random neighbor h.message) trivial hstep)

end Settles

/-- A HELLO message senses its link, then may choose this node as MPR, and nothing else makes a link or a selector. -/
theorem olsrHelloTap_cases {env : Neighbor.Env} {nd nd' : Node} {r : Reception} {ns : List (Listed × UInt32)}
    (h : olsrHelloTap env nd r ns = some nd') :
    ∃ x, Neighbor.helloLink env nd.nbh (r.input ns) = some x ∧ Settles x.1 nd'.nbh ∧ nd'.isMpr = nd.isMpr ∧
      ∃ s, s.now = x.1.now ∧ nd'.mprs = (checkMprStatus { nd with nbh := s } r ns).mprs := by
  obtain ⟨⟨s₁, id⟩, h₁, h⟩ := Option.bind_eq_some_iff.1 h
  obtain ⟨s₂, h₂, h⟩ := Option.bind_eq_some_iff.1 h
  obtain ⟨neighbor, -, h⟩ := Option.bind_eq_some_iff.1 h
  obtain ⟨s₄, h₄, h⟩ := Option.bind_eq_some_iff.1 h
  obtain rfl := Option.some.inj h
  have halias : Settles s₁ _ := (Settles.helloAlias h₂).trans (.setLinkcost env s₂ id r.linkcost)
  refine ⟨⟨s₁, id⟩, h₁, halias.trans ((Settles.checkMprStatus _ r ns).trans (.helloNeighbors h₄)), ?_, _,
    halias.now, rfl⟩
  unfold checkMprStatus olsrUpdateMprsSet
  split
  · split <;> rfl
  · rfl

/-! ## Runs -/

theorem NodeInv.mono {log log' : List (Entry V)} {v : V} {nd : Node} (h : NodeInv mesh log v nd)
    (hlog : List.Sublist log log') : NodeInv mesh log' v nd :=
  ⟨h.table, h.links, h.sites, fun l hl => (h.behind l hl).imp fun _ hi => hi.mono hlog⟩

theorem NodeInv.kept {log : List (Entry V)} {v : V} {nd nd' : Node} (h : NodeInv mesh log v nd)
    (hkept : Kept nd.nbh nd'.nbh) (htable : TableWf nd'.nbh) (hlinks : LinksWf false nd'.nbh) :
    NodeInv mesh log v nd' := by
  refine ⟨htable, hlinks, h.sites.sublist hkept.sites, fun l' hl' => ?_⟩
  obtain ⟨l, hl, hweak⟩ := hkept.links l' hl'
  exact (h.behind l hl).imp fun i hi => hi.weaker hweak

theorem NodeInv.settles {log : List (Entry V)} {v : V} {nd nd' : Node} (h : NodeInv mesh log v nd)
    (hsettles : Settles nd.nbh nd'.nbh) : NodeInv mesh log v nd' :=
  h.kept (.of_same hsettles.toSame) (hsettles.table h.table) (hsettles.linksWf h.table h.links)

/-- A HELLO comes in, and its link is one of which it is known how it came about. -/
theorem NodeInv.deliver {log : List (Entry V)} {v : V} {nd nd' : Node} (h : NodeInv mesh log v nd)
    (hlog : Chronicle mesh log) (haddr : mesh.Addressed) {i : Interface} {p : Packet V} {ns : List (Listed × UInt32)}
    {random : Neighbor.Ptr → Nat} {hyst : Option LinkStatus} {linkcost : UInt32} (hp : .sent p ∈ log)
    (hi : i ∈ (mesh.env v).ifnet) (hns : ∀ n ∈ ns, n.1 ∈ p.neighbors) (hhyst : hyst ≠ some .sym)
    (htap : olsrHelloTap (mesh.env v) nd (mesh.reception i p random hyst linkcost) ns = some nd') :
    NodeInv mesh (.received v i p nd.nbh.now :: log) v nd' := by
  obtain ⟨x, hx, hsettles, -⟩ := olsrHelloTap_cases htap
  obtain ⟨-, hlinks⟩ := helloLink_spec h.links hx
  have hsensed : NodeInv mesh (.received v i p nd.nbh.now :: log) v { nd with nbh := x.1 } := by
    have hstep : Neighbor.step (mesh.env v) nd.nbh (.helloLink ((mesh.reception i p random hyst linkcost).input ns)) =
        some x.1 := congrArg (Option.map Prod.fst) hx
    refine ⟨h.table.step hstep, h.links.helloLink h.table hx, nodup_helloLink h.links h.sites hx, fun l' hl' => ?_⟩
    rcases hlinks l' hl' with ⟨l, hl, hweak⟩ | ⟨l, htarget, rfl⟩
    · obtain ⟨j, hj⟩ := h.behind l hl
      exact ⟨j, (hj.mono (List.sublist_cons_self _ _)).weaker hweak⟩
    · exact ⟨i, Behind.sensed hlog haddr hp hi hns hhyst h.behind htarget⟩
  exact hsensed.settles hsettles

theorem inv_emptyNet : Inv mesh (emptyNet : Net V) where
  chronicle := .nil
  nodes _ :=
    ⟨Neighbor.keyed_emptyNbh.toTableWf,
      ⟨List.nodup_nil, fun _ hx => absurd hx List.not_mem_nil, fun _ hx => absurd hx List.not_mem_nil, nofun⟩,
      List.nodup_nil, fun _ hl => absurd hl List.not_mem_nil⟩

section

variable [DecidableEq V] {net net' : Net V}

/-- One node goes on, while the others stay as they are. -/
theorem Inv.update (h : Inv mesh net) {v : V} {nd : Node} (hnd : NodeInv mesh net.log v nd) :
    Inv mesh { net with node := Function.update net.node v nd } :=
  ⟨h.chronicle, (Function.forall_update_iff net.node fun u nd => NodeInv mesh net.log u nd).2
    ⟨hnd, fun u _ => h.nodes u⟩⟩

theorem Inv.step (haddr : mesh.Addressed) (h : Inv mesh net) {e : NetEvent V} (hen : e.Enabled mesh net)
    (hstep : net.step mesh e = some net') : Inv mesh net' := by
  cases e with
  | hello v outIf =>
    obtain ⟨ns, hns, rfl⟩ := Option.map_eq_some_iff.1 hstep
    exact ⟨.sent h.chronicle hen hns (h.nodes v).behind, fun u => (h.nodes u).mono (List.sublist_cons_self _ _)⟩
  | deliver v inIf p ns random hyst linkcost =>
    obtain ⟨hp, -, hi, hns, hhyst⟩ := hen
    obtain ⟨nd, hnd, rfl⟩ := Option.map_eq_some_iff.1 hstep
    have hlog : Inv mesh { net with log := .received v inIf p (net.node v).nbh.now :: net.log } :=
      ⟨.received h.chronicle hp, fun u => (h.nodes u).mono (List.sublist_cons_self _ _)⟩
    exact hlog.update ((h.nodes v).deliver h.chronicle haddr hp hi hns hhyst hnd)
  | tick v now =>
    obtain rfl := Option.some.inj hstep
    have hv := h.nodes v
    exact h.update ⟨hv.table.same ⟨fun _ => rfl, rfl, le_rfl⟩, hv.links.of_refs rfl le_rfl id, hv.sites, hv.behind⟩
  | neighborhood v ev =>
    obtain ⟨s, hs, rfl⟩ := Option.map_eq_some_iff.1 hstep
    have hv := h.nodes v
    exact h.update (hv.kept (.step hen.2 hs) (hv.table.step hs) (hv.links.step hv.table hs))
  | setMprs v isMpr =>
    obtain rfl := Option.some.inj hstep
    exact h.update ((h.nodes v).settles (.refl _))
  | expireMprSel v k =>
    obtain rfl := Option.some.inj hstep
    exact h.update ((h.nodes v).settles (.linkChanges _))

theorem inv_of_reachable (haddr : mesh.Addressed) (h : Reachable mesh net) : Inv mesh net :=
  Run.Reaches.invariant (fun _ hs => hs ▸ inv_emptyNet) (fun _ _ _ hinv hen hstep => hinv.step haddr hen hstep) h

/-- In whatever order HELLO messages are sent, come in, are lost or come in again: a link is symmetric only if a HELLO
of this interface came in at the other end, which then had a link to this interface, and put it into a HELLO that came
in here. The symmetric timer is due no later than the validity time of this HELLO after that. -/
theorem link_symmetric (haddr : mesh.Addressed) (h : Reachable mesh net) (v : V) (l : LinkEntry)
    (hl : l ∈ (net.node v).nbh.links) (hsym : lookupLinkStatus (net.node v).nbh l = .sym) :
    ∃ i ∈ (mesh.env v).ifnet, ∃ p time t, l.localIfaceAddr = i.ipAddr ∧ l.neighborIfaceAddr = p.outIf.ipAddr ∧
      TwoWay net.log v i p time ∧ Lists p i ∧
      l.linkSymTimer = some t ∧ t.clock ≤ time + mesh.vtime p.sender p.outIf := by
  obtain ⟨i, hi⟩ := ((inv_of_reachable haddr h).nodes v).behind l hl
  obtain ⟨t, ht⟩ := hi.exists_timer hsym
  obtain ⟨p, time, hfrom, -, hclock, htwo, hlists⟩ := hi.twoWay t ht
  exact ⟨i, hi.interface, p, time, t, hi.addr, hfrom, htwo, hlists, ht, hclock⟩

/-! ## Two nodes -/

/-- What a receiver reads out of a HELLO and draws at random. -/
structure Reading where
  cost : Listed → UInt32
  random : Neighbor.Ptr → Nat
  linkcost : UInt32

/-- A HELLO is sent and comes in whole, and there is no hysteresis. -/
def Net.exchange (mesh : Mesh V) (net : Net V) (v w : V) (outIf inIf : Interface) (x : Reading) : Option (Net V) := do
  let ns ← buildHello (mesh.env v) (net.node v) outIf
  let net₁ ← net.step mesh (.hello v outIf)
  net₁.step mesh (.deliver w inIf ⟨v, outIf, net.node v, ns⟩ (ns.map fun n => (n, x.cost n)) x.random none x.linkcost)

theorem reachable_exchange (h : Reachable mesh net) {v w : V} {outIf inIf : Interface}
    (hout : outIf ∈ (mesh.env v).ifnet)
    (hin : inIf ∈ (mesh.env w).ifnet) (hne : v ≠ w) {x : Reading}
    (hx : net.exchange mesh v w outIf inIf x = some net') :
    Reachable mesh net' := by
  obtain ⟨ns, hns, hx⟩ := Option.bind_eq_some_iff.1 hx
  obtain ⟨net₁, hsent, hx⟩ := Option.bind_eq_some_iff.1 hx
  have hlog : .sent ⟨v, outIf, net.node v, ns⟩ ∈ net₁.log := by
    obtain ⟨ns', hns', rfl⟩ := Option.map_eq_some_iff.1 hsent
    obtain rfl := Option.some.inj (hns.symm.trans hns')
    exact List.mem_cons_self
  have hwhole : ∀ n ∈ ns.map fun n => (n, x.cost n), n.1 ∈ ns := by
    intro n hn
    obtain ⟨m, hm, rfl⟩ := List.mem_map.1 hn
    exact hm
  have hr₁ : Reachable mesh net₁ := .step (.hello v outIf) h hout hsent
  exact .step (.deliver w inIf ⟨v, outIf, net.node v, ns⟩ _ _ none _) hr₁ ⟨hlog, hne, hin, hwhole, nofun⟩ hx

end

def pairIf (v : Bool) : Interface := ⟨some "eth0", [10, 0, 0, if v then 2 else 1], 1⟩

/-- Two nodes with an interface each. -/
def pairMesh : Mesh Bool where
  env v := ⟨⟨.inet, (pairIf v).ipAddr, 2, []⟩, [pairIf v], 2⟩
  vtime _ _ := 6000
  willingness _ := 3

theorem pair_addressed : pairMesh.Addressed := by
  constructor
  · intro v w i hi j hj hij
    obtain rfl := List.mem_singleton.1 hi
    obtain rfl := List.mem_singleton.1 hj
    have hinj : ∀ v w, (pairIf v).ipAddr = (pairIf w).ipAddr → v = w := by decide
    exact hinj v w hij
  · intro v i hi j hj _
    exact (List.mem_singleton.1 hi).trans (List.mem_singleton.1 hj).symm

def pairReading : Reading := ⟨fun _ => 1024, fun _ => 0, 1024⟩

/-- Three HELLO messages between the two, the last of them from a node that has made the other its MPR. -/
def pairRun : Option (Net Bool) := do
  let net ← emptyNet.exchange pairMesh false true (pairIf false) (pairIf true) pairReading
  let net ← net.exchange pairMesh true false (pairIf true) (pairIf false) pairReading
  let net ← net.step pairMesh (.setMprs false fun _ => true)
  net.exchange pairMesh false true (pairIf false) (pairIf true) pairReading

theorem reachable_pairRun {net : Net Bool} (h : pairRun = some net) : Reachable pairMesh net := by
  have hif : ∀ v, pairIf v ∈ (pairMesh.env v).ifnet := fun v => List.mem_singleton.2 rfl
  unfold pairRun at h
  obtain ⟨net₁, h₁, h⟩ := Option.bind_eq_some_iff.1 h
  obtain ⟨net₂, h₂, h⟩ := Option.bind_eq_some_iff.1 h
  obtain ⟨net₃, h₃, h⟩ := Option.bind_eq_some_iff.1 h
  have hr₁ := reachable_exchange (.init rfl) (hif false) (hif true) Bool.false_ne_true h₁
  have hr₂ := reachable_exchange hr₁ (hif true) (hif false) Bool.false_ne_true.symm h₂
  have hr₃ : Reachable pairMesh net₃ := .step (.setMprs false fun _ => true) hr₂ trivial h₃
  exact reachable_exchange hr₃ (hif false) (hif true) Bool.false_ne_true h

/-- The second node has found its link symmetric. -/
theorem link_symmetric_pair : ∃ net v l, Reachable pairMesh net ∧ l ∈ (net.node v).nbh.links ∧
    lookupLinkStatus (net.node v).nbh l = .sym ∧
    ∃ i ∈ (pairMesh.env v).ifnet, ∃ p time t, l.localIfaceAddr = i.ipAddr ∧ l.neighborIfaceAddr = p.outIf.ipAddr ∧
      TwoWay net.log v i p time ∧ Lists p i ∧
      l.linkSymTimer = some t ∧ t.clock ≤ time + pairMesh.vtime p.sender p.outIf := by
  have hrun : (pairRun.any fun net => (net.node true).nbh.links.any fun l =>
      lookupLinkStatus (net.node true).nbh l == .sym) = true := by decide +kernel
  obtain ⟨net, hnet, hany⟩ := (Option.any_eq_true _ _).1 hrun
  obtain ⟨l, hl, hsym⟩ := List.any_eq_true.1 hany
  rw [beq_iff_eq] at hsym
  have hreach := reachable_pairRun hnet
  exact ⟨net, true, l, hreach, hl, hsym, link_symmetric pair_addressed hreach true l hl hsym⟩

end Olsrd.Sensing
