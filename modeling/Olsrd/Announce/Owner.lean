/-
Routes lead where they should. In every network, whatever gets lost, comes late or comes twice, a node takes an address
for an interface of the node that has it, and its paths and its kernel routes are for destinations that belong to the
node they are for.
-/
import Olsrd.Announce.Network

namespace Olsrd.Announce

open Bytes (Mem)
open Olsrd.LinkState (relayed relayed_append)
open Olsrd.Message
open Olsrd.Neighbor (midLookupMainAddr)
open Olsrd.Routing
open Olsrd.Topology (Holds Sender IpPrefix u16Bytes)

variable {V : Type} {env : V → NodeEnv}

/-! ## Messages -/

/-- The bytes are those of a message of the sender, and what is in it is what the sender has. -/
def Genuine (env : V → NodeEnv) (p : Packet V) : Prop :=
  match p.content with
  | .mid => ∃ vtime seqno addrs, p.bytes = midPart (env p.sender).cnf vtime seqno addrs ∧
    (∀ a ∈ addrs, a ∈ (env p.sender).ifaddrs) ∧
    midHdrsize (env p.sender).cnf + addrs.length * (env p.sender).cnf.ipsize < 65536
  | .hna hnaEntries => ∃ vtime seqno pairs, p.bytes = hnaPart (env p.sender).cnf vtime seqno pairs ∧
    (∀ pair ∈ pairs, ∃ h ∈ hnaEntries, pair = h.pair (env p.sender).cnf) ∧ HnaOk (env p.sender).cnf hnaEntries ∧
    hnaHdrsize (env p.sender).cnf + (hnaPairsBytes pairs).length < 65536

theorem genuine_queueMid (hagreed : Agreed env) {v : V} {vtime : UInt8} {seqno : UInt16} {pending maxsize : Nat}
    {st : Sender} (hpending : pending ≤ maxsize) (hroom : midHdrsize (env v).cnf + (env v).cnf.ipsize ≤ maxsize)
    (hmax : maxsize < 65536)
    (h : queueMid (env v).cnf vtime (env v).ifaddrs ⟨pending, maxsize, seqno, []⟩ = some st) :
    ∀ bs ∈ st.sent, Genuine env ⟨v, .mid, bs⟩ := by
  rw [queueMid_eq] at h
  obtain ⟨-, parts, hsent, hparts⟩ := serializeMid_sent (hagreed.mainAddr v) (hagreed.ifaddrs v) hpending hroom hmax h
  intro bs hbs
  rw [hsent.sent, List.nil_append] at hbs
  obtain ⟨seqno', addrs, haddrs, rfl⟩ := mem_numbered hbs
  refine ⟨vtime, seqno', addrs, rfl, fun a ha => ?_, lt_of_le_of_lt (hsent.fits addrs haddrs) hmax⟩
  have hmem : a ∈ (env v).ifaddrs.filter (· ≠ (env v).cnf.mainAddr) := hparts ▸ List.mem_flatten_of_mem haddrs ha
  exact (List.mem_filter.1 hmem).1

theorem genuine_queueHna (hagreed : Agreed env) {v : V} {vtime : UInt8} {seqno : UInt16} {pending maxsize : Nat}
    {hnaEntries : List HnaEntry} {st : Sender} (hok : HnaOk (env v).cnf hnaEntries) (hpending : pending ≤ maxsize)
    (h : queueHna (env v).cnf vtime hnaEntries ⟨pending, maxsize, seqno, []⟩ = some st) :
    ∀ bs ∈ st.sent, Genuine env ⟨v, .hna hnaEntries, bs⟩ := by
  rw [queueHna_eq] at h
  obtain ⟨-, parts, hpushed, hsmall, hparts⟩ :=
    serializeHna_pushed (hagreed.mainAddr v) (fun e he => (hok e he).1) hpending h
  intro bs hbs
  rw [hpushed.sent, List.nil_append] at hbs
  obtain ⟨seqno', pairs, hpairs, rfl⟩ := mem_numbered hbs
  refine ⟨vtime, seqno', pairs, rfl, fun pair hpair => ?_, hok, lt_of_le_of_lt (hsmall pairs hpairs) (by decide)⟩
  have hmem : pair ∈ hnaEntries.map (HnaEntry.pair (env v).cnf) := hparts ▸ List.mem_flatten_of_mem hpairs hpair
  obtain ⟨e, he, rfl⟩ := List.mem_map.1 hmem
  exact ⟨e, he, rfl⟩

theorem Agreed.ipsize (h : Agreed env) (v w : V) : (env v).cnf.ipsize = (env w).cnf.ipsize := by
  unfold Cnf.ipsize
  rw [h.ipVersion v w]

theorem relayed_midBytes {cnf : Cnf} {orig : IpAddr} (horig : orig.length = cnf.ipsize) (vtime t h : UInt8) (size : Nat)
    (seqno : UInt16) (addrs : List IpAddr) (ttl hops : UInt8) :
    relayed cnf (midBytes orig vtime t h size seqno addrs) ttl hops =
    midBytes orig vtime ttl hops size seqno addrs := by
  have hpre : ([3, vtime] ++ u16Bytes size ++ orig).length = 4 + cnf.ipsize := by
    simp [u16Bytes, horig]
    omega
  have happend := relayed_append hpre (u16Bytes seqno.toNat ++ addrs.flatten) t h ttl hops
  simpa [midBytes] using happend

theorem relayed_hnaBytes {cnf cnf' : Cnf} (horig : cnf'.mainAddr.length = cnf.ipsize) (vtime : UInt8) (size : Nat)
    (seqno : UInt16) (pairs : List UInt8) (ttl hops : UInt8) :
    relayed cnf (hnaBytes cnf' vtime size seqno pairs) ttl hops =
      [4, vtime] ++ u16Bytes size ++ cnf'.mainAddr ++ [ttl, hops] ++ u16Bytes seqno.toNat ++ pairs := by
  have hpre : ([4, vtime] ++ u16Bytes size ++ cnf'.mainAddr).length = 4 + cnf.ipsize := by
    simp [u16Bytes, horig]
    omega
  have happend := relayed_append hpre (u16Bytes seqno.toNat ++ pairs) 255 0 ttl hops
  simpa [hnaBytes] using happend

/-- The pairs that are read do not depend on the sender of the packet. -/
theorem olsrInputHna_symLink {cnf : Cnf} {symLink : Bool} {msg : Mem} {pairs : List (IpAddr × IpAddr)}
    (h : (olsrInputHna cnf symLink msg).1 = some pairs) : (olsrInputHna cnf true msg).1 = some pairs := by
  cases symLink with
  | true => exact h
  | false =>
    unfold olsrInputHna at h
    dsimp only at h
    split at h
    · cases h
    · split at h
      · cases h
      · cases h

/-- A MID message that comes in tells of interfaces of its sender. -/
theorem Genuine.read_mid (hagreed : Agreed env) {p : Packet V} (h : Genuine env p) (hcontent : p.content = .mid) (v : V)
    {ttl hops : UInt8} {msg : Mem} (hmsg : Holds msg (relayed (env v).cnf p.bytes ttl hops)) :
    ∃ m, (midChgestruct (env v).cnf msg).1 = some m ∧ m.addr = (env p.sender).cnf.mainAddr ∧
      ∀ a ∈ m.aliases, a ∈ (env p.sender).ifaddrs := by
  have hsize := hagreed.ipsize p.sender v
  unfold Genuine at h
  rw [hcontent] at h
  obtain ⟨vtime, seqno, addrs, hbytes, haddrs, hsmall⟩ := h
  have horig : (env p.sender).cnf.mainAddr.length = (env v).cnf.ipsize := hsize ▸ hagreed.mainAddr p.sender
  rw [hbytes, midPart, relayed_midBytes horig, midHdrsize, hsize] at hmsg
  rw [midHdrsize, hsize] at hsmall
  exact ⟨_, midChgestruct_bytes horig (fun a ha => hsize ▸ hagreed.ifaddrs p.sender a (haddrs a ha)) hsmall hmsg, rfl,
    fun a ha => haddrs a (List.mem_reverse.1 ha)⟩

/-- An HNA message that comes in tells of networks of its sender. -/
theorem Genuine.read_hna (hagreed : Agreed env) {p : Packet V} (h : Genuine env p) {hnaEntries : List HnaEntry}
    (hcontent : p.content = .hna hnaEntries) (v : V) {ttl hops : UInt8} {msg : Mem}
    (hmsg : Holds msg (relayed (env v).cnf p.bytes ttl hops)) :
    msg.slice 4 (env v).cnf.ipsize = (env p.sender).cnf.mainAddr ∧
      ∃ pairs, (olsrInputHna (env v).cnf true msg).1 = some pairs ∧
      ∀ pair ∈ pairs, ∃ e ∈ hnaEntries, pair.1 = e.pfx ∧ netmaskToPrefix pair.2 = e.prefixLen := by
  have hsize := hagreed.ipsize p.sender v
  unfold Genuine at h
  rw [hcontent] at h
  obtain ⟨vtime, seqno, pairs, hbytes, hpairs, hok, hsmall⟩ := h
  have horig : (env p.sender).cnf.mainAddr.length = (env v).cnf.ipsize := hsize ▸ hagreed.mainAddr p.sender
  have hsized : PairsSized (env v).cnf pairs := by
    intro pair hpair
    obtain ⟨e, he, rfl⟩ := hpairs pair hpair
    rw [← hsize]
    exact ⟨(hok e he).1, length_prefixToNetmask ..⟩
  rw [hbytes, hnaPart, relayed_hnaBytes horig] at hmsg
  obtain ⟨hread, hslice⟩ := olsrInputHna_relayed horig hsized (by rw [hnaHdrsize, hnaHdrsize, hsize]) hsmall hmsg
  refine ⟨hslice, pairs, hread, fun pair hpair => ?_⟩
  obtain ⟨e, he, rfl⟩ := hpairs pair hpair
  refine ⟨e, he, rfl, ?_⟩
  show netmaskToPrefix (prefixToNetmask (env p.sender).cnf.ipsize e.prefixLen.toNat) = e.prefixLen
  rw [netmaskToPrefix_netmask (hok e he).2, UInt8.ofNat_toNat]

/-! ## The invariant -/

/-- What is true of the nodes in a state of the network: a network is announced by what was sent. -/
def facts (env : V → NodeEnv) (log : List (Packet V)) : Facts where
  node o := ∃ v, (env v).cnf.mainAddr = o
  iface o a := ∃ v, (env v).cnf.mainAddr = o ∧ a ∈ (env v).ifaddrs
  net o d := ∃ p ∈ log, (env p.sender).cnf.mainAddr = o ∧ ∃ hnaEntries, p.content = .hna hnaEntries ∧
    ∃ e ∈ hnaEntries, d = ⟨e.pfx, e.prefixLen.toNat⟩

structure Inv (env : V → NodeEnv) (net : Net V) : Prop where
  log : ∀ p ∈ net.log, Genuine env p
  hnaEntries : ∀ v, HnaOk (env v).cnf (net.hnaEntries v)
  node : ∀ v, Sourced (facts env net.log) (env v).cnf (net.node v)

theorem Sourced.grow {log new : List (Packet V)} {cnf : Cnf} {n : Sources} (h : Sourced (facts env log) cnf n) :
    Sourced (facts env (new ++ log)) cnf n := by
  apply h.mono
  · exact fun _ => id
  · exact fun _ _ => id
  · rintro o d ⟨p, hp, hrest⟩
    exact ⟨p, List.mem_append_right new hp, hrest⟩

section

variable {log : List (Packet V)} {v : V} {n n' : Sources} {p : Packet V} {ttl hops : UInt8} {msg : Mem}

/-- A MID message leaves a node with what is true. -/
theorem Sourced.inputMid (hagreed : Agreed env) (h : Sourced (facts env log) (env v).cnf n) (hp : Genuine env p)
    (hcontent : p.content = .mid) (hmsg : Holds msg (relayed (env v).cnf p.bytes ttl hops)) {symLink : Bool}
    {x : MidInput}
    (hin : olsrInputMid (env v) n symLink msg x = some n') : Sourced (facts env log) (env v).cnf n' := by
  obtain ⟨m, hm, haddr, haliases⟩ := hp.read_mid hagreed hcontent v hmsg
  unfold olsrInputMid at hin
  rw [hm] at hin
  simp only [Option.bind_eq_bind, Option.bind_some] at hin
  split at hin
  · obtain rfl := Option.some.inj hin
    exact h
  · split at hin
    · obtain rfl := Option.some.inj hin
      exact h
    · obtain ⟨n₁, hn₁, hin⟩ := Option.bind_eq_some_iff.1 hin
      obtain ⟨n₂, hn₂, hin⟩ := Option.bind_eq_some_iff.1 hin
      have h₂ : Sourced (facts env log) (env v).cnf n₂ := by
        refine Run.forEach_invariant (P := Sourced (facts env log) (env v).cnf) (fun n₃ a n₄ ha h₃ hround => ?_)
          (h.step hn₁ trivial) hn₂
        have hmem : a.1 ∈ m.aliases := (List.mem_zipIdx' ha).2 ▸ List.getElem_mem _
        exact h₃.step hround ⟨⟨p.sender, haddr.symm⟩, p.sender, haddr.symm, haliases a.1 hmem⟩
      exact h₂.step hin trivial

theorem Sourced.inputHna (hagreed : Agreed env) (h : Sourced (facts env log) (env v).cnf n) (hp : Genuine env p)
    (hlog : p ∈ log) (hcontent : p.content ≠ .mid) (hmsg : Holds msg (relayed (env v).cnf p.bytes ttl hops))
    {symLink : Bool}
    {hnaEntries : List HnaEntry} {blocks : Nat → Ptr × Ptr}
    (hin : inputHna (env v) hnaEntries n symLink msg blocks = some n') : Sourced (facts env log) (env v).cnf n' := by
  cases hsent : p.content with
  | mid => exact absurd hsent hcontent
  | hna sent =>
    obtain ⟨hslice, pairs, hread, hpairs⟩ := hp.read_hna hagreed hsent v hmsg
    unfold Announce.inputHna at hin
    split at hin
    · obtain rfl := Option.some.inj hin
      exact h
    · rename_i pairs' hpairs'
      obtain rfl := Option.some.inj ((olsrInputHna_symLink hpairs').symm.trans hread)
      refine Run.forEach_invariant (P := Sourced (facts env log) (env v).cnf) (fun n₁ x n₂ hx h₁ hround => ?_) h hin
      have hmem : x.1 ∈ pairs' := (List.mem_zipIdx' hx).2 ▸ List.getElem_mem _
      obtain ⟨e, he, hpfx, hlen⟩ := hpairs x.1 hmem
      unfold inputHnaNetwork at hround
      dsimp only at hround
      split at hround
      · obtain rfl := Option.some.inj hround
        exact h₁
      · split at hround
        · obtain rfl := Option.some.inj hround
          exact h₁
        · refine h₁.step hround ⟨⟨p.sender, hslice.symm⟩, p, hlog, hslice.symm, sent, hsent, e, he, ?_⟩
          rw [hpfx, hlen]

end

/-! ## Where routes lead -/

/-- A destination of the node `v`: its main address, one of its interfaces, or a network that it had when it sent an
HNA. -/
def Destination (env : V → NodeEnv) (log : List (Packet V)) (v : V) (d : IpPrefix) : Prop :=
  d.addr = (env v).cnf.mainAddr ∧ d.prefixLen = 8 * (env v).cnf.ipsize ∨
    d.addr ∈ (env v).ifaddrs ∧ d.prefixLen = 8 * (env v).cnf.ipsize ∨
    ∃ p ∈ log, p.sender = v ∧ ∃ hnaEntries, p.content = .hna hnaEntries ∧
      ∃ e ∈ hnaEntries, d.addr = e.pfx ∧ d.prefixLen = e.prefixLen.toNat

theorem destination_of_owns (hagreed : Agreed env) {log : List (Packet V)} (w : V) {o : IpAddr} {d : IpPrefix}
    (h : (facts env log).Owns (env w).cnf o d) : ∃ v, (env v).cnf.mainAddr = o ∧ Destination env log v d := by
  have hlen : ∀ v, Topology.maxplen (env w).cnf = 8 * (env v).cnf.ipsize := fun v => by
    rw [Topology.maxplen, hagreed.ipsize w v]
  obtain ⟨⟨v, hv⟩, rfl | ⟨a, ⟨v', hv', ha⟩, rfl⟩ | ⟨p, hp, hsender, hnaEntries, hcontent, e, he, rfl⟩⟩ := h
  · exact ⟨v, hv, .inl ⟨hv.symm, hlen v⟩⟩
  · exact ⟨v', hv', .inr (.inl ⟨ha, hlen v'⟩)⟩
  · exact ⟨p.sender, hsender, .inr (.inr ⟨p, hp, rfl, hnaEntries, hcontent, e, he, rfl, rfl⟩)⟩

/-! ## Steps -/

section

variable [DecidableEq V] {net net' : Net V}

theorem Inv.setNode (h : Inv env net) {v : V} {n : Sources} (hn : Sourced (facts env net.log) (env v).cnf n) :
    Inv env (net.setNode v n) := by
  refine ⟨h.log, h.hnaEntries, ?_⟩
  exact (Function.forall_update_iff net.node fun w n => Sourced (facts env net.log) (env w).cnf n).2
    ⟨hn, fun w _ => h.node w⟩

theorem Inv.send (h : Inv env net) {v : V} {content : Content} {st : Sender}
    (hsent : ∀ bs ∈ st.sent, Genuine env ⟨v, content, bs⟩) : Inv env (net.send v content st) := by
  refine ⟨fun p hp => ?_, h.hnaEntries, fun w => (h.node w).grow⟩
  rcases List.mem_append.1 hp with hp | hp
  · obtain ⟨bs, hbs, rfl⟩ := List.mem_map.1 hp
    exact hsent bs hbs
  · exact h.log p hp

theorem Inv.step (hagreed : Agreed env) (h : Inv env net) {e : NetEvent V} (hen : e.Enabled env net)
    (hstep : net.step env e = some net') : Inv env net' := by
  cases e with
  | queueMid v vtime pending maxsize =>
    obtain ⟨st, hst, rfl⟩ := Option.map_eq_some_iff.1 hstep
    exact h.send (genuine_queueMid hagreed hen.1 hen.2.1 hen.2.2 hst)
  | queueHna v vtime pending maxsize =>
    obtain ⟨st, hst, rfl⟩ := Option.map_eq_some_iff.1 hstep
    exact h.send (genuine_queueHna hagreed (h.hnaEntries v) hen.1 hst)
  | setHna v hnaEntries =>
    obtain rfl := Option.some.inj hstep
    refine ⟨h.log, ?_, h.node⟩
    exact (Function.forall_update_iff net.hnaEntries fun w entries => HnaOk (env w).cnf entries).2
      ⟨hen, fun w _ => h.hnaEntries w⟩
  | inputMid v symLink p ttl hops msg x =>
    obtain ⟨n', hn', rfl⟩ := Option.map_eq_some_iff.1 hstep
    exact h.setNode ((h.node v).inputMid hagreed (h.log p hen.1) hen.2.1 hen.2.2 hn')
  | inputHna v symLink p ttl hops msg blocks =>
    obtain ⟨n', hn', rfl⟩ := Option.map_eq_some_iff.1 hstep
    exact h.setNode ((h.node v).inputHna hagreed (h.log p hen.1) hen.1 hen.2.1 hen.2.2 hn')
  | hello v w now vtime x =>
    obtain ⟨n', hn', rfl⟩ := Option.map_eq_some_iff.1 hstep
    have htells : SourceEvent.Tells (facts env net.log) (.helloAlias now (env w).cnf.mainAddr vtime x) :=
      ⟨⟨w, rfl⟩, w, rfl, hen⟩
    exact h.setNode ((h.node v).step hn' htells)
  | locateTcEntry v w p =>
    obtain ⟨n', hn', rfl⟩ := Option.map_eq_some_iff.1 hstep
    have htells : SourceEvent.Tells (facts env net.log) (.locateTcEntry (env w).cnf.mainAddr p) := ⟨w, rfl⟩
    exact h.setNode ((h.node v).step hn' htells)
  | expire v ev =>
    obtain ⟨n', hn', rfl⟩ := Option.map_eq_some_iff.1 hstep
    have htells : SourceEvent.Tells (facts env net.log) ev := by
      cases ev <;> first | exact hen.elim | trivial
    exact h.setNode ((h.node v).step hn' htells)
  | table v op =>
    obtain ⟨rib, hrib, rfl⟩ := Option.map_eq_some_iff.1 hstep
    have htells : TableOp.Tells ((facts env net.log).Owns (env v).cnf) (env v).cnf op := by
      cases op <;> first | exact hen.elim | trivial
    exact h.setNode ⟨(h.node v).aliases, (h.node v).nets, (h.node v).rib.stepTable hrib htells⟩
  | updateRoutes v =>
    obtain ⟨rib, hrib, rfl⟩ := Option.map_eq_some_iff.1 hstep
    exact h.setNode ⟨(h.node v).aliases, (h.node v).nets, (h.node v).rib.updateRoutes hrib⟩
  | takeSeqno v =>
    obtain rfl := Option.some.inj hstep
    exact ⟨h.log, h.hnaEntries, h.node⟩

theorem Inv.reachable (hagreed : Agreed env) (h : Reachable env net) : Inv env net := by
  refine Run.Reaches.invariant (P := Inv env) ?_ (fun net e net' hnet hen hstep => hnet.step hagreed hen hstep) h
  rintro net ⟨hnode, hlog⟩
  refine ⟨fun p hp => ?_, fun v => (hnode v).2, fun v => ?_⟩
  · rw [hlog] at hp
    exact absurd hp List.not_mem_nil
  · rw [(hnode v).1]
    exact sourced_noSources ..

/-- In every state of the network and at every node: an address that is resolved is an interface of a node with the main
address that it is resolved to; the destination of a path belongs to a node with the address of the path's originator;
and what the kernel has a route to belongs to some node. -/
theorem routes_announced (hagreed : Agreed env) (h : Reachable env net) (w : V) :
    (∀ a o, midLookupMainAddr (net.node w).mid a = some o → ∃ v, (env v).cnf.mainAddr = o ∧ a ∈ (env v).ifaddrs) ∧
    (∀ p x, (net.node w).rib.path p = some x → ∃ v, (env v).cnf.mainAddr = x.tc ∧ Destination env net.log v x.dst) ∧
    ∀ d nh, (net.node w).rib.kernel d = some nh → ∃ v, Destination env net.log v d := by
  have hnode := (Inv.reachable hagreed h).node w
  refine ⟨fun a o ha => (hnode.aliases.lookup ha).2, fun p x hx => ?_, fun d nh hd => ?_⟩
  · exact destination_of_owns hagreed w (hnode.rib.paths p x hx)
  · obtain ⟨o, ho⟩ := hnode.rib.kernel d nh hd
    obtain ⟨v, -, hv⟩ := destination_of_owns hagreed w ho
    exact ⟨v, hv⟩

end

/-! ## Two nodes -/

/-- The second node has two interfaces. -/
def pairNode (i : Bool) : NodeEnv where
  toEnv := { linuxRouter with cnf := { linuxRouter.cnf with mainAddr := if i then [10, 0, 0, 9] else [10, 0, 0, 1] } }
  ifaddrs := if i then [[10, 0, 0, 9], [10, 0, 1, 9]] else [[10, 0, 0, 1]]

/-- The second node has a network. -/
def pairNet : Net Bool := ⟨fun _ => noSources, fun i => if i then [⟨[192, 168, 1, 0], 24⟩] else [], fun _ => 1, []⟩

def pairSent : List (NetEvent Bool) := [.queueMid true 0x86 0 1500, .queueHna true 0x86 0 1500]

/-- Both messages come in at the first node after some hops, and a path calculation finds a route to the network. -/
def pairReceived (mid hna : Packet Bool) : List (NetEvent Bool) :=
  [.inputMid false true mid 254 1 (fun k => (relayed (pairNode false).cnf mid.bytes 254 1).getD k 0)
      ⟨0, 0, fun _ => ⟨[], false, 0, 0, 1⟩⟩,
    .inputHna false true hna 250 5 (fun k => (relayed (pairNode false).cnf hna.bytes 250 5).getD k 0) (fun _ => (2, 3)),
    .table false .bumpRoutingtreeVersion, .table false (.insertRtPath 3 ⟨1024, 1, [10, 0, 0, 9], 1⟩ 0),
      .updateRoutes false]

/-- The first node has a kernel route to the network of the second, and knows the alias of the second. -/
theorem routes_announced_pair : ∃ net nh, Reachable pairNode net ∧
    midLookupMainAddr (net.node false).mid [10, 0, 1, 9] = some [10, 0, 0, 9] ∧
    (net.node false).rib.kernel ⟨[192, 168, 1, 0], 24⟩ = some nh ∧
    ∃ v, Destination pairNode net.log v ⟨[192, 168, 1, 0], 24⟩ := by
  have hrun : ((Run.forEach (Net.step pairNode) pairSent pairNet).any fun n₁ => n₁.log[1]?.any fun mid =>
      n₁.log[0]?.any fun hna => mid.content == .mid && hna.content != .mid &&
        (Run.forEach (Net.step pairNode) (pairReceived mid hna) n₁).any fun n₂ =>
          midLookupMainAddr (n₂.node false).mid [10, 0, 1, 9] == some [10, 0, 0, 9] &&
          ((n₂.node false).rib.kernel ⟨[192, 168, 1, 0], 24⟩).isSome) = true := by decide +kernel
  obtain ⟨n₁, h₁, hrun⟩ := (Option.any_eq_true _ _).1 hrun
  obtain ⟨mid, hmid, hrun⟩ := (Option.any_eq_true _ _).1 hrun
  obtain ⟨hna, hhna, hrun⟩ := (Option.any_eq_true _ _).1 hrun
  rw [Bool.and_eq_true, Bool.and_eq_true] at hrun
  obtain ⟨⟨hmidContent, hhnaContent⟩, hrun⟩ := hrun
  obtain ⟨n₂, h₂, hrun⟩ := (Option.any_eq_true _ _).1 hrun
  rw [Bool.and_eq_true] at hrun
  obtain ⟨halias, hkernel⟩ := hrun
  obtain ⟨nh, hnh⟩ := Option.isSome_iff_exists.1 hkernel
  have hagreed : Agreed pairNode := by
    refine ⟨fun _ _ => rfl, fun i => ?_, fun i => ?_⟩
    · cases i <;> rfl
    · cases i <;> decide
  have hstart : Start pairNode pairNet := by
    refine ⟨fun i => ⟨rfl, ?_⟩, rfl⟩
    cases i
    · exact nofun
    · unfold HnaOk
      decide
  have hsent : Reachable pairNode n₁ := by
    have hmidRoom : 0 ≤ 1500 ∧ midHdrsize (pairNode true).cnf + (pairNode true).cnf.ipsize ≤ 1500 ∧ 1500 < 65536 := by
      decide
    have hhnaRoom : 0 ≤ 1500 ∧ hnaHdrsize (pairNode true).cnf + 2 * (pairNode true).cnf.ipsize ≤ 1500 ∧
        1500 < 65536 := by
      decide
    exact Run.reaches_forEach (.init hstart) (l := pairSent) ⟨hmidRoom, fun _ _ => ⟨hhnaRoom, fun _ _ => trivial⟩⟩ h₁
  have hreceived : Reachable pairNode n₂ := by
    refine Run.reaches_forEach hsent (l := pairReceived mid hna) ⟨⟨List.mem_of_getElem? hmid, beq_iff_eq.1 hmidContent,
      fun k hk => (List.getElem_eq_getD 0).symm⟩, fun n' hn' => ⟨⟨?_, bne_iff_ne.1 hhnaContent,
      fun k hk => (List.getElem_eq_getD 0).symm⟩, fun _ _ =>
        ⟨trivial, fun _ _ => ⟨trivial, fun _ _ => ⟨trivial, fun _ _ =>
        trivial⟩⟩⟩⟩⟩ h₂
    obtain ⟨n, -, rfl⟩ := Option.map_eq_some_iff.1 hn'
    exact List.mem_of_getElem? hhna
  exact ⟨n₂, nh, hreceived, beq_iff_eq.1 halias, hnh, (routes_announced hagreed hreceived false).2.2 _ nh hnh⟩

end Olsrd.Announce
