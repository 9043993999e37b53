/-
What the SPF run goes by was announced: an edge of another node is in the link state database only if a TC of this node
named the neighbour, and the run takes an edge only if both of its ends have announced the other.
-/
import Olsrd.LinkState.Messages
import Olsrd.Neighbor.Ansn
import Olsrd.Spf.HopByHop
import Olsrd.Spf.Prepare

namespace Olsrd.LinkState

open Bytes (Mem)
open Olsrd.Topology (Lsdb TcEdgeEntry EdgesKept edgeAt edgesFrom addrOf headerOf)
open Olsrd.Neighbor (KeysIn)
open Olsrd.Spf (NodeWf)

variable {V Lq Hq : Type} {mesh : Mesh V Lq Hq}

/-! ## The edges of other nodes -/

section

variable {env : Spf.Env Lq Hq} {n n' : Spf.Node Lq Hq} {s s' : Lsdb Lq} {a b : IpAddr} {d : TcEdgeEntry Lq}

/-- Edges that are kept, of entries that are kept. -/
theorem edgesFrom_of_kept (h : Topology.Wf s) (h' : Topology.Wf s') (hkept : EdgesKept s s')
    (haddr : ∀ q, addrOf s' q = some a → addrOf s q = some a) (hd : edgesFrom s' a b = some d) :
    edgesFrom s a b = some d := by
  by_cases hex : ∃ q, addrOf s' q = some a
  · obtain ⟨q, hq⟩ := hex
    rw [Topology.edgesFrom_eq h' hq, Topology.edgeAt_eq_some_iff h'] at hd
    obtain ⟨htc, hdest, e, he⟩ := hd
    rw [Topology.edgesFrom_eq h (haddr q hq), Topology.edgeAt_eq_some_iff h]
    exact ⟨htc, hdest, e, hkept e d he⟩
  · rw [Topology.edgesFrom_eq_none h' (not_exists.1 hex)] at hd
    cases hd

/-- Events at a node other than TC messages bring no edges of other nodes. -/
theorem edgesFrom_local (h : NodeWf env n) {ev : Spf.Event Hq} (hen : ev.Enabled env n)
    (hlocal : ∀ symLink msg, ev ≠ .inputTc symLink msg) (hstep : Spf.step env n ev = some n')
    (ha : a ≠ env.cnf.mainAddr)
    (hd : edgesFrom n'.own.lsdb a b = some d) : edgesFrom n.own.lsdb a b = some d := by
  have hwf := (h.step hen hstep).lsdb
  cases ev with
  | inputTc symLink msg => exact absurd rfl (hlocal symLink msg)
  | linkquality id quality =>
    obtain rfl := Option.some.inj hstep
    exact hd
  | nbh ev =>
    obtain ⟨s₁, hs₁, hstep⟩ := Option.bind_eq_some_iff.1 hstep
    obtain ⟨nbh, -, hstep⟩ := Option.bind_eq_some_iff.1 hstep
    obtain rfl := Option.some.inj hstep
    change edgesFrom s₁ a b = some d at hd
    cases ev with
    | deleteLink l =>
      obtain ⟨p, hp, hs₁⟩ := Option.bind_eq_some_iff.1 hs₁
      obtain ⟨o, ho, hs₁⟩ := Option.bind_eq_some_iff.1 hs₁
      obtain ⟨t, ht, -⟩ := Topology.exists_tc_of_addrOf (h.own p hp)
      have hfind : Keyed.find l.neighborIfaceAddr t.edgeTree = o := by simpa [Topology.olsrLookupTcEdge, ht] using ho
      rw [← hfind] at hs₁
      have hset : Spf.OwnEdgeSet env _ _ none _ s₁ := Spf.deleteEdgeIfAny_spec h.lsdb ht hs₁
      rw [← Topology.edgesFrom_congr h.lsdb hset.wf (fun q => by rw [hset.addrOf]) fun q hq => hset.others q ?_]
      · exact hd
      · rintro rfl
        exact ha (Option.some.inj (hq.symm.trans (h.own q hp)))
    | _ =>
      obtain rfl := Option.some.inj hs₁
      exact hd
  | expireTc tc =>
    obtain ⟨s₁, hs₁, rfl⟩ := Option.map_eq_some_iff.1 hstep
    obtain ⟨t, ht, -⟩ := Option.bind_eq_some_iff.1 hs₁
    obtain ⟨s₂, hs₂, -, haddr, -⟩ := Topology.olsrDeleteTcEntry_spec env.topology h.lsdb ht
    obtain rfl : s₁ = s₂ := Option.some.inj (hs₁.symm.trans hs₂)
    refine edgesFrom_of_kept h.lsdb hwf (Topology.edgesKept_deleteEntry hs₁) (fun q hq => ?_) hd
    change addrOf s₁ q = some a at hq
    rw [haddr] at hq
    split at hq
    · cases hq
    · exact hq
  | expireEdgeGc tc =>
    obtain ⟨s₁, hs₁, rfl⟩ := Option.map_eq_some_iff.1 hstep
    obtain ⟨t, ht, -⟩ := Option.bind_eq_some_iff.1 hs₁
    have hdel := Topology.edgesDeleted_outdated env.topology h.lsdb ht hs₁
    exact edgesFrom_of_kept h.lsdb hwf (Topology.edgesKept_deleteOutdated hs₁) (fun q hq => hdel.addrOf q ▸ hq) hd
  | spf =>
    rcases Spf.neighborLoop_cases h hstep with ⟨p, hp, hloop⟩ | ⟨-, rfl⟩
    · have hframe := Spf.loopFrame h hp hloop
      rw [← Topology.edgesFrom_congr h.lsdb hwf (fun q => by rw [hframe.addrOf]) fun q hq => hframe.others q ?_]
      · exact hd
      · rintro rfl
        exact ha (Option.some.inj (hq.symm.trans (h.own q hp)))
    · exact hd

end

/-! ## What was announced -/

/-- The node `a` has sent a TC that names `b`, which was its neighbour then, with the number and the link quality that
the edge has now. -/
def Announced (mesh : Mesh V Lq Hq) (log : List (Packet V Lq Hq)) (v : V) (a b : IpAddr) (d : TcEdgeEntry Lq) : Prop :=
  ∃ p ∈ log, (mesh.env p.sender).cnf.mainAddr = a ∧ p.tc.ansn = d.ansn ∧
    ∃ q, HasNeighbor (mesh.env p.sender) p.node b q ∧ (b, mesh.serializeTcLq q) ∈ p.tc.neigh ∧
      d.linkquality = (mesh.env v).lq.deserializeTcLq (mesh.serializeTcLq q)

theorem Announced.mono {log log' : List (Packet V Lq Hq)} {v : V} {a b : IpAddr} {d : TcEdgeEntry Lq}
    (h : Announced mesh log v a b d) (hlog : ∀ p ∈ log, p ∈ log') : Announced mesh log' v a b d := by
  obtain ⟨p, hp, hrest⟩ := h
  exact ⟨p, hlog p hp, hrest⟩

/-- The invariant of the network. -/
structure Inv (mesh : Mesh V Lq Hq) (net : Net V Lq Hq) : Prop where
  nodes : ∀ v, NodeWf (mesh.env v) (net.node v)
  keys : ∀ v, KeysIn mesh.Accepted (net.node v).nbh
  genuine : ∀ p ∈ net.log, Genuine mesh p
  announced : ∀ v a b d, a ≠ (mesh.env v).cnf.mainAddr → edgesFrom (net.node v).own.lsdb a b = some d →
    Announced mesh net.log v a b d

/-- After an accepted message, an edge of its originator is an old one or announced by it. -/
theorem announced_accepted (hagreed : mesh.Agreed) {log : List (Packet V Lq Hq)} {v : V} {n : Spf.Node Lq Hq}
    (h : NodeWf (mesh.env v) n) {p : Packet V Lq Hq} (hp : p ∈ log) (hgenuine : Genuine mesh p)
    {ttl hops : UInt8} {msg : Mem} (hmsg : Topology.Holds msg (relayed (mesh.env v).cnf p.bytes ttl hops))
    (hgate : Topology.GateOpen n.own.lsdb (headerOf (mesh.env v).topology msg)) {r : Topology.TcResult Lq}
    (hentry : Topology.EntryAvailable (mesh.env v).topology n.own.lsdb (headerOf (mesh.env v).topology msg).originator)
    (hr : Topology.olsrInputTc (mesh.env v).topology n.own.lsdb true msg = some r) {b : IpAddr} {d : TcEdgeEntry Lq}
    (hd : edgesFrom r.db (headerOf (mesh.env v).topology msg).originator b = some d) :
    edgesFrom n.own.lsdb (headerOf (mesh.env v).topology msg).originator b = some d ∨
      Announced mesh log v (headerOf (mesh.env v).topology msg).originator b d := by
  obtain ⟨hd₁, f, hcarries, horig, hansn, htype, hmem⟩ := hgenuine.carries hagreed v hmsg
  obtain ⟨hsized, hok⟩ := hgenuine.wellSized hagreed v hmem
  have htc : Topology.IsTc msg := .inl (by rw [hcarries.type, htype]; rfl)
  obtain ⟨r', p', hr', hacc⟩ := Topology.olsrInputTc_accepted (mesh.env v).topology h.lsdb h.ordered htc hgate hentry
  obtain rfl := Option.some.inj (hr.symm.trans hr')
  by_cases hclean : (headerOf (mesh.env v).topology msg).cleansUp
  · rw [hacc.cleaned hclean] at hd
    cases hd
  rw [hacc.edges hclean] at hd
  have hwalk := edge_of_revokeWithin hd
  rcases recordWalk_source (hagreed.lqLevel v) _ _ _ _ _ (hcarries.at hsized) hok hwalk with hold | ⟨m, hm, hnew⟩
  · exact .inl hold
  · obtain ⟨hb, hansn', hquality⟩ := hnew
    obtain ⟨-, q, hq, hbytes⟩ := hgenuine.tells m (hmem m hm)
    have hnamed : (m.1, mesh.serializeTcLq q) ∈ p.tc.neigh := hbytes ▸ hmem m hm
    refine .inr ⟨p, hp, ?_, ?_, q, hb ▸ hq, hb ▸ hnamed, ?_⟩
    · rw [hcarries.originator, horig]
    · rw [hansn', hcarries.ansn, hansn]
    · rw [hquality, hbytes]; rfl

/-- A message that comes in brings only what it says. -/
theorem announced_inputTc (hagreed : mesh.Agreed) {log : List (Packet V Lq Hq)} {v : V} {n : Spf.Node Lq Hq}
    (h : NodeWf (mesh.env v) n) {p : Packet V Lq Hq} (hp : p ∈ log) (hgenuine : Genuine mesh p)
    {ttl hops : UInt8} {msg : Mem} (hmsg : Topology.Holds msg (relayed (mesh.env v).cnf p.bytes ttl hops))
    {symLink : Bool} {r : Topology.TcResult Lq}
    (hr : Topology.olsrInputTc (mesh.env v).topology n.own.lsdb symLink msg = some r) {a b : IpAddr}
    {d : TcEdgeEntry Lq} (hd : edgesFrom r.db a b = some d) :
    edgesFrom n.own.lsdb a b = some d ∨ Announced mesh log v a b d := by
  obtain ⟨hd₁, f, hcarries, -, -, htype, -⟩ := hgenuine.carries hagreed v hmsg
  have hframe := Topology.olsrInputTc_frame h.lsdb h.ordered hr
  by_cases ha : a = (headerOf (mesh.env v).topology msg).originator
  · subst ha
    have htc : Topology.IsTc msg := .inl (by rw [hcarries.type, htype]; rfl)
    cases symLink with
    | false =>
      rw [Topology.olsrInputTc_ignored (mesh.env v).topology n.own.lsdb (by simp)] at hr
      obtain rfl := Option.some.inj hr
      exact .inl hd
    | true =>
      by_cases hentry : Topology.EntryAvailable (mesh.env v).topology n.own.lsdb
          (headerOf (mesh.env v).topology msg).originator
      · by_cases hgate : Topology.GateOpen n.own.lsdb (headerOf (mesh.env v).topology msg)
        · exact announced_accepted hagreed h hp hgenuine hmsg hgate hentry hr hd
        · simp only [Topology.GateOpen, not_forall] at hgate
          obtain ⟨q, t, hq, ht, hclosed⟩ := hgate
          rw [Topology.olsrInputTc_of_closed (mesh.env v).topology htc hq ht (Bool.eq_false_iff.2 hclosed)] at hr
          obtain rfl := Option.some.inj hr
          refine .inl (edgesFrom_of_kept h.lsdb hframe.wf (.of_eq rfl) (fun q' hq' => ?_) hd)
          rwa [Topology.addrOf_update rfl ht (congrArg (fun x => x.1) (Topology.tcGate_shape t _ _))] at hq'
      · rw [Topology.olsrInputTc_eq_none (mesh.env v).topology htc hentry] at hr
        cases hr
  · rw [Topology.edgesFrom_congr h.lsdb hframe.wf (fun q => hframe.addrOf q a ha) fun q hq => hframe.edges q a
      ha hq] at hd
    exact .inl hd

/-! ## Runs -/

theorem inv_start {net : Net V Lq Hq} (h : Start mesh net) : Inv mesh net := by
  obtain ⟨hstart, hlog⟩ := h
  refine ⟨fun v => (Spf.start_spec (hstart v)).1, fun v q a hq => ?_, fun p hp => ?_, fun v a b d _ hd => ?_⟩
  · rw [(hstart v).1] at hq
    cases hq
  · rw [hlog] at hp
    cases hp
  · obtain ⟨hn, hno⟩ := Spf.start_spec (hstart v)
    by_cases hex : ∃ q, addrOf (net.node v).own.lsdb q = some a
    · obtain ⟨q, hq⟩ := hex
      rw [Topology.edgesFrom_eq hn.lsdb hq, Topology.edgeAt_eq_some_iff hn.lsdb] at hd
      obtain ⟨-, -, e, he⟩ := hd
      rw [hno] at he
      cases he
    · rw [Topology.edgesFrom_eq_none hn.lsdb (not_exists.1 hex)] at hd
      cases hd

variable [DecidableEq V] {net net' : Net V Lq Hq}

/-- A node goes on, and nothing is sent. -/
theorem Inv.setNode (h : Inv mesh net) {v : V} {n : Spf.Node Lq Hq} (hn : NodeWf (mesh.env v) n)
    (hkeys : KeysIn mesh.Accepted n.nbh)
    (hedges : ∀ a b d, a ≠ (mesh.env v).cnf.mainAddr → edgesFrom n.own.lsdb a b = some d →
      edgesFrom (net.node v).own.lsdb a b = some d ∨ Announced mesh net.log v a b d) : Inv mesh (net.setNode v n) := by
  have hnode : ∀ {P : V → Spf.Node Lq Hq → Prop}, P v n → (∀ w, P w (net.node w)) →
      ∀ w, P w ((net.setNode v n).node w) := by
    intro P hv hrest w
    by_cases hw : w = v
    · subst hw
      simpa [Net.setNode] using hv
    · simpa [Net.setNode, hw] using hrest w
  refine ⟨hnode hn h.nodes, hnode (P := fun _ n => KeysIn mesh.Accepted n.nbh) hkeys h.keys, h.genuine, ?_⟩
  refine hnode (P := fun w n => ∀ a b d, a ≠ (mesh.env w).cnf.mainAddr → edgesFrom n.own.lsdb a b = some d →
    Announced mesh net.log w a b d) (fun a b d ha hd => ?_) h.announced
  rcases hedges a b d ha hd with hold | hnew
  · exact h.announced v a b d ha hold
  · exact hnew

theorem Inv.step (hagreed : mesh.Agreed) (h : Inv mesh net) {e : NetEvent V Lq Hq} (hen : e.Enabled mesh net)
    (hstep : net.step mesh e = some net') : Inv mesh net' := by
  cases e with
  | outputLqTc v x pending maxsize =>
    obtain ⟨r, hr, rfl⟩ := Option.map_eq_some_iff.1 hstep
    refine ⟨h.nodes, h.keys, fun p hp => ?_, fun w a b d ha hd => ?_⟩
    · rcases List.mem_append.1 hp with hp | hp
      · obtain ⟨bs, hbs, rfl⟩ := List.mem_map.1 hp
        exact genuine_outputLqTc hagreed (h.keys v) hen.2.1 hen.2.2 hr bs hbs
      · exact h.genuine p hp
    · exact (h.announced w a b d ha hd).mono fun p hp => List.mem_append_right _ hp
  | deliver v symLink p ttl hops msg =>
    obtain ⟨n', hn', rfl⟩ := Option.map_eq_some_iff.1 hstep
    obtain ⟨hp, hmain, hmsg⟩ := hen
    obtain ⟨hd, f, hcarries, horig, -⟩ := (h.genuine p hp).carries hagreed v hmsg
    have horig' : (headerOf (mesh.env v).topology msg).originator ≠ (mesh.env v).cnf.mainAddr := by
      rw [hcarries.originator, horig]
      exact hmain
    obtain ⟨r, hr, rfl⟩ := Option.map_eq_some_iff.1 hn'
    have hen' : (Spf.Event.inputTc symLink msg).Enabled (mesh.env v) (net.node v) := horig'
    refine h.setNode ((h.nodes v).step hen' hn') (h.keys v) fun a b d _ hd => ?_
    exact announced_inputTc hagreed (h.nodes v) hp (h.genuine p hp) hmsg hr hd
  | increaseAnsn v =>
    obtain rfl := Option.some.inj hstep
    exact ⟨h.nodes, h.keys, h.genuine, h.announced⟩
  | takeSeqno v =>
    obtain rfl := Option.some.inj hstep
    exact ⟨h.nodes, h.keys, h.genuine, h.announced⟩
  | node v ev =>
    obtain ⟨n', hn', rfl⟩ := Option.map_eq_some_iff.1 hstep
    obtain ⟨hen, hlocal⟩ := hen
    have hnot : ∀ symLink msg, ev ≠ .inputTc symLink msg := by
      rintro symLink msg rfl
      exact hlocal
    refine h.setNode ((h.nodes v).step hen hn') ?_ fun a b d ha hd =>
      .inl (edgesFrom_local (h.nodes v) hen hnot hn' ha hd)
    cases ev with
    | nbh ev => exact (h.keys v).step hlocal (Spf.nbhStep_spec (h.nodes v) hn').nbh
    | spf => exact (Spf.neighborLoop_frame (h.nodes v) hn').2 ▸ h.keys v
    | inputTc symLink msg => exact hlocal.elim
    | linkquality id quality => exact (Spf.OwnFrame.step (h.nodes v) hen trivial hn').nbh ▸ h.keys v
    | expireTc tc => exact (Spf.OwnFrame.step (h.nodes v) hen trivial hn').nbh ▸ h.keys v
    | expireEdgeGc tc => exact (Spf.OwnFrame.step (h.nodes v) hen trivial hn').nbh ▸ h.keys v

theorem inv_of_reachable (hagreed : mesh.Agreed) (h : Reachable mesh net) : Inv mesh net :=
  Run.Reaches.invariant (fun _ => inv_start) (fun _ _ _ hinv hen hstep => hinv.step hagreed hen hstep) h

/-- Whatever happens to messages on their way: when the SPF run takes an edge, the node where the edge begins has
announced its end as a symmetric neighbour, with the number and the link quality that are stored, and the node where it
ends has announced its beginning; of its own edges the running node goes by what it has itself. -/
theorem spf_edges_announced (hagreed : mesh.Agreed) (h : Reachable mesh net) (v : V) {n' : Spf.Node Lq Hq}
    (hloop : Spf.neighborLoop (mesh.env v) (net.node v) = some n') {u w : Topology.Ptr} {c : Nat}
    (hedge : (w, c) ∈ Spf.spfGraph n'.own.lsdb u) :
    ∃ a b x y, addrOf n'.own.lsdb u = some a ∧ addrOf n'.own.lsdb w = some b ∧
      edgeAt n'.own.lsdb u b = some x ∧ x.cost = c ∧ edgeAt n'.own.lsdb w a = some y ∧
      (a ≠ (mesh.env v).cnf.mainAddr → Announced mesh net.log v a b x) ∧
      (b ≠ (mesh.env v).cnf.mainAddr → Announced mesh net.log v b a y) := by
  have hinv := inv_of_reachable hagreed h
  have hnode : NodeWf (mesh.env v) n' := (Spf.neighborLoop_frame (hinv.nodes v) hloop).1
  have hen : (Spf.Event.spf : Spf.Event Hq).Enabled (mesh.env v) (net.node v) := trivial
  have hannounced : ∀ a b d, a ≠ (mesh.env v).cnf.mainAddr → edgesFrom n'.own.lsdb a b = some d →
      Announced mesh net.log v a b d := fun a b d ha hd =>
    hinv.announced v a b d ha (edgesFrom_local (hinv.nodes v) hen nofun hloop ha hd)
  obtain ⟨hlinked, -⟩ := (Spf.mem_spfGraph hnode.lsdb).1 hedge
  obtain ⟨a, b, x, y, ha, hb, hx, hc, hy⟩ := (Spf.linked_iff_edgeAt hnode.lsdb).1 hlinked
  refine ⟨a, b, x, y, ha, hb, hx, hc, hy, fun hne => hannounced a b x hne ?_, fun hne => hannounced b a y hne ?_⟩
  · rw [Topology.edgesFrom_eq hnode.lsdb ha, hx]
  · rw [Topology.edgesFrom_eq hnode.lsdb hb, hy]

/-! ## Two nodes -/

open Olsrd.Spf (pairAddr pairEnv pairStart pairHello)

/-- The two nodes, with qualities of two bytes. -/
def pairMesh : Mesh Bool (UInt8 × UInt8) (UInt8 × UInt8) where
  env := pairEnv
  serializeTcLq q := [q.1, q.2, 0, 0]
  length_serializeTcLq _ := rfl

def pairNet : Option (Net Bool (UInt8 × UInt8) (UInt8 × UInt8)) := do
  let n₁ ← pairStart false
  let n₂ ← pairStart true
  pure ⟨fun i => if i then n₂ else n₁, fun _ => 1, fun _ => 1, []⟩

/-- A node hears of the other on a perfect link. -/
def pairHeard (i : Bool) : List (NetEvent Bool (UInt8 × UInt8) (UInt8 × UInt8)) :=
  [.node i (.nbh (.helloLink (pairHello i))), .node i (.nbh (.setLinkcost 0 1024)), .node i (.linkquality 0 (255, 255))]

/-- Both hear of each other, and the second node sends a TC. -/
def pairSent : List (NetEvent Bool (UInt8 × UInt8) (UInt8 × UInt8)) :=
  pairHeard false ++ pairHeard true ++ [.outputLqTc true Neighbor.plainTcInput 0 1500]

/-- The TC comes in at the first node with the TTL 254, after one hop. -/
def pairReceived (p : Packet Bool (UInt8 × UInt8) (UInt8 × UInt8)) :
    List (NetEvent Bool (UInt8 × UInt8) (UInt8 × UInt8)) :=
  [.deliver false true p 254 1 fun k => (relayed (pairEnv false).cnf p.bytes 254 1).getD k 0, .node false .spf]

theorem pairStart_start {i : Bool} {n : Spf.Node (UInt8 × UInt8) (UInt8 × UInt8)} (h : pairStart i = some n) :
    Spf.Start (pairEnv i) n := by
  obtain ⟨own, hown, rfl⟩ := Option.map_eq_some_iff.1 h
  exact ⟨rfl, own, hown, rfl⟩

theorem start_pairNet {net : Net Bool (UInt8 × UInt8) (UInt8 × UInt8)} (h : pairNet = some net) :
    Start pairMesh net := by
  unfold pairNet at h
  obtain ⟨n₁, hn₁, h⟩ := Option.bind_eq_some_iff.1 h
  obtain ⟨n₂, hn₂, h⟩ := Option.bind_eq_some_iff.1 h
  obtain rfl := Option.some.inj h
  refine ⟨fun v => ?_, rfl⟩
  cases v with
  | false => exact pairStart_start hn₁
  | true => exact pairStart_start hn₂

/-- The edge to the second node, which has announced the first. -/
theorem spf_edges_announced_pair : ∃ net n' y, Reachable pairMesh net ∧
    Spf.neighborLoop (pairEnv false) (net.node false) = some n' ∧ (2, 1024) ∈ Spf.spfGraph n'.own.lsdb 0 ∧
      Announced pairMesh net.log false (pairAddr true) (pairAddr false) y := by
  have hrun : (pairNet.any fun n₀ => (Run.forEach (Net.step pairMesh) pairSent n₀).any
    fun n₁ => n₁.log.head?.any fun p =>
      (Run.forEach (Net.step pairMesh) (pairReceived p) n₁).any fun n₂ =>
        (Spf.neighborLoop (pairEnv false) (n₂.node false)).any fun n' => p.sender &&
          Spf.spfGraph n'.own.lsdb 0 == [(2, 1024)] && addrOf n'.own.lsdb 0 == some (pairAddr false) &&
          addrOf n'.own.lsdb 2 == some (pairAddr true)) = true := by decide +kernel
  obtain ⟨n₀, h₀, hrun⟩ := (Option.any_eq_true _ _).1 hrun
  obtain ⟨n₁, h₁, hrun⟩ := (Option.any_eq_true _ _).1 hrun
  obtain ⟨p, hp, hrun⟩ := (Option.any_eq_true _ _).1 hrun
  obtain ⟨n₂, h₂, hrun⟩ := (Option.any_eq_true _ _).1 hrun
  obtain ⟨n', hn', hrun⟩ := (Option.any_eq_true _ _).1 hrun
  simp only [Bool.and_eq_true, beq_iff_eq] at hrun
  obtain ⟨⟨⟨hsender, hgraph⟩, haddr₁⟩, haddr₂⟩ := hrun
  have haccepted : ∀ i, pairMesh.Accepted (pairAddr i) := by
    intro i v
    cases i <;> cases v <;> decide
  have hagreed : pairMesh.Agreed := ⟨fun _ _ => rfl, fun _ => by show 0 < 2; decide, haccepted⟩
  have hsent : Reachable pairMesh n₁ := by
    refine Run.reaches_forEach (.init (start_pairNet h₀)) ?_ h₁
    have hroom : 0 ≤ 1500 ∧ 12 + (pairEnv true).cnf.ipsize ≤ 1500 ∧ 1500 < 65536 := by decide
    have hbrings : ∀ i, Neighbor.Event.Brings pairMesh.Accepted (.helloLink (pairHello i)) := fun i => haccepted !i
    exact ⟨⟨trivial, hbrings false⟩, fun _ _ => ⟨⟨trivial, trivial⟩, fun _ _ => ⟨⟨trivial, trivial⟩, fun _ _ =>
      ⟨⟨trivial, hbrings true⟩, fun _ _ => ⟨⟨trivial, trivial⟩, fun _ _ => ⟨⟨trivial, trivial⟩, fun _ _ =>
        ⟨hroom, fun _ _ => trivial⟩⟩⟩⟩⟩⟩⟩
  have hreceived : Reachable pairMesh n₂ := by
    refine Run.reaches_forEach hsent (l := pairReceived p)
      ⟨⟨List.mem_of_head? hp, ?_, ?_⟩, fun _ _ => ⟨⟨trivial, trivial⟩, fun _ _ => trivial⟩⟩ h₂
    · rw [hsender]
      decide
    · intro k hk
      exact (List.getElem_eq_getD 0).symm
  obtain ⟨a, b, x, y, ha, hb, -, -, -, -, hannounced⟩ := spf_edges_announced hagreed hreceived false hn'
    (hgraph ▸ List.mem_singleton.2 rfl : (2, 1024) ∈ Spf.spfGraph n'.own.lsdb 0)
  obtain rfl := Option.some.inj (ha.symm.trans haddr₁)
  obtain rfl := Option.some.inj (hb.symm.trans haddr₂)
  exact ⟨n₂, n', y, hreceived, hn', hgraph ▸ List.mem_singleton.2 rfl, hannounced (by decide)⟩

end Olsrd.LinkState
