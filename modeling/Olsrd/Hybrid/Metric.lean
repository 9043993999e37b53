/-
Where the cost of a link comes from: what the neighbour has said of the link in a HELLO, and for a PLC link the rate
that the own adapter has reported for the MAC that the node with this main address has announced.
-/
import Olsrd.Hybrid.Network

namespace Olsrd.Hybrid

open Bytes (Mem)
open Olsrd.LinkQuality
open Olsrd.Neighbor (LinkStatus linkCostBroken)
open Olsrd.Plc (Mac PlcData PlcTable PlcMessage initPlcPeerNeighbors updatePlcPeerData olsrParsePlcMsg
  deletePlcPeerNeighbor lookupPlcPeerByMac lookupPlcPeerByIp insertPlcPeerNeighbor)

variable {V : Type} {mainAddr : V → IpAddr} {log log' : List (Entry V)} {v w : V}

/-! ## What was said -/

/-- A node with the main address `a` has announced the MAC, and its adapter has answered from there. -/
def MacAnnounced (mainAddr : V → IpAddr) (log : List (Entry V)) (a : IpAddr) (mac : Mac) : Prop :=
  ∃ v, mainAddr v = a ∧ (∃ pData, .reported v mac pData ∈ log) ∧
    ∃ m, .plcMsg v m ∈ log ∧ m.originator = a ∧ m.message.slice 0 6 = mac

/-- The adapter of `w` has reported this rate to the station with the MAC. -/
def RateReported (log : List (Entry V)) (w : V) (mac : Mac) (rate : UInt8) : Prop :=
  ∃ plcMac pData, .reported w plcMac pData ∈ log ∧ ∃ d ∈ pData, d.mac = mac ∧ d.txRate = rate

/-- The rate that `w` has to the node with the main address `a`, by what both adapters have reported. -/
def RateTold (mainAddr : V → IpAddr) (log : List (Entry V)) (w : V) (a : IpAddr) (rate : UInt8) : Prop :=
  ∃ mac, MacAnnounced mainAddr log a mac ∧ RateReported log w mac rate

/-- The neighbour has put its own value for the link into a HELLO. -/
def NlqTold (log : List (Entry V)) (l : HybridLink) (valueNlq : UInt8) : Prop :=
  ∃ v links ns, .hello v l.link.neighborIfaceAddr links ns ∈ log ∧ ∃ k ∈ links,
    k.localIfaceAddr = l.link.neighborIfaceAddr ∧ k.link.neighborIfaceAddr = l.localIfaceAddr ∧
      k.smoothedLq.valueLq = valueNlq

theorem MacAnnounced.mono {a : IpAddr} {mac : Mac} (h : MacAnnounced mainAddr log a mac) (hlog : log ⊆ log') :
    MacAnnounced mainAddr log' a mac := by
  obtain ⟨v, hv, ⟨pData, hp⟩, m, hm, hrest⟩ := h
  exact ⟨v, hv, ⟨pData, hlog hp⟩, m, hlog hm, hrest⟩

theorem RateReported.mono {mac : Mac} {rate : UInt8} (h : RateReported log w mac rate) (hlog : log ⊆ log') :
    RateReported log' w mac rate := by
  obtain ⟨plcMac, pData, hp, hrest⟩ := h
  exact ⟨plcMac, pData, hlog hp, hrest⟩

theorem RateTold.mono {a : IpAddr} {rate : UInt8} (h : RateTold mainAddr log w a rate) (hlog : log ⊆ log') :
    RateTold mainAddr log' w a rate := by
  obtain ⟨mac, hmac, hrate⟩ := h
  exact ⟨mac, hmac.mono hlog, hrate.mono hlog⟩

theorem NlqTold.mono {l : HybridLink} {valueNlq : UInt8} (h : NlqTold log l valueNlq) (hlog : log ⊆ log') :
    NlqTold log' l valueNlq := by
  obtain ⟨v, links, ns, hsent, hrest⟩ := h
  exact ⟨v, links, ns, hlog hsent, hrest⟩

/-! ## The table of peers -/

/-- The peers were announced, and their rates reported. -/
def PeersTrue (mainAddr : V → IpAddr) (log : List (Entry V)) (w : V) (t : PlcTable) : Prop :=
  ∀ p e, t.entry p = some e → MacAnnounced mainAddr log e.plcPeerMainAddr e.plcData.mac ∧
    (e.plcData.txRate = 0 ∨ RateReported log w e.plcData.mac e.plcData.txRate)

theorem PeersTrue.mono {t : PlcTable} (h : PeersTrue mainAddr log w t) (hlog : log ⊆ log') :
    PeersTrue mainAddr log' w t := by
  intro p e he
  obtain ⟨hmac, hrate⟩ := h p e he
  exact ⟨hmac.mono hlog, hrate.imp_right (·.mono hlog)⟩

/-- A peer may be replaced by one that was announced, or go. -/
theorem PeersTrue.setEntry {t t' : PlcTable} (h : PeersTrue mainAddr log w t) {q : Plc.Ptr}
    {o : Option Plc.PlcPeerEntry} (ht : t'.entry = Function.update t.entry q o)
    (ho : ∀ e, o = some e → MacAnnounced mainAddr log e.plcPeerMainAddr e.plcData.mac ∧
      (e.plcData.txRate = 0 ∨ RateReported log w e.plcData.mac e.plcData.txRate)) : PeersTrue mainAddr log w t' := by
  intro p e he
  rw [ht] at he
  by_cases hp : p = q
  · subst hp
    rw [Function.update_self] at he
    exact ho e he
  · rw [Function.update_of_ne hp] at he
    exact h p e he

theorem PeersTrue.parse {t : PlcTable} (h : PeersTrue mainAddr log w t) {m : PlcMessage}
    (hm : MacAnnounced mainAddr log m.originator (m.message.slice 0 6)) :
    PeersTrue mainAddr log w (olsrParsePlcMsg t m) := by
  unfold olsrParsePlcMsg insertPlcPeerNeighbor
  split
  · exact h
  · refine h.setEntry rfl fun e he => ?_
    obtain rfl := Option.some.inj he
    exact ⟨hm, .inl rfl⟩

theorem PeersTrue.delete {t : PlcTable} (h : PeersTrue mainAddr log w t) (a : IpAddr) :
    PeersTrue mainAddr log w (deletePlcPeerNeighbor t a) := by
  unfold deletePlcPeerNeighbor
  split
  · exact h
  · exact h.setEntry rfl nofun

/-- Rates go to a peer with their MAC. -/
theorem PeersTrue.update {t t' : PlcTable} (h : PeersTrue mainAddr log w t) {d : PlcData}
    (hd : RateReported log w d.mac d.txRate) (ht : updatePlcPeerData t d = some t') : PeersTrue mainAddr log w t' := by
  unfold updatePlcPeerData at ht
  split at ht
  · obtain rfl := Option.some.inj ht
    exact h
  · next q hq =>
    obtain ⟨e₀, he₀, ht⟩ := Option.bind_eq_some_iff.1 ht
    obtain rfl := Option.some.inj ht
    have hmac : e₀.plcData.mac = d.mac := by
      have hfound := List.find?_some hq
      rwa [he₀, Option.any_some, beq_iff_eq] at hfound
    refine h.setEntry rfl fun e he => ?_
    obtain rfl := Option.some.inj he
    exact ⟨(h q e₀ he₀).1, .inr (by rw [hmac]; exact hd)⟩

theorem PeersTrue.save {t t' : PlcTable} (h : PeersTrue mainAddr log w t) {pData : List PlcData}
    (hp : ∀ d ∈ pData, RateReported log w d.mac d.txRate) (ht : savePlcData t pData = some t') :
    PeersTrue mainAddr log w t' :=
  Run.forEach_invariant (fun _ d _ hd h₀ hstep => h₀.update (hp d hd) hstep) h ht

/-! ## The links -/

/-- The rate of a quality: nothing yet, none, or what was told. Without a rate the quality is that of no link. -/
def RateTrue (mainAddr : V → IpAddr) (log : List (Entry V)) (w : V) (l : Link) (q : DefaultLqHybridPlc) : Prop :=
  if l.mode = .plc then
    q.valueLq = 0 ∧ q.quality = 0 ∨
      q.bandwidth = 151 ∧ (q.quality = 1 ∨ RateTold mainAddr log w l.neighborIfaceAddr q.quality)
  else q.bandwidth = 0 ∧ q.quality = 0

/-- What is true of a quality of the link. -/
structure LqTrue (mainAddr : V → IpAddr) (log : List (Entry V)) (w : V) (l : HybridLink) (q : DefaultLqHybridPlc) :
    Prop where
  nlq : q.valueNlq = 0 ∨ NlqTold log l q.valueNlq
  rate : RateTrue mainAddr log w l.link q

/-- The qualities are true, and the cost is that of the smoothed one. -/
structure LinkTrue (mainAddr : V → IpAddr) (log : List (Entry V)) (w : V) (l : HybridLink) : Prop where
  raw : LqTrue mainAddr log w l l.hello.lq
  smoothed : LqTrue mainAddr log w l l.smoothedLq
  synced : l.lqLink.Synced

theorem RateTrue.mono {l : Link} {q : DefaultLqHybridPlc} (h : RateTrue mainAddr log w l q) (hlog : log ⊆ log') :
    RateTrue mainAddr log' w l q := by
  unfold RateTrue at h ⊢
  split
  · next hmode =>
    rw [if_pos hmode] at h
    exact h.imp_right fun ⟨hb, hq⟩ => ⟨hb, hq.imp_right (·.mono hlog)⟩
  · next hmode => rwa [if_neg hmode] at h

theorem LqTrue.mono {l : HybridLink} {q : DefaultLqHybridPlc} (h : LqTrue mainAddr log w l q) (hlog : log ⊆ log') :
    LqTrue mainAddr log' w l q :=
  ⟨h.nlq.imp_right (·.mono hlog), h.rate.mono hlog⟩

theorem LinkTrue.mono {l : HybridLink} (h : LinkTrue mainAddr log w l) (hlog : log ⊆ log') :
    LinkTrue mainAddr log' w l :=
  ⟨h.raw.mono hlog, h.smoothed.mono hlog, h.synced⟩

/-- A new link is as good as broken. -/
theorem linkTrue_new (localIfaceAddr : IpAddr) (link : Link) : LinkTrue mainAddr log w
    ⟨localIfaceAddr, link, defaultLqClearHybridPlcHello, ⟨0, 0, 0, 0⟩, linkCostBroken⟩ := by
  have hrate : RateTrue mainAddr log w link ⟨0, 0, 0, 0⟩ := by
    unfold RateTrue
    split
    · exact .inl ⟨rfl, rfl⟩
    · exact ⟨rfl, rfl⟩
  have huseless : DefaultLqHybridPlc.Useless ⟨0, 0, 0, 0⟩ := by decide
  exact ⟨⟨.inl rfl, hrate⟩, ⟨.inl rfl, hrate⟩, (cost_of_useless huseless).symm⟩

/-- The peer that the timer finds has the address of the interface. -/
theorem rateTold_of_lookup {t : PlcTable} (h : PeersTrue mainAddr log w t) {a : IpAddr} {e : Plc.PlcPeerEntry}
    (he : (lookupPlcPeerByIp t a).bind t.entry = some e) :
    e.plcData.txRate = 0 ∨ RateTold mainAddr log w a e.plcData.txRate := by
  obtain ⟨p, hp, hentry⟩ := Option.bind_eq_some_iff.1 he
  obtain ⟨e', he', haddr⟩ := Plc.lookup_some hp
  obtain rfl := Option.some.inj (he'.symm.trans hentry)
  obtain ⟨hmac, hrate⟩ := h p e' he'
  rw [haddr] at hmac
  exact hrate.imp_right fun hrate => ⟨_, hmac, hrate⟩

/-- The timer gives a PLC link a rate, or leaves it the one it had. -/
theorem rateTrue_plcRates {t : PlcTable} (h : PeersTrue mainAddr log w t) {l : Link} {q₀ q : DefaultLqHybridPlc}
    (hq : RateTrue mainAddr log w l q₀) (hbandwidth : q.bandwidth = q₀.bandwidth) (hquality : q.quality = q₀.quality) :
    RateTrue mainAddr log w l (plcRates t l q) := by
  unfold RateTrue at hq ⊢
  unfold plcRates
  by_cases hmode : l.mode = .plc
  · rw [if_pos hmode] at hq ⊢
    rw [if_pos hmode]
    refine .inr ⟨rfl, ?_⟩
    -- the quality is at least one then
    have hraised : ∀ {r : UInt8}, r = 0 ∨ r = 1 ∨ RateTold mainAddr log w l.neighborIfaceAddr r →
        (if r < 1 then 1 else r) = 1 ∨ RateTold mainAddr log w l.neighborIfaceAddr (if r < 1 then 1 else r) := by
      rintro r (rfl | hr)
      · exact .inl rfl
      · split
        · exact .inl rfl
        · exact hr
    cases he : (lookupPlcPeerByIp t l.neighborIfaceAddr).bind t.entry with
    | none =>
      refine hraised ?_
      rw [Option.elim_none, hquality]
      exact hq.imp And.right And.right
    | some e =>
      refine hraised ?_
      rw [Option.elim_some]
      exact (rateTold_of_lookup h he).imp_right .inr
  · rw [if_neg hmode] at hq ⊢
    rw [if_neg hmode, hbandwidth, hquality]
    exact hq

theorem boost_frame (mode : Flood.Output.IfMode) (h : DefaultLqHybridPlcHello) :
    (boost mode h).lq.valueNlq = h.lq.valueNlq ∧ (boost mode h).lq.bandwidth = h.lq.bandwidth ∧
      (boost mode h).lq.quality = h.lq.quality := by
  unfold boost
  split
  · exact ⟨rfl, rfl, rfl⟩
  · split
    · exact ⟨rfl, rfl, rfl⟩
    · exact ⟨rfl, rfl, rfl⟩

theorem plcRates_valueNlq (t : PlcTable) (l : Link) (q : DefaultLqHybridPlc) : (plcRates t l q).valueNlq =
    q.valueNlq := by
  unfold plcRates
  split
  · rfl
  · rfl

theorem LqTrue.timer {t : PlcTable} (hpeers : PeersTrue mainAddr log w t) {l : HybridLink}
    (h : LqTrue mainAddr log w l l.hello.lq) :
    LqTrue mainAddr log w l (defaultLqHybridPlcTimer t l.link l.hello).lq := by
  obtain ⟨hnlq, hbandwidth, hquality⟩ := boost_frame l.link.mode { l.hello with lq := { l.hello.lq with
    valueLq := l.hello.window.enlarge.valueLq l.link.lossLinkMultiplier l.link.helloEtime } }
  refine ⟨?_, rateTrue_plcRates hpeers h.rate hbandwidth hquality⟩
  have hsame : (defaultLqHybridPlcTimer t l.link l.hello).lq.valueNlq = l.hello.lq.valueNlq :=
    (plcRates_valueNlq _ _ _).trans hnlq
  rw [hsame]
  exact h.nlq

/-! ## A node -/

/-- What is true of a node. -/
structure NodeTrue (mainAddr : V → IpAddr) (log : List (Entry V)) (w : V) (nd : Node) : Prop where
  own : nd.ready = true → nd.ownPlcMac.length = 6 ∧ ∃ pData, .reported w nd.ownPlcMac pData ∈ log
  distributing : nd.distributing = true → nd.ready = true
  peers : PeersTrue mainAddr log w nd.peers
  links : ∀ l ∈ nd.links, LinkTrue mainAddr log w l

variable {nd nd' : Node}

theorem NodeTrue.mono (h : NodeTrue mainAddr log w nd) (hlog : log ⊆ log') : NodeTrue mainAddr log' w nd := by
  constructor
  · intro hready
    obtain ⟨hlen, pData, hp⟩ := h.own hready
    exact ⟨hlen, pData, hlog hp⟩
  · exact h.distributing
  · exact h.peers.mono hlog
  · exact fun l hl => (h.links l hl).mono hlog

theorem nodeTrue_start : NodeTrue mainAddr log w startNode := by
  constructor
  · exact fun hready => absurd hready Bool.false_ne_true
  · exact fun hdist => absurd hdist Bool.false_ne_true
  · exact fun p e he => absurd he nofun
  · exact fun l hl => absurd hl List.not_mem_nil

theorem NodeTrue.setLinks (h : NodeTrue mainAddr log w nd) {links : List HybridLink}
    (hlinks : ∀ l ∈ links, LinkTrue mainAddr log w l) : NodeTrue mainAddr log w { nd with links := links } :=
  ⟨h.own, h.distributing, h.peers, hlinks⟩

theorem NodeTrue.setPeers (h : NodeTrue mainAddr log w nd) {peers : PlcTable}
    (hpeers : PeersTrue mainAddr log w peers) : NodeTrue mainAddr log w { nd with peers := peers } :=
  ⟨h.own, h.distributing, hpeers, h.links⟩

theorem mem_modify {α : Type} {f : α → α} {l : List α} {i : Nat} {x : α} (h : x ∈ l.modify i f) :
    x ∈ l ∨ ∃ y, l[i]? = some y ∧ x = f y := by
  obtain ⟨j, hj⟩ := List.mem_iff_getElem?.1 h
  rw [List.getElem?_modify] at hj
  obtain ⟨y, hy, rfl⟩ := Option.map_eq_some_iff.1 hj
  split
  · next heq => exact .inr ⟨y, heq ▸ hy, rfl⟩
  · exact .inl (List.mem_of_getElem? hy)

theorem NodeTrue.onLink (h : NodeTrue mainAddr log w nd) {i : Nat}
    {f : DefaultLqHybridPlcHello → DefaultLqHybridPlcHello}
    (hf : ∀ l, nd.links[i]? = some l → LqTrue mainAddr log w l l.hello.lq → LqTrue mainAddr log w l (f l.hello).lq) :
    NodeTrue mainAddr log w (nd.onLink i f) := by
  refine h.setLinks fun l hl => ?_
  rcases mem_modify hl with hl | ⟨l₀, hl₀, rfl⟩
  · exact h.links l hl
  · obtain ⟨hraw, hsmoothed, hsynced⟩ := h.links l₀ (List.mem_of_getElem? hl₀)
    obtain ⟨hnlq, hrate⟩ := hf l₀ hl₀ hraw
    exact ⟨⟨hnlq, hrate⟩, ⟨hsmoothed.nlq, hsmoothed.rate⟩, hsynced⟩

theorem after_cases (c : LqLink) (triggered : Bool) : c.after triggered = c ∨ c.after triggered = c.follow := by
  unfold LqLink.after
  split
  · exact .inr rfl
  · exact .inl rfl

/-- What the timer leaves of a link. -/
theorem mem_timers {l : HybridLink} (hl : l ∈ (defaultLqHybridPlcTimers nd).links) : ∃ l₀ ∈ nd.links,
    ∃ c : LqLink, (c = ⟨l₀.smoothedLq, (defaultLqHybridPlcTimer nd.peers l₀.link l₀.hello).lq, l₀.linkcost⟩ ∨
        c = LqLink.follow ⟨l₀.smoothedLq, (defaultLqHybridPlcTimer nd.peers l₀.link l₀.hello).lq, l₀.linkcost⟩) ∧
      l = { l₀ with
        hello := defaultLqHybridPlcTimer nd.peers l₀.link l₀.hello
        smoothedLq := c.smoothedLq
        linkcost := c.linkcost } := by
  simp only [defaultLqHybridPlcTimers, handleLqchange_eq, List.map_map, List.zipWith_map, List.zipWith_self,
    List.mem_map] at hl
  obtain ⟨l₀, hl₀, rfl⟩ := hl
  exact ⟨l₀, hl₀, _, after_cases _ _, rfl⟩

theorem NodeTrue.timers (h : NodeTrue mainAddr log w nd) : NodeTrue mainAddr log w (defaultLqHybridPlcTimers nd) := by
  refine h.setLinks fun l hl => ?_
  obtain ⟨l₀, hl₀, c, hc, rfl⟩ := mem_timers hl
  obtain ⟨hraw, hsmoothed, hsynced⟩ := h.links l₀ hl₀
  obtain ⟨hnlq, hrate⟩ := hraw.timer h.peers
  rcases hc with rfl | rfl
  · exact ⟨⟨hnlq, hrate⟩, ⟨hsmoothed.nlq, hsmoothed.rate⟩, hsynced⟩
  · exact ⟨⟨hnlq, hrate⟩, ⟨hnlq, hrate⟩, rfl⟩

theorem NodeTrue.update (h : NodeTrue mainAddr log w nd) {plcMac : Mac} (hlen : plcMac.length = 6)
    {pData : List PlcData} {rawRate : Mac → UInt32 → UInt32} (hnd : updatePlcData nd plcMac pData rawRate = some nd') :
    NodeTrue mainAddr (.reported w plcMac pData :: log) w nd' := by
  obtain ⟨t₁, ht₁, hnd⟩ := Option.bind_eq_some_iff.1 hnd
  obtain ⟨t₂, ht₂, hnd⟩ := Option.bind_eq_some_iff.1 hnd
  obtain rfl := Option.some.inj hnd
  have hmono := h.mono (List.subset_cons_self (.reported w plcMac pData) log)
  have hp₁ : PeersTrue mainAddr (.reported w plcMac pData :: log) w t₁ :=
    hmono.peers.save (fun d hd => ⟨plcMac, pData, List.mem_cons_self, d, hd, rfl, rfl⟩) ht₁
  have hp₂ : PeersTrue mainAddr (.reported w plcMac pData :: log) w t₂ := by
    refine hp₁.save (fun d hd => ?_) ht₂
    obtain ⟨d₀, hd₀, rfl⟩ := List.mem_map.1 hd
    exact ⟨plcMac, pData, List.mem_cons_self, d₀, hd₀, rfl, rfl⟩
  exact ⟨fun _ => ⟨hlen, pData, List.mem_cons_self⟩, fun _ => rfl, hp₂, hmono.links⟩

/-! ## Runs -/

/-- A HELLO says what the smoothed qualities of the links were. -/
def HelloTrue (outif : IpAddr) (links : List HybridLink) (ns : List LqHelloNeighbor) : Prop :=
  ∀ n ∈ ns, n.linkType ≠ .unspec → ∃ k ∈ links, k.localIfaceAddr = outif ∧ k.link.neighborIfaceAddr = n.addr ∧
    defaultLqDeserializeHelloLqPairHybridPlc n.linkquality = k.smoothedLq

theorem helloTrue_createLqHello (lookupLinkStatus : HybridLink → LinkStatus) (links : List HybridLink)
    (outif : IpAddr) : HelloTrue outif links (createLqHello lookupLinkStatus links outif) := by
  intro n hn hlink
  obtain ⟨k, hk, rfl⟩ := List.mem_map.1 hn
  by_cases hlocal : k.localIfaceAddr = outif
  · exact ⟨k, hk, hlocal, rfl, rfl⟩
  · exact absurd (if_neg hlocal) hlink

/-- The invariant of the network. -/
structure Inv (mainAddr : V → IpAddr) (net : Net V) : Prop where
  nodes : ∀ v, NodeTrue mainAddr net.log v (net.node v)
  plcMsgs : ∀ v m, .plcMsg v m ∈ net.log →
    m.originator = mainAddr v ∧ ∃ pData, .reported v (m.message.slice 0 6) pData ∈ net.log
  hellos : ∀ v outif links ns, .hello v outif links ns ∈ net.log → HelloTrue outif links ns

theorem slice_own {mac behind : List UInt8} (h : mac.length = 6) :
    Mem.slice (fun i => (mac ++ behind).getD i 0) 0 6 = mac := by
  refine List.ext_getElem (by simp [h]) fun i hi hi' => ?_
  simp [Mem.slice, List.getElem?_append_left hi', List.getElem?_eq_getElem hi']

/-- What a neighbour says of the link in a HELLO. -/
theorem LqTrue.hear {l : HybridLink} (h : LqTrue mainAddr log w l l.hello.lq) {links : List HybridLink}
    {ns ns' : List LqHelloNeighbor} (hsent : .hello v l.link.neighborIfaceAddr links ns' ∈ log)
    (htrue : HelloTrue l.link.neighborIfaceAddr links ns') (hns : ∀ n ∈ ns, n ∈ ns') :
    LqTrue mainAddr log w l
      (defaultLqMemorizeForeignHelloHybridPlc l.hello (foreignLq l.localIfaceAddr ns)).lq := by
  refine ⟨?_, h.rate⟩
  unfold foreignLq
  cases hfind : ns.find? fun walker => walker.linkType != .unspec && walker.addr == l.localIfaceAddr with
  | none => exact .inl rfl
  | some n =>
    have hfound := List.find?_some hfind
    rw [Bool.and_eq_true, bne_iff_ne, beq_iff_eq] at hfound
    obtain ⟨k, hk, hlocal, hremote, hquality⟩ := htrue n (hns n (List.mem_of_find?_eq_some hfind)) hfound.1
    refine .inr ⟨v, links, ns', hsent, k, hk, hlocal, hremote.trans hfound.2, ?_⟩
    rw [← hquality]
    rfl

variable [DecidableEq V] {net net' : Net V}

/-- A node goes on, and what is new in the log is true. -/
theorem Inv.setNode (h : Inv mainAddr net) {nd : Node} {new : List (Entry V)}
    (hnd : NodeTrue mainAddr (new ++ net.log) v nd)
    (hplc : ∀ u m, .plcMsg u m ∈ new →
      m.originator = mainAddr u ∧ ∃ pData, .reported u (m.message.slice 0 6) pData ∈ net.log)
    (hhello : ∀ u outif links ns, .hello u outif links ns ∈ new → HelloTrue outif links ns) :
    Inv mainAddr (net.setNode v nd new) := by
  have hlog : net.log ⊆ new ++ net.log := List.subset_append_right _ _
  constructor
  · intro u
    by_cases hu : u = v
    · subst hu
      simpa [Net.setNode] using hnd
    · simpa [Net.setNode, hu] using (h.nodes u).mono hlog
  · intro u m hm
    rcases List.mem_append.1 hm with hm | hm
    · obtain ⟨horig, pData, hp⟩ := hplc u m hm
      exact ⟨horig, pData, hlog hp⟩
    · obtain ⟨horig, pData, hp⟩ := h.plcMsgs u m hm
      exact ⟨horig, pData, hlog hp⟩
  · intro u outif links ns hsent
    rcases List.mem_append.1 hsent with hsent | hsent
    · exact hhello u outif links ns hsent
    · exact h.hellos u outif links ns hsent

/-- Nothing new in the log -/
theorem Inv.setNode_nil (h : Inv mainAddr net) {nd : Node} (hnd : NodeTrue mainAddr net.log v nd) :
    Inv mainAddr (net.setNode v nd []) :=
  h.setNode hnd (fun _ _ hm => absurd hm List.not_mem_nil) fun _ _ _ _ hm => absurd hm List.not_mem_nil

theorem Inv.step (h : Inv mainAddr net) {e : NetEvent V} (hen : e.Enabled net)
    (hstep : net.step mainAddr e = some net') : Inv mainAddr net' := by
  cases e with
  | addLink v localIfaceAddr link =>
    obtain rfl := Option.some.inj hstep
    exact h.setNode_nil ((h.nodes v).setLinks (List.forall_mem_cons.2 ⟨linkTrue_new _ _, (h.nodes v).links⟩))
  | deleteLink v i =>
    obtain rfl := Option.some.inj hstep
    exact h.setNode_nil ((h.nodes v).setLinks fun l hl => (h.nodes v).links l (List.mem_of_mem_eraseIdx hl))
  | packet v i seqno =>
    obtain rfl := Option.some.inj hstep
    exact h.setNode_nil ((h.nodes v).onLink fun _ _ hl => hl)
  | packetLoss v i lost =>
    obtain rfl := Option.some.inj hstep
    exact h.setNode_nil ((h.nodes v).onLink fun _ _ hl => hl)
  | hello v outif lookupLinkStatus =>
    obtain rfl := Option.some.inj hstep
    refine h.setNode ((h.nodes v).mono (List.subset_append_right _ _))
      (fun u m hm => ?_) fun u outif' links ns hsent => ?_
    · cases List.mem_singleton.1 hm
    · cases List.mem_singleton.1 hsent
      exact helloTrue_createLqHello _ _ _
  | hear v i ns =>
    obtain ⟨l, hl, w, links, ns', hsent, hns⟩ := hen
    obtain ⟨l', hl', hstep⟩ := Option.bind_eq_some_iff.1 hstep
    obtain rfl := Option.some.inj (hl.symm.trans hl')
    obtain rfl := Option.some.inj hstep
    refine h.setNode_nil ((h.nodes v).onLink fun k hk hraw => ?_)
    obtain rfl := Option.some.inj (hl.symm.trans hk)
    exact hraw.hear hsent (h.hellos _ _ _ _ hsent) hns
  | timer v =>
    obtain rfl := Option.some.inj hstep
    exact h.setNode_nil (h.nodes v).timers
  | update v plcMac pData rawRate =>
    obtain ⟨nd, hnd, rfl⟩ := Option.map_eq_some_iff.1 hstep
    refine h.setNode ((h.nodes v).update hen hnd) (fun u m hm => ?_) fun u outif links ns hsent => ?_
    · cases List.mem_singleton.1 hm
    · cases List.mem_singleton.1 hsent
  | startDistribution v =>
    obtain rfl := Option.some.inj hstep
    refine h.setNode_nil ?_
    unfold startDistributionService
    split
    · next hready => exact ⟨(h.nodes v).own, fun _ => hready, (h.nodes v).peers, (h.nodes v).links⟩
    · exact h.nodes v
  | sendPlcMsg v behind =>
    obtain ⟨m, hm, rfl⟩ := Option.map_eq_some_iff.1 hstep
    refine h.setNode ((h.nodes v).mono (List.subset_append_right _ _))
      (fun u m' hm' => ?_) fun u outif links ns hsent => ?_
    · cases List.mem_singleton.1 hm'
      unfold olsrSendPlcMsg at hm
      split at hm
      · next hdist =>
        obtain rfl := Option.some.inj hm
        obtain ⟨hlen, pData, hp⟩ := (h.nodes v).own ((h.nodes v).distributing hdist)
        refine ⟨rfl, pData, ?_⟩
        rw [slice_own hlen]
        exact hp
      · cases hm
    · cases List.mem_singleton.1 hsent
  | parsePlcMsg v m =>
    obtain rfl := Option.some.inj hstep
    obtain ⟨w, hsent⟩ := hen
    obtain ⟨horig, hreported⟩ := h.plcMsgs w m hsent
    refine h.setNode_nil ((h.nodes v).setPeers ((h.nodes v).peers.parse ?_))
    exact ⟨w, horig.symm, hreported, m, hsent, rfl, rfl⟩
  | deletePeer v a =>
    obtain rfl := Option.some.inj hstep
    exact h.setNode_nil ((h.nodes v).setPeers ((h.nodes v).peers.delete a))

theorem inv_of_reachable (h : Reachable mainAddr net) : Inv mainAddr net := by
  refine Run.Reaches.invariant (P := Inv mainAddr) ?_ (fun _ _ _ hinv hen hstep => hinv.step hen hstep) h
  rintro _ rfl
  exact ⟨fun _ => nodeTrue_start, fun _ _ hm => absurd hm List.not_mem_nil,
    fun _ _ _ _ hm => absurd hm List.not_mem_nil⟩

/-! ## The cost -/

/-- A cost that is not that of a broken link is the one of a rate in megabits: of a PLC link the rate that the node's
own adapter has reported for the MAC that the node with this main address has announced, and else none. The value of the
other direction is what the neighbour has said of the link in a HELLO. -/
theorem hybrid_linkcost (h : Reachable mainAddr net) (w : V) {l : HybridLink} (hl : l ∈ (net.node w).links)
    (hcost : l.linkcost ≠ linkCostBroken) :
    (∃ rate : UInt8, l.linkcost.toNat = etx l.smoothedLq * 102400 / max 5 (151 * rate.toNat / 255) ∧
      (1 < rate → l.link.mode = .plc ∧ RateTold mainAddr net.log w l.link.neighborIfaceAddr rate)) ∧
    NlqTold net.log l l.smoothedLq.valueNlq := by
  obtain ⟨-, ⟨hnlq, hrate⟩, hsynced⟩ := ((inv_of_reachable h).nodes w).links l hl
  have huseful : ¬l.smoothedLq.Useless := fun huseless => hcost (hsynced.trans (cost_of_useless huseless))
  have hvalue : l.linkcost.toNat = etx l.smoothedLq * 102400 / bandwidthAtLeast5 l.smoothedLq :=
    (congrArg UInt32.toNat hsynced).trans (cost_of_useful huseful)
  constructor
  · unfold RateTrue at hrate
    by_cases hmode : l.link.mode = .plc
    · rw [if_pos hmode] at hrate
      rcases hrate with ⟨hzero, -⟩ | ⟨hbandwidth, hquality⟩
      · exact absurd (.inl (by rw [hzero]; decide)) huseful
      · refine ⟨l.smoothedLq.quality, ?_, fun hgt => ⟨hmode, ?_⟩⟩
        · rw [hvalue, bandwidthAtLeast5, hbandwidth]
          rfl
        · rcases hquality with hone | htold
          · exact absurd (hone ▸ hgt) (by decide)
          · exact htold
    · rw [if_neg hmode] at hrate
      refine ⟨0, ?_, fun hgt => absurd hgt (by decide)⟩
      rw [hvalue, bandwidthAtLeast5, hrate.1, hrate.2]
      rfl
  · rcases hnlq with hzero | htold
    · exact absurd (.inr (by rw [hzero]; decide)) huseful
    · exact htold

/-! ## Two adapters -/

def pairAddr (i : Bool) : IpAddr := [10, 0, 0, if i then 2 else 1]

def pairLink (i : Bool) : Link := ⟨pairAddr !i, 65536, .plc, 2000⟩

/-- Ten packets come in on the link of a node, and a second is over. -/
def pairPackets (i : Bool) : List (NetEvent Bool) :=
  [.addLink i (pairAddr i) (pairLink i)] ++ (List.range 10).map
    (fun k => .packet i 0 (UInt16.ofNat (k + 1))) ++ [.timer i]

/-- The second node tells of its adapter and of its link. -/
def pairSent : List (NetEvent Bool) :=
  pairPackets false ++ pairPackets true ++
    [.update true [2, 0, 0, 0, 0, 2] [] fun _ r => r, .startDistribution true, .sendPlcMsg true [1, 0],
      .hello true (pairAddr true) fun _ => .sym]

/-- The first node hears of both, and its adapter reports a rate of 100 megabits. -/
def pairHeard (m : PlcMessage) (ns : List LqHelloNeighbor) : List (NetEvent Bool) :=
  [.hear false 0 ns, .parsePlcMsg false m, .update false [2, 0, 0, 0, 0, 1] [⟨[2, 0, 0, 0, 0, 2], 100, 90, 0⟩]
    fun _ r => r, .timer false]

def plcMsgOf : Entry Bool → Option PlcMessage
  | .plcMsg _ m => some m
  | _ => none

def helloOf : Entry Bool → Option (List LqHelloNeighbor)
  | .hello _ outif _ ns => if outif = pairAddr true then some ns else none
  | _ => none

theorem plcMsgOf_mem {log : List (Entry Bool)} {m : PlcMessage} (h : log.findSome? plcMsgOf = some m) :
    ∃ v, .plcMsg v m ∈ log := by
  obtain ⟨e, he, hm⟩ := List.exists_of_findSome?_eq_some h
  cases e with
  | plcMsg v m' =>
    obtain rfl := Option.some.inj hm
    exact ⟨v, he⟩
  | reported | hello => cases hm

theorem helloOf_mem {log : List (Entry Bool)} {ns : List LqHelloNeighbor} (h : log.findSome? helloOf = some ns) :
    ∃ v links, .hello v (pairAddr true) links ns ∈ log := by
  obtain ⟨e, he, hm⟩ := List.exists_of_findSome?_eq_some h
  cases e with
  | hello v outif links ns' =>
    dsimp only [helloOf] at hm
    split at hm
    · next heq =>
      obtain rfl := Option.some.inj hm
      exact ⟨v, links, heq ▸ he⟩
    · cases hm
  | reported | plcMsg => cases hm

/-- A cost that comes from a rate that was told. -/
theorem hybrid_linkcost_pair : ∃ net : Net Bool, Reachable pairAddr net ∧ ∃ l ∈ (net.node false).links,
    l.linkcost = 10413 ∧ ∃ rate, 1 < rate ∧ RateTold pairAddr net.log false (pairAddr true) rate := by
  have hrun : ((Run.forEach (Net.step pairAddr) pairSent ⟨fun _ => startNode, []⟩).any fun n₁ =>
      (n₁.log.findSome? plcMsgOf).any fun m => (n₁.log.findSome? helloOf).any fun ns =>
        ((n₁.node false).links[0]?.any fun l => l.link.neighborIfaceAddr == pairAddr true) &&
        (Run.forEach (Net.step pairAddr) (pairHeard m ns) n₁).any fun n₂ => (n₂.node false).links.head?.any fun l =>
          l.linkcost == 10413 && l.link.neighborIfaceAddr == pairAddr true &&
            etx l.smoothedLq == 6) = true := by decide +kernel
  obtain ⟨n₁, h₁, hrun⟩ := (Option.any_eq_true _ _).1 hrun
  obtain ⟨m, hm, hrun⟩ := (Option.any_eq_true _ _).1 hrun
  obtain ⟨ns, hns, hrun⟩ := (Option.any_eq_true _ _).1 hrun
  obtain ⟨hlink, hrun⟩ := Bool.and_eq_true_iff.1 hrun
  obtain ⟨l₀, hl₀, hlink⟩ := (Option.any_eq_true _ _).1 hlink
  obtain ⟨n₂, h₂, hrun⟩ := (Option.any_eq_true _ _).1 hrun
  obtain ⟨l, hl, hrun⟩ := (Option.any_eq_true _ _).1 hrun
  simp only [Bool.and_eq_true, beq_iff_eq] at hlink hrun
  obtain ⟨⟨hcost, haddr⟩, hetx⟩ := hrun
  have hsent : Reachable pairAddr n₁ := by
    refine Run.reaches_forEach (.init rfl) (Run.rounds_of_mem _ fun e he _ => ?_) h₁
    simp only [pairSent, pairPackets, List.mem_append, List.mem_map, List.mem_cons, List.not_mem_nil, or_false] at he
    rcases he with (((rfl | ⟨k, -, rfl⟩) | rfl) | ((rfl | ⟨k, -, rfl⟩) | rfl)) | rfl | rfl | rfl | rfl
    all_goals first | exact trivial | rfl
  obtain ⟨v, hm⟩ := plcMsgOf_mem hm
  obtain ⟨v', links, hns⟩ := helloOf_mem hns
  have hheard : Reachable pairAddr n₂ := by
    refine Run.reaches_forEach hsent (l := pairHeard m ns) ⟨⟨l₀, hl₀, v', links, ns, hlink ▸ hns, fun _ hn => hn⟩,
      fun n₃ hn₃ => ⟨⟨v, ?_⟩, fun _ _ => ⟨rfl, fun _ _ => ⟨trivial, fun _ _ => trivial⟩⟩⟩⟩ h₂
    obtain ⟨l', -, hn₃⟩ := Option.bind_eq_some_iff.1 hn₃
    obtain rfl := Option.some.inj hn₃
    exact hm
  have hne : l.linkcost ≠ Neighbor.linkCostBroken := by
    rw [hcost]
    decide
  obtain ⟨⟨rate, hvalue, htold⟩, -⟩ := hybrid_linkcost hheard false (List.mem_of_head? hl) hne
  have hlarge : 1 < rate := by
    by_contra hsmall
    have hrate : 151 * rate.toNat / 255 ≤ 5 := by
      have := UInt8.le_iff_toNat_le.1 (UInt8.not_lt.1 hsmall)
      have hone : (1 : UInt8).toNat = 1 := rfl
      omega
    rw [hcost, hetx, max_eq_left hrate] at hvalue
    exact absurd hvalue (by decide)
  exact ⟨n₂, hheard, l, List.mem_of_head? hl, hcost, rate, hlarge, haddr ▸ (htold hlarge).2⟩

end Olsrd.Hybrid
