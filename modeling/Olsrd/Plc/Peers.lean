/-
The table of PLC peers of `linklayer_plc_data.c`. Peers are announced by their addresses with the MAC of their PLC
adapters, and get rates by MAC. The first announcement of an address is the one that counts, and of the peers with one
MAC the first in the table is the one that gets the rates.
-/
import Olsrd.Lib.Run
import Olsrd.Neighbor.MidSet

namespace Olsrd.Plc

open Bytes
open Olsrd.Neighbor (olsrIpHashing olsrIpHashing_le)

abbrev Ptr := Nat

/-- The six bytes of an address of an adapter. -/
abbrev Mac := List UInt8

/-- `HASHSIZE` -/
def hashsize : Nat := 128

/-- `struct plc_data`; the bits of the `float` are not looked at. -/
structure PlcData where
  mac : Mac
  txRate : UInt8
  rxRate : UInt8
  rawModulationRate : UInt32
  deriving DecidableEq, Repr

/-- `struct plc_peer_entry` without the links of its list -/
structure PlcPeerEntry where
  plcPeerMainAddr : IpAddr
  plcData : PlcData
  deriving DecidableEq, Repr

/-- The lists of the hash table, the entries, the pointer that `olsr_malloc` gives out next and `table_size`. -/
structure PlcTable where
  plcPeerNeighbors : Nat → List Ptr
  entry : Ptr → Option PlcPeerEntry
  fresh : Ptr
  tableSize : Int

/-- `init_plc_peer_neighbors` -/
def initPlcPeerNeighbors : PlcTable := ⟨fun _ => [], fun _ => none, 0, 0⟩

variable {t : PlcTable} {p q : Ptr} {a : IpAddr} {e d : PlcPeerEntry}

namespace PlcTable

/-- The entries in the order of the table: bucket by bucket, and the newest first. -/
def allEntries (t : PlcTable) : List Ptr := (List.range hashsize).flatMap t.plcPeerNeighbors

end PlcTable

/-- `lookup_plc_peer_by_ip` -/
def lookupPlcPeerByIp (t : PlcTable) (dst : IpAddr) : Option Ptr :=
  (t.plcPeerNeighbors (olsrIpHashing dst)).find? fun p => (t.entry p).any fun e => e.plcPeerMainAddr == dst

/-- `lookup_plc_peer_by_mac` -/
def lookupPlcPeerByMac (t : PlcTable) (mac : Mac) : Option Ptr :=
  t.allEntries.find? fun p => (t.entry p).any fun e => e.plcData.mac == mac

/-- `delete_plc_peer_neighbor` -/
def deletePlcPeerNeighbor (t : PlcTable) (peerAddr : IpAddr) : PlcTable :=
  match lookupPlcPeerByIp t peerAddr with
  | none => t
  | some p =>
    { t with
      plcPeerNeighbors := fun bucket => (t.plcPeerNeighbors bucket).filter (· != p)
      entry := Function.update t.entry p none
      tableSize := t.tableSize - 1 }

/-- The table with a new entry, in memory that `olsr_malloc` has cleared. -/
def inserted (t : PlcTable) (mainAddr : IpAddr) (mac : Mac) : PlcTable where
  plcPeerNeighbors := Function.update t.plcPeerNeighbors (olsrIpHashing mainAddr)
    (t.fresh :: t.plcPeerNeighbors (olsrIpHashing mainAddr))
  entry := Function.update t.entry t.fresh (some ⟨mainAddr, ⟨mac, 0, 0, 0⟩⟩)
  fresh := t.fresh + 1
  tableSize := t.tableSize + 1

/-- `insert_plc_peer_neighbor`: an entry that exists is left as it is. -/
def insertPlcPeerNeighbor (t : PlcTable) (mainAddr : IpAddr) (mac : Mac) : PlcTable :=
  match lookupPlcPeerByIp t mainAddr with
  | some _ => t
  | none => inserted t mainAddr mac

/-- `update_plc_peer_data` -/
def updatePlcPeerData (t : PlcTable) (data : PlcData) : Option PlcTable :=
  match lookupPlcPeerByMac t data.mac with
  | none => some t
  | some p => do
    let e ← t.entry p
    pure { t with entry := Function.update t.entry p (some { e with plcData := { data with mac := e.plcData.mac } }) }

/-- What `olsr_parse_plc_msg` uses of a message. -/
structure PlcMessage where
  originator : IpAddr
  message : Mem

/-- `olsr_parse_plc_msg` -/
def olsrParsePlcMsg (t : PlcTable) (m : PlcMessage) : PlcTable :=
  insertPlcPeerNeighbor t m.originator (m.message.slice 0 6)

/-- The loops of `iter_next`, with `j` entries behind them. -/
def iterLoop (numIterated : Nat) : Nat → List Ptr → Option Ptr
  | _, [] => none
  | j, p :: l => if j + 1 > numIterated then some p else iterLoop numIterated (j + 1) l

/-- `iter_next`, with the new `num_iterated` -/
def iterNext (t : PlcTable) (numIterated : Nat) : Option Ptr × Nat :=
  if t.tableSize = 0 then (none, numIterated)
  else
    match iterLoop numIterated 0 t.allEntries with
    | some p => (some p, numIterated + 1)
    | none => (none, numIterated)

/-- The entries that calls of `iter_next` give until one gives `NULL`, with a bound on the calls. -/
def iterate (t : PlcTable) : Nat → Nat → Option (List Ptr)
  | 0, _ => none
  | calls + 1, numIterated =>
    match iterNext t numIterated with
    | (none, _) => some []
    | (some p, n) => (iterate t calls n).map (p :: ·)

/-! ## The table -/

theorem olsrIpHashing_hashsize (a : IpAddr) : olsrIpHashing a < hashsize := Nat.lt_succ_of_le (olsrIpHashing_le a)

/-- Every entry is queued in the bucket of its address, in front of the older ones, and has the address for itself. -/
structure TableWf (t : PlcTable) : Prop where
  queued : ∀ p b, p ∈ t.plcPeerNeighbors b ↔ ∃ e, t.entry p = some e ∧ olsrIpHashing e.plcPeerMainAddr = b
  sorted : ∀ b, (t.plcPeerNeighbors b).Pairwise fun p q => q < p
  unique : ∀ p q e d, t.entry p = some e → t.entry q = some d → e.plcPeerMainAddr = d.plcPeerMainAddr → p = q
  fresh : ∀ p e, t.entry p = some e → p < t.fresh

theorem tableWf_init : TableWf initPlcPeerNeighbors := by
  constructor
  · intro p b
    refine iff_of_false List.not_mem_nil ?_
    rintro ⟨e, he, -⟩
    cases he
  · exact fun _ => List.Pairwise.nil
  · intro p q e d he
    cases he
  · intro p e he
    cases he

theorem lookup_some (h : lookupPlcPeerByIp t a = some p) : ∃ e, t.entry p = some e ∧ e.plcPeerMainAddr = a := by
  have htest := List.find?_some h
  obtain ⟨e, he, haddr⟩ := (Option.any_eq_true _ _).1 htest
  exact ⟨e, he, by simpa using haddr⟩

theorem TableWf.lookup (h : TableWf t) :
    lookupPlcPeerByIp t a = some p ↔ ∃ e, t.entry p = some e ∧ e.plcPeerMainAddr = a := by
  refine ⟨lookup_some, ?_⟩
  rintro ⟨e, he, rfl⟩
  have hmem : p ∈ t.plcPeerNeighbors (olsrIpHashing e.plcPeerMainAddr) := (h.queued _ _).2 ⟨e, he, rfl⟩
  cases hlook : lookupPlcPeerByIp t e.plcPeerMainAddr with
  | none =>
    have := List.find?_eq_none.1 hlook p hmem
    simp [he] at this
  | some q =>
    obtain ⟨d, hd, haddr⟩ := lookup_some hlook
    rw [h.unique p q e d he hd haddr.symm]

theorem TableWf.lookup_none (h : TableWf t) :
    lookupPlcPeerByIp t a = none ↔ ∀ p e, t.entry p = some e → e.plcPeerMainAddr ≠ a := by
  rw [← not_iff_not, ← Ne.eq_def, Option.ne_none_iff_exists']
  simp only [h.lookup, not_forall, not_not, exists_prop]

theorem TableWf.mem_allEntries (h : TableWf t) : p ∈ t.allEntries ↔ ∃ e, t.entry p = some e := by
  unfold PlcTable.allEntries
  simp only [List.mem_flatMap, List.mem_range, h.queued]
  constructor
  · rintro ⟨-, -, e, he, -⟩
    exact ⟨e, he⟩
  · rintro ⟨e, he⟩
    exact ⟨_, olsrIpHashing_hashsize _, e, he, rfl⟩

/-- `e` at `p` is before `d` at `q` in the table. -/
def Before (p : Ptr) (e : PlcPeerEntry) (q : Ptr) (d : PlcPeerEntry) : Prop :=
  olsrIpHashing e.plcPeerMainAddr < olsrIpHashing d.plcPeerMainAddr ∨
    olsrIpHashing e.plcPeerMainAddr = olsrIpHashing d.plcPeerMainAddr ∧ q < p

theorem Before.asymm (h : Before p e q d) : ¬Before q d p e := by
  rintro (hlt' | ⟨heq', hlt'⟩)
  · rcases h with hlt | ⟨heq, -⟩
    · exact lt_asymm hlt hlt'
    · exact absurd heq hlt'.ne'
  · rcases h with hlt | ⟨-, hlt⟩
    · exact absurd heq' hlt.ne'
    · exact lt_asymm hlt hlt'

theorem TableWf.pairwise_allEntries (h : TableWf t) : t.allEntries.Pairwise fun p q =>
    ∃ e d, t.entry p = some e ∧ t.entry q = some d ∧ Before p e q d := by
  unfold PlcTable.allEntries
  rw [List.pairwise_flatMap]
  constructor
  · intro b _
    refine (h.sorted b).imp_of_mem fun hp hq hlt => ?_
    obtain ⟨e, he, hbe⟩ := (h.queued _ _).1 hp
    obtain ⟨d, hd, hbd⟩ := (h.queued _ _).1 hq
    exact ⟨e, d, he, hd, .inr ⟨hbe.trans hbd.symm, hlt⟩⟩
  · refine List.pairwise_lt_range.imp fun hlt p hp q hq => ?_
    obtain ⟨e, he, hbe⟩ := (h.queued _ _).1 hp
    obtain ⟨d, hd, hbd⟩ := (h.queued _ _).1 hq
    exact ⟨e, d, he, hd, .inl (by rw [hbe, hbd]; exact hlt)⟩

theorem TableWf.nodup_allEntries (h : TableWf t) : t.allEntries.Nodup := by
  refine h.pairwise_allEntries.imp ?_
  rintro p q ⟨e, d, he, hd, hbefore⟩ rfl
  obtain rfl := Option.some.inj (he.symm.trans hd)
  exact hbefore.asymm hbefore

/-- The first entry with a MAC is the one that is before all others with it. -/
theorem TableWf.lookup_mac (h : TableWf t) {mac : Mac} : lookupPlcPeerByMac t mac = some p ↔
    ∃ e, t.entry p = some e ∧ e.plcData.mac = mac ∧
      ∀ q d, t.entry q = some d → d.plcData.mac = mac → q ≠ p → Before p e q d := by
  have hfirst : ∀ {p}, lookupPlcPeerByMac t mac = some p → ∃ e, t.entry p = some e ∧ e.plcData.mac = mac ∧
      ∀ q d, t.entry q = some d → d.plcData.mac = mac → q ≠ p → Before p e q d := by
    intro p hp
    obtain ⟨htest, front, back, hsplit, hfront⟩ := List.find?_eq_some_iff_append.1 hp
    obtain ⟨e, he, hmac⟩ := (Option.any_eq_true _ _).1 htest
    refine ⟨e, he, by simpa using hmac, fun q d hd hdmac hne => ?_⟩
    have hq : q ∈ front ++ p :: back := hsplit ▸ h.mem_allEntries.2 ⟨d, hd⟩
    rcases List.mem_append.1 hq with hq | hq
    · have := hfront q hq
      simp [hd, hdmac] at this
    · have hback : q ∈ back := (List.mem_cons.1 hq).resolve_left hne
      have hpair := h.pairwise_allEntries
      rw [hsplit, List.pairwise_append, List.pairwise_cons] at hpair
      obtain ⟨e', d', he', hd', hbefore⟩ := hpair.2.1.1 q hback
      obtain rfl := Option.some.inj (he.symm.trans he')
      obtain rfl := Option.some.inj (hd.symm.trans hd')
      exact hbefore
  refine ⟨hfirst, ?_⟩
  rintro ⟨e, he, hmac, hbefore⟩
  cases hlook : lookupPlcPeerByMac t mac with
  | none =>
    have := List.find?_eq_none.1 hlook p (h.mem_allEntries.2 ⟨e, he⟩)
    simp [he, hmac] at this
  | some q =>
    by_contra hne
    obtain ⟨d, hd, hdmac, hbefore'⟩ := hfirst hlook
    have hqp : q ≠ p := fun heq => hne (by rw [heq])
    exact (hbefore q d hd hdmac hqp).asymm (hbefore' p e he hmac hqp.symm)

/-! ## What has happened -/

inductive PlcEvent where
  | message (m : PlcMessage)
  | rates (data : PlcData)
  | delete (peerAddr : IpAddr)

def step (t : PlcTable) : PlcEvent → Option PlcTable
  | .message m => some (olsrParsePlcMsg t m)
  | .rates data => updatePlcPeerData t data
  | .delete peerAddr => some (deletePlcPeerNeighbor t peerAddr)

/-- The number of the event that announced an address, and the data of the peer. -/
structure Peer where
  time : Nat
  data : PlcData

/-- What the events say about the addresses. -/
structure Known where
  count : Nat
  peer : IpAddr → Option Peer

/-- No other peer with the MAC is in a lower bucket, or was announced later and is in the same bucket. -/
def Known.First (k : Known) (a : IpAddr) (x : Peer) : Prop :=
  ∀ b y, k.peer b = some y → y.data.mac = x.data.mac → b ≠ a →
    olsrIpHashing a < olsrIpHashing b ∨ olsrIpHashing a = olsrIpHashing b ∧ y.time < x.time

open Classical in
/-- An address is known from the first message that announces it, until it is deleted; rates are those of the first peer
with the MAC. -/
noncomputable def Known.next (k : Known) : PlcEvent → Known
  | .message m =>
    ⟨k.count + 1, fun a => if a = m.originator then (k.peer a).or (some ⟨k.count, ⟨m.message.slice 0 6, 0, 0, 0⟩⟩)
      else k.peer a⟩
  | .rates data =>
    ⟨k.count + 1, fun a => (k.peer a).map fun x =>
      if x.data.mac = data.mac ∧ k.First a x then { x with data := { data with mac := x.data.mac } } else x⟩
  | .delete peerAddr => ⟨k.count + 1, fun a => if a = peerAddr then none else k.peer a⟩

noncomputable def known (events : List PlcEvent) : Known := events.foldl Known.next ⟨0, fun _ => none⟩

/-- The table holds what is known, and the newer peers behind the greater pointers. -/
structure Recorded (k : Known) (t : PlcTable) : Prop where
  wf : TableWf t
  size : t.tableSize = t.allEntries.length
  entry : ∀ p e, t.entry p = some e → ∃ x, k.peer e.plcPeerMainAddr = some x ∧ x.data = e.plcData
  peer : ∀ a x, k.peer a = some x → ∃ p, t.entry p = some ⟨a, x.data⟩
  order : ∀ p q e d x y, t.entry p = some e → t.entry q = some d → k.peer e.plcPeerMainAddr = some x →
    k.peer d.plcPeerMainAddr = some y → (p < q ↔ x.time < y.time)
  count : ∀ a x, k.peer a = some x → x.time < k.count

variable {k : Known}

theorem recorded_init : Recorded ⟨0, fun _ => none⟩ initPlcPeerNeighbors := by
  refine ⟨tableWf_init, ?_, ?_, ?_, ?_, ?_⟩
  · simp [initPlcPeerNeighbors, PlcTable.allEntries]
  · intro p e he
    cases he
  · intro a x hx
    cases hx
  · intro p q e d x y he
    cases he
  · intro a x hx
    cases hx

/-- Which peer gets the rates. -/
theorem Recorded.first_iff (h : Recorded k t) {mac : Mac} {x : Peer} (he : t.entry p = some e)
    (hx : k.peer e.plcPeerMainAddr = some x) :
    x.data.mac = mac ∧ k.First e.plcPeerMainAddr x ↔ lookupPlcPeerByMac t mac = some p := by
  have hdata : x.data = e.plcData := by
    obtain ⟨x', hx', hdata⟩ := h.entry p e he
    rwa [Option.some.inj (hx.symm.trans hx')]
  rw [h.wf.lookup_mac]
  constructor
  · rintro ⟨hmac, hfirst⟩
    refine ⟨e, he, hdata ▸ hmac, fun q d hd hdmac hne => ?_⟩
    obtain ⟨y, hy, hydata⟩ := h.entry q d hd
    have haddr : d.plcPeerMainAddr ≠ e.plcPeerMainAddr := fun heq => hne (h.wf.unique q p d e hd he heq)
    refine (hfirst _ y hy (by rw [hydata, hdmac, hmac]) haddr).imp_right fun htime => ⟨htime.1, ?_⟩
    exact (h.order q p d e y x hd he hy hx).2 htime.2
  · rintro ⟨e', he', hmac, hbefore⟩
    obtain rfl := Option.some.inj (he.symm.trans he')
    refine ⟨hdata ▸ hmac, fun b y hy hymac hne => ?_⟩
    obtain ⟨q, hq⟩ := h.peer b y hy
    have hqp : q ≠ p := by
      rintro rfl
      rw [Option.some.inj (he.symm.trans hq)] at hne
      exact hne rfl
    refine (hbefore q _ hq (by rw [hymac, hdata, hmac]) hqp).imp_right fun hlt => ⟨hlt.1, ?_⟩
    exact (h.order q p _ e y x hq he hy hx).1 hlt.2

/-- The lookup finds the known addresses. -/
theorem Recorded.lookup_none_iff (h : Recorded k t) : lookupPlcPeerByIp t a = none ↔ k.peer a = none := by
  rw [h.wf.lookup_none]
  constructor
  · intro hnone
    cases hx : k.peer a with
    | none => rfl
    | some x =>
      obtain ⟨p, hp⟩ := h.peer a x hx
      exact absurd rfl (hnone p _ hp)
  · rintro hnone p e he rfl
    obtain ⟨x, hx, -⟩ := h.entry p e he
    rw [hx] at hnone
    cases hnone

/-- Two tables of which one has one entry more. -/
theorem length_allEntries {t' : PlcTable} (h : TableWf t) (h' : TableWf t') (hp : t.entry p = none)
    (hmem : ∀ q, (∃ e, t'.entry q = some e) ↔ q = p ∨ ∃ e, t.entry q = some e) :
    t'.allEntries.length = t.allEntries.length + 1 := by
  have hnot : p ∉ t.allEntries := by
    rw [h.mem_allEntries, hp]
    rintro ⟨e, he⟩
    cases he
  have hperm : t'.allEntries.Perm (p :: t.allEntries) := by
    refine (List.perm_ext_iff_of_nodup h'.nodup_allEntries (List.nodup_cons.2 ⟨hnot, h.nodup_allEntries⟩)).2 fun q => ?_
    rw [h'.mem_allEntries, hmem, List.mem_cons, h.mem_allEntries]
  rw [hperm.length_eq, List.length_cons]

/-! ## One event -/

theorem inserted_entry {mac : Mac} : (inserted t a mac).entry p = some e ↔
    p = t.fresh ∧ e = ⟨a, ⟨mac, 0, 0, 0⟩⟩ ∨ p ≠ t.fresh ∧ t.entry p = some e := by
  unfold inserted
  by_cases hp : p = t.fresh
  · subst hp
    simp [eq_comm]
  · simp [hp]

theorem TableWf.entry_fresh (h : TableWf t) : t.entry t.fresh = none := by
  cases he : t.entry t.fresh with
  | none => rfl
  | some e => exact absurd (h.fresh _ e he) (lt_irrefl _)

theorem TableWf.inserted (h : TableWf t) (hnone : lookupPlcPeerByIp t a = none) (mac : Mac) :
    TableWf (inserted t a mac) := by
  have hout := h.lookup_none.1 hnone
  constructor
  · intro p b
    by_cases hp : p = t.fresh
    · subst hp
      have hself : ∀ c, t.fresh ∉ t.plcPeerNeighbors c := fun c hmem => by
        obtain ⟨e, he, -⟩ := (h.queued _ _).1 hmem
        exact lt_irrefl _ (h.fresh _ e he)
      simp only [inserted_entry, true_and, ne_eq, not_true_eq_false, false_and, or_false, exists_eq_left]
      by_cases hb : b = olsrIpHashing a
      · subst hb
        simp [Plc.inserted]
      · simp [Plc.inserted, Function.update_of_ne hb, hself, Ne.symm hb]
    · simp only [inserted_entry, hp, false_and, ne_eq, not_false_eq_true, true_and, false_or]
      rw [← h.queued]
      by_cases hb : b = olsrIpHashing a
      · subst hb
        simp [Plc.inserted, hp]
      · simp [Plc.inserted, Function.update_of_ne hb]
  · intro b
    by_cases hb : b = olsrIpHashing a
    · subst hb
      simp only [Plc.inserted, Function.update_self, List.pairwise_cons]
      refine ⟨fun q hq => ?_, h.sorted _⟩
      obtain ⟨d, hd, -⟩ := (h.queued _ _).1 hq
      exact h.fresh q d hd
    · simp only [Plc.inserted, Function.update_of_ne hb]
      exact h.sorted b
  · intro p q e d he hd haddr
    rcases inserted_entry.1 he with ⟨rfl, rfl⟩ | ⟨hp, he⟩ <;> rcases inserted_entry.1 hd with ⟨rfl, rfl⟩ | ⟨hq, hd⟩
    · rfl
    · exact absurd haddr.symm (hout q d hd)
    · exact absurd haddr (hout p e he)
    · exact h.unique p q e d he hd haddr
  · intro p e he
    rcases inserted_entry.1 he with ⟨rfl, -⟩ | ⟨-, he⟩
    · exact Nat.lt_succ_self _
    · exact Nat.lt_succ_of_lt (h.fresh p e he)

/-- Nothing has changed but the number of events. -/
theorem Recorded.same (h : Recorded k t) {k' : Known} (hpeer : k'.peer = k.peer) (hcount : k.count ≤ k'.count) :
    Recorded k' t := by
  refine ⟨h.wf, h.size, ?_, ?_, ?_, ?_⟩ <;> rw [hpeer]
  · exact h.entry
  · exact h.peer
  · exact h.order
  · exact fun a x hx => lt_of_lt_of_le (h.count a x hx) hcount

theorem Recorded.message (h : Recorded k t) (m : PlcMessage) : Recorded (k.next (.message m))
    (olsrParsePlcMsg t m) := by
  cases hlook : lookupPlcPeerByIp t m.originator with
  | some p =>
    have ht : olsrParsePlcMsg t m = t := by
      rw [olsrParsePlcMsg, insertPlcPeerNeighbor, hlook]
    rw [ht]
    refine h.same ?_ (Nat.le_succ _)
    funext a
    change (if a = m.originator then _ else _) = _
    split
    · next ha =>
      have hsome : k.peer a ≠ none := by
        rw [ha, Ne.eq_def, ← h.lookup_none_iff, hlook]
        simp
      obtain ⟨x, hx⟩ := Option.ne_none_iff_exists'.1 hsome
      rw [hx]
      rfl
    · rfl
  | none =>
    have hnone := h.lookup_none_iff.1 hlook
    have ht : olsrParsePlcMsg t m = inserted t m.originator (m.message.slice 0 6) := by
      rw [olsrParsePlcMsg, insertPlcPeerNeighbor, hlook]
    have hwf := h.wf.inserted hlook (m.message.slice 0 6)
    have hnew : (k.next (.message m)).peer m.originator = some ⟨k.count, ⟨m.message.slice 0 6, 0, 0, 0⟩⟩ := by
      change (if m.originator = m.originator then _ else _) = _
      rw [if_pos rfl, hnone]
      rfl
    have hold : ∀ a, a ≠ m.originator → (k.next (.message m)).peer a = k.peer a := fun a ha => if_neg ha
    have hout := h.wf.lookup_none.1 hlook
    rw [ht]
    refine ⟨hwf, ?_, ?_, ?_, ?_, ?_⟩
    · have hlen : (inserted t m.originator (m.message.slice 0 6)).allEntries.length = t.allEntries.length + 1 := by
        refine length_allEntries h.wf hwf h.wf.entry_fresh fun q => ?_
        by_cases hq : q = t.fresh
        · simp [inserted_entry, hq]
        · simp [inserted_entry, hq]
      rw [hlen, inserted, h.size]
      push_cast
      rfl
    · intro p e he
      rcases inserted_entry.1 he with ⟨-, rfl⟩ | ⟨-, he⟩
      · exact ⟨_, hnew, rfl⟩
      · rw [hold _ (hout p e he)]
        exact h.entry p e he
    · intro a x hx
      by_cases ha : a = m.originator
      · subst ha
        obtain rfl := Option.some.inj (hnew.symm.trans hx)
        exact ⟨t.fresh, inserted_entry.2 (.inl ⟨rfl, rfl⟩)⟩
      · rw [hold a ha] at hx
        obtain ⟨p, hp⟩ := h.peer a x hx
        refine ⟨p, inserted_entry.2 (.inr ⟨?_, hp⟩)⟩
        rintro rfl
        exact lt_irrefl _ (h.wf.fresh _ _ hp)
    · intro p q e d x y he hd hx hy
      rcases inserted_entry.1 he with ⟨rfl, rfl⟩ | ⟨hp, he⟩ <;> rcases inserted_entry.1 hd with ⟨rfl, rfl⟩ | ⟨hq, hd⟩
      · obtain rfl := Option.some.inj (hx.symm.trans hy)
        exact iff_of_false (lt_irrefl _) (lt_irrefl _)
      · rw [hold _ (hout q d hd)] at hy
        obtain rfl := Option.some.inj (hnew.symm.trans hx)
        exact iff_of_false (h.wf.fresh q d hd).asymm (h.count _ y hy).asymm
      · rw [hold _ (hout p e he)] at hx
        obtain rfl := Option.some.inj (hnew.symm.trans hy)
        exact iff_of_true (h.wf.fresh p e he) (h.count _ x hx)
      · rw [hold _ (hout p e he)] at hx
        rw [hold _ (hout q d hd)] at hy
        exact h.order p q e d x y he hd hx hy
    · intro a x hx
      by_cases ha : a = m.originator
      · subst ha
        obtain rfl := Option.some.inj (hnew.symm.trans hx)
        exact Nat.lt_succ_self _
      · rw [hold a ha] at hx
        exact Nat.lt_succ_of_lt (h.count a x hx)

/-- The table without an entry. -/
theorem Recorded.delete (h : Recorded k t) (peerAddr : IpAddr) :
    Recorded (k.next (.delete peerAddr)) (deletePlcPeerNeighbor t peerAddr) := by
  cases hlook : lookupPlcPeerByIp t peerAddr with
  | none =>
    have ht : deletePlcPeerNeighbor t peerAddr = t := by rw [deletePlcPeerNeighbor, hlook]
    rw [ht]
    refine h.same ?_ (Nat.le_succ _)
    funext a
    change (if a = peerAddr then _ else _) = _
    split
    · next ha => rw [ha, h.lookup_none_iff.1 hlook]
    · rfl
  | some p₀ =>
    obtain ⟨e₀, he₀, rfl⟩ := lookup_some hlook
    have ht : deletePlcPeerNeighbor t e₀.plcPeerMainAddr = ⟨fun bucket => (t.plcPeerNeighbors bucket).filter (· != p₀),
        Function.update t.entry p₀ none, t.fresh, t.tableSize - 1⟩ := by
      rw [deletePlcPeerNeighbor, hlook]
    have hentry : ∀ p e, Function.update t.entry p₀ none p = some e ↔ p ≠ p₀ ∧ t.entry p = some e := by
      intro p e
      by_cases hp : p = p₀
      · simp [hp]
      · simp [hp]
    have haddr : ∀ p e, p ≠ p₀ → t.entry p = some e → e.plcPeerMainAddr ≠ e₀.plcPeerMainAddr := by
      intro p e hp he heq
      exact hp (h.wf.unique p p₀ e e₀ he he₀ heq)
    have hold : ∀ a, a ≠ e₀.plcPeerMainAddr → (k.next (.delete e₀.plcPeerMainAddr)).peer a = k.peer a :=
      fun a ha => if_neg ha
    have hgone : (k.next (.delete e₀.plcPeerMainAddr)).peer e₀.plcPeerMainAddr = none := if_pos rfl
    rw [ht]
    have hwf : TableWf ⟨fun bucket => (t.plcPeerNeighbors bucket).filter (· != p₀),
        Function.update t.entry p₀ none, t.fresh, t.tableSize - 1⟩ := by
      constructor
      · intro p b
        simp only [List.mem_filter, h.wf.queued, bne_iff_ne, hentry]
        constructor
        · rintro ⟨⟨e, he, hb⟩, hp⟩
          exact ⟨e, ⟨hp, he⟩, hb⟩
        · rintro ⟨e, ⟨hp, he⟩, hb⟩
          exact ⟨⟨e, he, hb⟩, hp⟩
      · exact fun b => (h.wf.sorted b).filter _
      · intro p q e d he hd
        exact h.wf.unique p q e d ((hentry p e).1 he).2 ((hentry q d).1 hd).2
      · intro p e he
        exact h.wf.fresh p e ((hentry p e).1 he).2
    refine ⟨hwf, ?_, ?_, ?_, ?_, ?_⟩
    · have hlen := length_allEntries hwf h.wf (Function.update_self ..) fun q => by
        simp only [hentry]
        by_cases hq : q = p₀
        · simp [hq, he₀]
        · simp [hq]
      have hsize := h.size
      rw [hlen] at hsize
      push_cast at hsize
      exact sub_eq_iff_eq_add.2 hsize
    · intro p e he
      obtain ⟨hp, he⟩ := (hentry p e).1 he
      rw [hold _ (haddr p e hp he)]
      exact h.entry p e he
    · intro a x hx
      have ha : a ≠ e₀.plcPeerMainAddr := by
        rintro rfl
        rw [hgone] at hx
        cases hx
      rw [hold a ha] at hx
      obtain ⟨p, hp⟩ := h.peer a x hx
      refine ⟨p, (hentry _ _).2 ⟨?_, hp⟩⟩
      rintro rfl
      exact ha (congrArg PlcPeerEntry.plcPeerMainAddr (Option.some.inj (hp.symm.trans he₀)))
    · intro p q e d x y he hd hx hy
      obtain ⟨hp, he⟩ := (hentry p e).1 he
      obtain ⟨hq, hd⟩ := (hentry q d).1 hd
      rw [hold _ (haddr p e hp he)] at hx
      rw [hold _ (haddr q d hq hd)] at hy
      exact h.order p q e d x y he hd hx hy
    · intro a x hx
      have ha : a ≠ e₀.plcPeerMainAddr := by
        rintro rfl
        rw [hgone] at hx
        cases hx
      rw [hold a ha] at hx
      exact Nat.lt_succ_of_lt (h.count a x hx)

/-- One entry has other data, with the MAC it had. -/
theorem TableWf.setData (h : TableWf t) (he : t.entry p = some e) (data : PlcData) :
    TableWf { t with entry := Function.update t.entry p (some { e with plcData := data }) } := by
  have hsame : ∀ q d', Function.update t.entry p (some { e with plcData := data }) q = some d' →
      ∃ d, t.entry q = some d ∧ d.plcPeerMainAddr = d'.plcPeerMainAddr := by
    intro q d' hq
    by_cases hqp : q = p
    · subst hqp
      rw [Function.update_self] at hq
      cases hq
      exact ⟨e, he, rfl⟩
    · rw [Function.update_of_ne hqp] at hq
      exact ⟨d', hq, rfl⟩
  constructor
  · intro q b
    change q ∈ t.plcPeerNeighbors b ↔ _
    rw [h.queued]
    by_cases hq : q = p
    · subst hq
      simp [he]
    · simp [hq]
  · exact h.sorted
  · intro q r d f hd hf haddr
    obtain ⟨d₀, hd₀, hd⟩ := hsame q d hd
    obtain ⟨f₀, hf₀, hf⟩ := hsame r f hf
    exact h.unique q r d₀ f₀ hd₀ hf₀ (by rw [hd, hf, haddr])
  · intro q d hd
    obtain ⟨d₀, hd₀, -⟩ := hsame q d hd
    exact h.fresh q d₀ hd₀

/-- The peer of an entry after rates that go to the first entry with their MAC. -/
theorem Recorded.peer_rates (h : Recorded k t) (data : PlcData) {x : Peer} (he : t.entry p = some e)
    (hx : k.peer e.plcPeerMainAddr = some x) :
    (k.next (.rates data)).peer e.plcPeerMainAddr = some
      (if lookupPlcPeerByMac t data.mac = some p then { x with data := { data with mac := x.data.mac } } else x) := by
  change (k.peer e.plcPeerMainAddr).map _ = _
  rw [hx, Option.map_some]
  congr 1
  split
  · next hfirst => rw [if_pos ((h.first_iff he hx).1 hfirst)]
  · next hfirst => rw [if_neg fun hlook => hfirst ((h.first_iff he hx).2 hlook)]

/-- Rates leave the addresses and the times. -/
theorem Known.rates_time {data : PlcData} {x' : Peer} (hx : (k.next (.rates data)).peer a = some x') :
    ∃ x, k.peer a = some x ∧ x'.time = x.time := by
  change (k.peer a).map _ = _ at hx
  obtain ⟨x, hpeer, rfl⟩ := Option.map_eq_some_iff.1 hx
  refine ⟨x, hpeer, ?_⟩
  split <;> rfl

theorem Recorded.rates (h : Recorded k t) (data : PlcData) :
    ∃ t', updatePlcPeerData t data = some t' ∧ Recorded (k.next (.rates data)) t' := by
  cases hlook : lookupPlcPeerByMac t data.mac with
  | none =>
    refine ⟨t, by rw [updatePlcPeerData, hlook], h.same ?_ (Nat.le_succ _)⟩
    funext a
    cases hx : k.peer a with
    | none => exact congrArg (Option.map _) hx
    | some x =>
      obtain ⟨p, hp⟩ := h.peer a x hx
      rw [h.peer_rates data hp hx, hlook, if_neg (by simp)]
  | some p₀ =>
    obtain ⟨e₀, he₀, hmac, -⟩ := h.wf.lookup_mac.1 hlook
    have hold : ∀ q d', Function.update t.entry p₀
        (some { e₀ with plcData := { data with mac := e₀.plcData.mac } }) q = some d' →
        ∃ d, t.entry q = some d ∧ d.plcPeerMainAddr = d'.plcPeerMainAddr ∧
          d'.plcData = if lookupPlcPeerByMac t data.mac = some q then { data with mac := d.plcData.mac }
            else d.plcData := by
      intro q d' hq
      by_cases hqp : q = p₀
      · subst hqp
        rw [Function.update_self] at hq
        cases hq
        exact ⟨e₀, he₀, rfl, by rw [if_pos hlook]⟩
      · rw [Function.update_of_ne hqp] at hq
        refine ⟨d', hq, rfl, ?_⟩
        rw [hlook, if_neg fun heq => hqp (Option.some.inj heq).symm]
    refine ⟨_, by rw [updatePlcPeerData, hlook]; dsimp only; rw [he₀]; rfl, h.wf.setData he₀ _, h.size, ?_, ?_, ?_, ?_⟩
    · intro q d' hq
      obtain ⟨d, hd, haddr, hdata⟩ := hold q d' hq
      obtain ⟨x, hx, hxd⟩ := h.entry q d hd
      rw [← haddr, h.peer_rates data hd hx]
      refine ⟨_, rfl, ?_⟩
      rw [hdata]
      split
      · rw [hxd]
      · exact hxd
    · intro a x' hx'
      obtain ⟨x, hx, -⟩ := Known.rates_time hx'
      obtain ⟨q, hq⟩ := h.peer a x hx
      have hnew := h.peer_rates data hq hx
      rw [hx'] at hnew
      obtain rfl := Option.some.inj hnew
      refine ⟨q, ?_⟩
      dsimp only
      by_cases hqp : q = p₀
      · subst hqp
        obtain rfl := Option.some.inj (hq.symm.trans he₀)
        rw [if_pos hlook, Function.update_self]
      · rw [hlook, if_neg fun heq => hqp (Option.some.inj heq).symm, Function.update_of_ne hqp, hq]
    · intro q r d' f' x' y' hq hr hx' hy'
      obtain ⟨d, hd, hdaddr, -⟩ := hold q d' hq
      obtain ⟨f, hf, hfaddr, -⟩ := hold r f' hr
      obtain ⟨x, hx, hxtime⟩ := Known.rates_time hx'
      obtain ⟨y, hy, hytime⟩ := Known.rates_time hy'
      rw [hxtime, hytime]
      exact h.order q r d f x y hd hf (hdaddr ▸ hx) (hfaddr ▸ hy)
    · intro a x' hx'
      obtain ⟨x, hx, htime⟩ := Known.rates_time hx'
      rw [htime]
      exact Nat.lt_succ_of_lt (h.count a x hx)

/-! ## Every run -/

/-- A message announced the address, and it has not been deleted since. -/
def Announced (events : List PlcEvent) (a : IpAddr) : Prop :=
  ∃ before m after, events = before ++ .message m :: after ∧ m.originator = a ∧ .delete a ∉ after

variable {events : List PlcEvent} {ev : PlcEvent}

theorem known_concat (events : List PlcEvent) (ev : PlcEvent) : known (events ++ [ev]) = (known events).next ev := by
  rw [known, List.foldl_append]
  rfl

theorem Announced.concat (h : Announced events a) (hev : ev ≠ .delete a) : Announced (events ++ [ev]) a := by
  obtain ⟨before, m, after, rfl, hm, hafter⟩ := h
  refine ⟨before, m, after ++ [ev], by simp, hm, ?_⟩
  simp only [List.mem_append, List.mem_singleton, not_or]
  exact ⟨hafter, hev.symm⟩

theorem announced_concat : Announced (events ++ [ev]) a ↔
    (∃ m, ev = .message m ∧ m.originator = a) ∨ ev ≠ .delete a ∧ Announced events a := by
  constructor
  · rintro ⟨before, m, after, hsplit, hm, hafter⟩
    rcases List.eq_nil_or_concat after with rfl | ⟨rest, last, rfl⟩
    · obtain ⟨-, hlast⟩ := List.append_inj' hsplit rfl
      exact .inl ⟨m, List.singleton_inj.1 hlast, hm⟩
    · rw [List.concat_eq_append, ← List.cons_append, ← List.append_assoc] at hsplit
      obtain ⟨rfl, hlast⟩ := List.append_inj' hsplit rfl
      obtain rfl := List.singleton_inj.1 hlast
      simp only [List.concat_eq_append, List.mem_append, List.mem_singleton, not_or] at hafter
      exact .inr ⟨Ne.symm hafter.2, before, m, rest, rfl, hm, hafter.1⟩
  · rintro (⟨m, rfl, hm⟩ | ⟨hev, h⟩)
    · exact ⟨events, m, [], rfl, hm, List.not_mem_nil⟩
    · exact h.concat hev

theorem known_none_iff (events : List PlcEvent) (a : IpAddr) : (known events).peer a = none ↔ ¬Announced events a := by
  induction events using List.reverseRecOn with
  | nil =>
    refine iff_of_true rfl ?_
    rintro ⟨before, m, after, hsplit, -⟩
    simp at hsplit
  | append_singleton events ev ih =>
    rw [known_concat, announced_concat, not_or, not_and]
    cases ev with
    | message m =>
      by_cases ha : a = m.originator
      · simp [Known.next, ha]
      · simp [Known.next, ha, ih, Ne.symm ha]
    | rates data => simp [Known.next, ih]
    | delete b =>
      by_cases ha : a = b
      · simp [Known.next, ha]
      · simp [Known.next, ha, ih, Ne.symm ha]

/-- The MAC is that of the message that made the address known. -/
theorem known_mac {x : Peer} (hx : (known events).peer a = some x) : ∃ before m after,
    events = before ++ .message m :: after ∧ m.originator = a ∧ ¬Announced before a ∧ .delete a ∉ after ∧
      x.data.mac = m.message.slice 0 6 := by
  induction events using List.reverseRecOn generalizing x with
  | nil => cases hx
  | append_singleton events ev ih =>
    have hold : ∀ {y}, (known events).peer a = some y → ev ≠ .delete a → y.data.mac = x.data.mac →
        ∃ before m after, events ++ [ev] = before ++ .message m :: after ∧ m.originator = a ∧ ¬Announced before a ∧
          .delete a ∉ after ∧ x.data.mac = m.message.slice 0 6 := by
      intro y hy hev hmac
      obtain ⟨before, m, after, rfl, hm, hfirst, hafter, hym⟩ := ih hy
      refine ⟨before, m, after ++ [ev], by simp, hm, hfirst, ?_, hmac ▸ hym⟩
      simp only [List.mem_append, List.mem_singleton, not_or]
      exact ⟨hafter, hev.symm⟩
    rw [known_concat] at hx
    cases ev with
    | message m =>
      cases hy : (known events).peer a with
      | none =>
        by_cases ha : a = m.originator
        · subst ha
          simp only [Known.next, hy, if_true, Option.none_or, Option.some.injEq] at hx
          subst hx
          exact ⟨events, m, [], rfl, rfl, (known_none_iff _ _).1 hy, List.not_mem_nil, rfl⟩
        · simp [Known.next, hy, ha] at hx
      | some y =>
        refine hold hy (by simp) ?_
        simp only [Known.next, hy, Option.some_or, ite_self, Option.some.injEq] at hx
        rw [hx]
    | rates data =>
      obtain ⟨y, hy, rfl⟩ := Option.map_eq_some_iff.1 hx
      refine hold hy (by simp) ?_
      split <;> rfl
    | delete b =>
      by_cases ha : a = b
      · simp [Known.next, ha] at hx
      · simp only [Known.next, ha, if_false] at hx
        exact hold hx (by simpa using Ne.symm ha) rfl

theorem recorded_run (events : List PlcEvent) :
    ∃ t, Run.forEach step events initPlcPeerNeighbors = some t ∧ Recorded (known events) t := by
  refine Run.forEach_prefix (P := fun done t => Recorded (known done) t) (fun done ev t _ h => ?_) recorded_init
  rw [known_concat]
  cases ev with
  | message m => exact ⟨_, rfl, h.message m⟩
  | rates data => exact h.rates data
  | delete peerAddr => exact ⟨_, rfl, h.delete peerAddr⟩

/-! ## The iterator -/

theorem iterLoop_drop (num j : ℕ) (l : List Ptr) (hj : j ≤ num) : iterLoop num j l = l[num - j]? := by
  induction l generalizing j with
  | nil => rfl
  | cons p l ih =>
    unfold iterLoop
    split
    · next hlast =>
      obtain rfl : j = num := le_antisymm hj (Nat.lt_succ_iff.1 hlast)
      simp
    · next hmore =>
      have hlt : j + 1 ≤ num := not_lt.1 hmore
      rw [ih (j + 1) hlt, show num - j = num - (j + 1) + 1 by omega, List.getElem?_cons_succ]

theorem Recorded.iterNext_eq (h : Recorded k t) (num : ℕ) :
    iterNext t num = (t.allEntries[num]?, if num < t.allEntries.length then num + 1 else num) := by
  by_cases hnum : num < t.allEntries.length
  · have hsize : t.tableSize ≠ 0 := by
      rw [h.size]
      exact_mod_cast (Nat.zero_lt_of_lt hnum).ne'
    rw [iterNext, if_neg hsize, iterLoop_drop num 0 _ (Nat.zero_le _), Nat.sub_zero, List.getElem?_eq_getElem hnum,
      if_pos hnum]
  · rw [List.getElem?_eq_none (not_lt.1 hnum), if_neg hnum, iterNext]
    split
    · rfl
    · rw [iterLoop_drop num 0 _ (Nat.zero_le _), Nat.sub_zero, List.getElem?_eq_none (not_lt.1 hnum)]

/-- The calls give the entries that have not been given yet. -/
theorem Recorded.iterate_drop (h : Recorded k t) (calls num : ℕ) (hnum : num ≤ t.allEntries.length)
    (hcalls : t.allEntries.length < num + calls) : iterate t calls num = some (t.allEntries.drop num) := by
  induction calls generalizing num with
  | zero => exact absurd hcalls hnum.not_gt
  | succ calls ih =>
    rw [iterate, h.iterNext_eq]
    rcases hnum.lt_or_eq with hlt | rfl
    · rw [List.getElem?_eq_getElem hlt, if_pos hlt, List.drop_eq_getElem_cons hlt]
      dsimp only
      rw [ih (num + 1) hlt (by omega)]
      rfl
    · rw [List.getElem?_eq_none le_rfl, List.drop_length]

/-- After every run the table holds the addresses that have been announced and not been deleted since, each with the MAC
of the first message that announced it and with the rates it was given as the first of the peers with its MAC, and the
iterator gives each of them once. -/
theorem peerTable_run (events : List PlcEvent) : ∃ t, Run.forEach step events initPlcPeerNeighbors = some t ∧
    (∀ a, lookupPlcPeerByIp t a ≠ none ↔ Announced events a) ∧
    (∀ a p, lookupPlcPeerByIp t a = some p → ∃ x before m after,
      t.entry p = some ⟨a, x.data⟩ ∧ (known events).peer a = some x ∧ events = before ++ .message m :: after ∧
        m.originator = a ∧ ¬Announced before a ∧ .delete a ∉ after ∧ x.data.mac = m.message.slice 0 6) ∧
    ∃ calls given, iterate t calls 0 = some given ∧ given.Nodup ∧ (∀ p, p ∈ given ↔ ∃ e, t.entry p = some e) ∧
      t.tableSize = given.length := by
  obtain ⟨t, hrun, h⟩ := recorded_run events
  refine ⟨t, hrun, fun a => ?_, fun a p hlook => ?_, ?_⟩
  · rw [← not_iff_not, ← known_none_iff, ← h.lookup_none_iff, not_not]
  · obtain ⟨e, he, rfl⟩ := lookup_some hlook
    obtain ⟨x, hx, hdata⟩ := h.entry p e he
    obtain ⟨before, m, after, hfirst⟩ := known_mac hx
    exact ⟨x, before, m, after, by rw [hdata]; exact he, hx, hfirst⟩
  · refine ⟨t.allEntries.length + 1, t.allEntries, ?_, h.wf.nodup_allEntries, fun p => h.wf.mem_allEntries, h.size⟩
    exact h.iterate_drop _ 0 (Nat.zero_le _) (by omega)

/-- The MAC that the latest message announced for an address. -/
def nextMac (a : IpAddr) (mac : Option Mac) : PlcEvent → Option Mac
  | .message m => if m.originator = a then some (m.message.slice 0 6) else mac
  | .rates _ => mac
  | .delete b => if b = a then none else mac

/-- What a peer whose adapter is changed announces. -/
def changedPeer (last : UInt8) : PlcMessage := ⟨[10, 0, 0, 1], fun i => if i = 5 then last else 0⟩

theorem not_peerTable_latest : ¬∀ (events : List PlcEvent) (a : IpAddr) (t : PlcTable),
    Run.forEach step events initPlcPeerNeighbors = some t →
      ((lookupPlcPeerByIp t a).bind t.entry).map (fun e => e.plcData.mac) = events.foldl (nextMac a) none := by
  intro h
  have := h [.message (changedPeer 1), .message (changedPeer 2)] [10, 0, 0, 1] _ rfl
  revert this
  decide +kernel

end Olsrd.Plc
