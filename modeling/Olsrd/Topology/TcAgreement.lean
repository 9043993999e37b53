/-
Whether a receiver decodes the TC messages of a sender as they were meant. The decoder finds the next
record by what it did with the last one, so it stays in step with the sender only as long as every
record has the length the sender gave it.
-/
import Olsrd.Topology.TcSend
import Olsrd.Topology.Reachable
import Olsrd.Topology.TcProcess

namespace Olsrd.Topology

open Bytes

variable {Lq : Type} {env : Env Lq} {msg : Mem}

/-! ## Messages in memory -/

/-- The message carries the fragment `f` of the TC `hd`. -/
structure Carries (env : Env Lq) (hd : TcHead) (msg : Mem) (f : TcFragment) : Prop where
  type : msg 0 = hd.type
  size : (headerOf env msg).size = 12 + env.cnf.ipsize + (records f.neighbors).length
  originator : (headerOf env msg).originator = hd.originator
  ansn : (headerOf env msg).ansn = hd.ansn
  lower : (headerOf env msg).lowerBorder = f.lower
  upper : (headerOf env msg).upperBorder = f.upper
  body : ∃ pre, pre.length = 12 + env.cnf.ipsize ∧ Holds msg (pre ++ records f.neighbors)

theorem carries_of_holds {hd : TcHead} {seqno : UInt16} {f : TcFragment} (horig : hd.originator.length = env.cnf.ipsize)
    (hsmall : 12 + env.cnf.ipsize + (records f.neighbors).length < 65536)
    (h : Holds msg (tcBytes hd seqno f.lower f.upper (records f.neighbors))) : Carries env hd msg f := by
  generalize hrec : records f.neighbors = rs at h hsmall
  unfold tcBytes at h
  -- the parts of the message, with the fields in front of each
  let p2 := [hd.type, hd.vtime]
  let p4 := p2 ++ u16Bytes (12 + hd.originator.length + rs.length)
  let p8 := p4 ++ hd.originator
  let p10 := p8 ++ [hd.ttl, hd.hops]
  let p12 := p10 ++ u16Bytes seqno.toNat
  let p14 := p12 ++ u16Bytes hd.ansn.toNat
  have hsmall' : 12 + hd.originator.length + rs.length < 65536 := by rw [horig]; exact hsmall
  have h4 : p4.length = 4 := rfl
  have h12 : p12.length = 8 + env.cnf.ipsize := by simp [p12, p10, p8, h4, u16Bytes, horig]; omega
  have h14 : p14.length = 10 + env.cnf.ipsize := by simp [p14, h12, u16Bytes]; omega
  have hsize := Holds.u16 p2 (hd.originator ++ [hd.ttl, hd.hops] ++ u16Bytes seqno.toNat ++ u16Bytes hd.ansn.toNat ++
    [f.lower, f.upper] ++ rs) hsmall' (by simpa [p2] using h)
  have htype := Holds.byte [] hd.type (hd.vtime :: (u16Bytes (12 + hd.originator.length + rs.length) ++
    hd.originator ++ [hd.ttl, hd.hops] ++ u16Bytes seqno.toNat ++ u16Bytes hd.ansn.toNat ++ [f.lower, f.upper] ++ rs))
    (by simpa using h)
  have horigin := Holds.slice p4 hd.originator ([hd.ttl, hd.hops] ++ u16Bytes seqno.toNat ++ u16Bytes hd.ansn.toNat ++
    [f.lower, f.upper] ++ rs) (by simpa [p4, p2] using h)
  have hansn := Holds.u16 p12 ([f.lower, f.upper] ++ rs) hd.ansn.toNat_lt (by simpa [p12, p10, p8, p4, p2] using h)
  have hlower := Holds.byte p14 f.lower (f.upper :: rs) (by simpa [p14, p12, p10, p8, p4, p2] using h)
  have hupper := Holds.byte (p14 ++ [f.lower]) f.upper rs (by simpa [p14, p12, p10, p8, p4, p2] using h)
  rw [h4, horig] at horigin
  rw [h12] at hansn
  rw [h14] at hlower
  rw [List.length_append, h14] at hupper
  have hsize' : msg.u16 2 = 12 + hd.originator.length + rs.length := hsize
  refine ⟨htype, ?_, horigin, ?_, ?_, ?_, p14 ++ [f.lower, f.upper], by simp [h14]; omega, ?_⟩
  · rw [hrec, ← horig, ← hsize']; rfl
  · show UInt16.ofNat (msg.u16 (0 + 1 + 1 + 2 + env.cnf.ipsize + 1 + 1 + 2)) = hd.ansn
    rw [show 0 + 1 + 1 + 2 + env.cnf.ipsize + 1 + 1 + 2 = 8 + env.cnf.ipsize by omega, hansn, UInt16.ofNat_toNat]
  · show msg (0 + 1 + 1 + 2 + env.cnf.ipsize + 1 + 1 + 2 + 2) = f.lower
    rw [show 0 + 1 + 1 + 2 + env.cnf.ipsize + 1 + 1 + 2 + 2 = 10 + env.cnf.ipsize by omega, hlower]
  · show msg (0 + 1 + 1 + 2 + env.cnf.ipsize + 1 + 1 + 2 + 2 + 1) = f.upper
    rw [show 0 + 1 + 1 + 2 + env.cnf.ipsize + 1 + 1 + 2 + 2 + 1 = 10 + env.cnf.ipsize + 1 by omega]
    exact hupper
  · rw [hrec]; simpa [p14, p12, p10, p8, p4, p2] using h

/-! ## Records in step -/

/-- Where addresses were read, in order. -/
def addressReads (cnf : Cnf) (c : Cursor) : List Nat :=
  (c.reads.reverse.filter fun r => r.2 == cnf.ipsize).map Prod.fst

theorem addressReads_ipaddress (cnf : Cnf) (c : Cursor) :
    addressReads cnf (c.get cnf.ipsize) = addressReads cnf c ++ [c.curr] := by
  simp [addressReads, Cursor.get]

/-- Reads of other lengths do not count. -/
theorem addressReads_get (cnf : Cnf) (c : Cursor) {n : Nat} (hn : n < 4) :
    addressReads cnf (c.get n) = addressReads cnf c := by
  have hne : n ≠ cnf.ipsize := by rcases cnf.ipsize_cases with h | h <;> omega
  simp [addressReads, Cursor.get, hne]

theorem addressReads_lqPair (cnf : Cnf) (pair : PairReads) (msg : Mem) (c : Cursor) :
    addressReads cnf (deserializeLqPair pair msg c).2 = addressReads cnf c := by
  have hne : 1 ≠ cnf.ipsize := by rcases cnf.ipsize_cases with h | h <;> omega
  cases pair <;> simp [addressReads, deserializeLqPair, PairReads.offsets, hne]

theorem addressReads_recordCursor (env : Env Lq) (msg : Mem) (c : Cursor) (o : Option (TcEdgeEntry Lq)) :
    addressReads env.cnf (recordCursor env msg c o) = addressReads env.cnf c ++ [c.curr] := by
  unfold recordCursor
  cases o with
  | none => dsimp only; split <;> simp only [addressReads_lqPair, addressReads_ipaddress]
  | some d => dsimp only; split <;> simp only [addressReads_lqPair, addressReads_ipaddress]

/-- Where the walk over the records of a message reads addresses. -/
def recordOffsets (env : Env Lq) (p : Ptr) (ansn : UInt16) (msg : Mem) (limit : Nat) (E : EdgeMap Lq) (c : Cursor) :
    List Nat :=
  if c.curr < limit then
    let a := recordAddr env msg c
    c.curr :: recordOffsets env p ansn msg limit (Function.update E a (recordEdge env p ansn msg c (E a)))
      (recordCursor env msg c (E a))
  else []
termination_by limit - c.curr
decreasing_by
  have := recordCursor_curr env msg c (E (recordAddr env msg c))
  have := env.cnf.ipsize_pos
  omega

theorem addressReads_recordWalk (env : Env Lq) (p : Ptr) (ansn : UInt16) (msg : Mem) (limit : Nat) (E : EdgeMap Lq)
    (c : Cursor) : addressReads env.cnf (recordWalk env p ansn msg limit E c).2.1 =
      addressReads env.cnf c ++ recordOffsets env p ansn msg limit E c := by
  fun_induction recordWalk env p ansn msg limit E c with
  | case1 E c hlt a rest ih =>
    rw [recordOffsets, if_pos hlt]
    exact ih.trans (by rw [addressReads_recordCursor]; simp [a])
  | case2 E c hlt =>
    rw [recordOffsets, if_neg hlt]; simp

/-- The link quality bytes of a record. -/
def lqSize (cnf : Cnf) : Nat := if 0 < cnf.lqLevel then 4 else 0

/-- The offsets of `n` records from `o` on. -/
def offsetsFrom (cnf : Cnf) (o : Nat) : Nat → List Nat
  | 0 => []
  | n + 1 => o :: offsetsFrom cnf (o + (cnf.ipsize + lqSize cnf)) n

/-- A record of which the decoder makes as many bytes as the sender. With link qualities, an address that
is neither known nor allowed is taken without them; without link qualities, a new address is taken
with them. -/
def RecordInStep (env : Env Lq) (E : EdgeMap Lq) (a : IpAddr) : Prop :=
  (E a).isSome = true ∨ olsrValidateAddress env.cnf a = decide (0 < env.cnf.lqLevel)

/-- The records whose length matters: a last record that is taken for longer than it is ends the walk all
the same. -/
def guarded (cnf : Cnf) (L : List TcMprAddr) : List TcMprAddr := if 0 < cnf.lqLevel then L else L.dropLast

def InStep (env : Env Lq) (E : EdgeMap Lq) (L : List TcMprAddr) : Prop :=
  ∀ n ∈ guarded env.cnf L, RecordInStep env E n.1

theorem guarded_cons {cnf : Cnf} (n : TcMprAddr) {L : List TcMprAddr} (h : L ≠ [] ∨ 0 < cnf.lqLevel) :
    guarded cnf (n :: L) = n :: guarded cnf L := by
  unfold guarded
  by_cases hlq : 0 < cnf.lqLevel
  · rw [if_pos hlq, if_pos hlq]
  · rw [if_neg hlq, if_neg hlq, List.dropLast_cons_of_ne_nil (h.resolve_right hlq)]

/-- What a walk over records in step does to the edge map. -/
structure Stamped (env : Env Lq) (ansn : UInt16) (L : List TcMprAddr) (E E' : EdgeMap Lq) : Prop where
  others : ∀ b, b ∉ L.map Prod.fst → E' b = E b
  listed : ∀ n ∈ L, (E' n.1).isSome = ((E n.1).isSome || olsrValidateAddress env.cnf n.1)
  ansn : ∀ n ∈ L, ∀ d, E' n.1 = some d → d.ansn = ansn
  quality : 0 < env.cnf.lqLevel → ∀ n ∈ L, ∀ d, E' n.1 = some d → d.linkquality = env.lq.deserializeTcLq n.2

/-- The cursor is at a message part that holds the records of `L`. -/
structure At (env : Env Lq) (msg : Mem) (L : List TcMprAddr) (limit : Nat) (c : Cursor) : Prop where
  sized : WellSized env.cnf (lqSize env.cnf) L
  limit : limit = c.curr + (records L).length
  body : ∃ pre, pre.length = c.curr ∧ Holds msg (pre ++ records L)

namespace At

variable {n : TcMprAddr} {L : List TcMprAddr} {limit : Nat} {c : Cursor}

theorem length_eq (h : At env msg L limit c) : limit = c.curr + L.length * (env.cnf.ipsize + lqSize env.cnf) := by
  rw [h.limit, length_records h.sized]

theorem addr (h : At env msg (n :: L) limit c) : recordAddr env msg c = n.1 := by
  obtain ⟨pre, hpre, hmem⟩ := h.body
  rw [records_cons, List.append_assoc] at hmem
  have hs := hmem.slice pre n.1 (n.2 ++ records L)
  rw [hpre, (h.sized n (List.mem_cons_self ..)).1] at hs
  exact hs

theorem lq (h : At env msg (n :: L) limit c) (hlq : 0 < env.cnf.lqLevel) :
    recordLq env msg c = env.lq.deserializeTcLq n.2 := by
  obtain ⟨pre, hpre, hmem⟩ := h.body
  obtain ⟨h1, h2⟩ := h.sized n (List.mem_cons_self ..)
  rw [lqSize, if_pos hlq] at h2
  rw [records_cons, ← List.append_assoc, ← List.append_assoc, List.append_assoc] at hmem
  have hs := hmem.slice (pre ++ n.1) n.2 (records L)
  rw [List.length_append, hpre, h1, h2] at hs
  unfold recordLq; rw [hs]

theorem lt_limit (h : At env msg (n :: L) limit c) : c.curr < limit := by
  have := env.cnf.ipsize_pos
  rw [h.length_eq, List.length_cons, Nat.succ_mul]; omega

theorem next (h : At env msg (n :: L) limit c) {c' : Cursor}
    (hc : c'.curr = c.curr + (env.cnf.ipsize + lqSize env.cnf)) : At env msg L limit c' := by
  obtain ⟨pre, hpre, hmem⟩ := h.body
  obtain ⟨h1, h2⟩ := h.sized n (List.mem_cons_self ..)
  refine ⟨fun x hx => h.sized x (List.mem_cons_of_mem _ hx), ?_, pre ++ (n.1 ++ n.2), ?_, ?_⟩
  · rw [h.limit, records_cons, hc]; simp only [List.length_append, h1, h2]; omega
  · simp only [List.length_append, hpre, h1, h2, hc]
  · rw [records_cons] at hmem; simpa using hmem

end At

/-- The first record, and then the rest. -/
theorem Stamped.cons {c : Cursor} {p : Ptr} {ansn : UInt16} {n : TcMprAddr} {L : List TcMprAddr} {limit : Nat}
    {E E' : EdgeMap Lq} (hat : At env msg (n :: L) limit c) (hn : n.1 ∉ L.map Prod.fst)
    (h : Stamped env ansn L (Function.update E n.1 (recordEdge env p ansn msg c (E n.1))) E') :
    Stamped env ansn (n :: L) E E' := by
  have hself : E' n.1 = recordEdge env p ansn msg c (E n.1) := by rw [h.others n.1 hn, Function.update_self]
  have hne : ∀ m ∈ L, m.1 ≠ n.1 := fun m hm heq => hn (heq ▸ List.mem_map_of_mem hm)
  refine ⟨fun b hb => ?_, ?_, ?_, fun hlq => ?_⟩
  · rw [List.map_cons, List.mem_cons, not_or] at hb
    rw [h.others b hb.2, Function.update_of_ne hb.1]
  · rw [List.forall_mem_cons]
    refine ⟨by rw [hself, recordEdge_isSome, hat.addr], fun m hm => ?_⟩
    rw [h.listed m hm, Function.update_of_ne (hne m hm)]
  · rw [List.forall_mem_cons]
    refine ⟨fun d hd => ?_, h.ansn⟩
    rw [hself] at hd
    exact (recordEdge_stamp hd).1
  · rw [List.forall_mem_cons]
    refine ⟨fun d hd => ?_, h.quality hlq⟩
    rw [hself] at hd
    rw [(recordEdge_stamp hd).2 hlq, hat.lq hlq]

theorem recordCursor_inStep_iff {c : Cursor} {n : TcMprAddr} {L : List TcMprAddr} {limit : Nat} {E : EdgeMap Lq}
    (hat : At env msg (n :: L) limit c) :
    (recordCursor env msg c (E n.1)).curr = c.curr + (env.cnf.ipsize + lqSize env.cnf) ↔ RecordInStep env E n.1 := by
  rw [recordCursor_end, hat.addr]
  unfold RecordInStep lqSize
  by_cases hlq : 0 < env.cnf.lqLevel
  · cases hk : (E n.1).isSome <;> cases hv : olsrValidateAddress env.cnf n.1 <;> simp [hlq]
  · cases hk : (E n.1).isSome <;> cases hv : olsrValidateAddress env.cnf n.1 <;> simp [hlq]

theorem recordCursor_le (env : Env Lq) (msg : Mem) (c : Cursor) (o : Option (TcEdgeEntry Lq)) :
    (recordCursor env msg c o).curr ≤ c.curr + (env.cnf.ipsize + 4) := by
  rw [recordCursor_end]
  generalize (if o.isSome = true then decide (0 < env.cnf.lqLevel)
    else olsrValidateAddress env.cnf (recordAddr env msg c)) = withLq
  cases withLq <;> simp

/-- A record in step leaves every other record as much in step as it was. -/
theorem recordInStep_update {c : Cursor} {p : Ptr} {ansn : UInt16} {n : TcMprAddr} {L : List TcMprAddr} {limit : Nat}
    {E : EdgeMap Lq} (hat : At env msg (n :: L) limit c) (hn : RecordInStep env E n.1) (a : IpAddr) :
    RecordInStep env (Function.update E n.1 (recordEdge env p ansn msg c (E n.1))) a ↔ RecordInStep env E a := by
  have hsome := recordEdge_isSome env p ansn msg c (E n.1)
  rw [hat.addr] at hsome
  by_cases ha : a = n.1
  · subst ha
    refine iff_of_true ?_ hn
    rcases hn with hk | hv
    · left; rw [Function.update_self, hsome, hk]; rfl
    · exact .inr hv
  · unfold RecordInStep
    rw [Function.update_of_ne ha]

/-- A walk over records in step sees them where they were written, and stamps them. -/
theorem recordWalk_inStep (env : Env Lq) (p : Ptr) (ansn : UInt16) (msg : Mem) (limit : Nat) :
    ∀ (L : List TcMprAddr) (E : EdgeMap Lq) (c : Cursor), At env msg L limit c → (L.map Prod.fst).Nodup →
      InStep env E L → Stamped env ansn L E (recordWalk env p ansn msg limit E c).1 ∧
        (recordWalk env p ansn msg limit E c).2.2 = L.map Prod.fst ∧
        recordOffsets env p ansn msg limit E c = offsetsFrom env.cnf c.curr L.length
  | [], E, c, hat, _, _ => by
    have hge : limit ≤ c.curr := by rw [hat.limit]; simp [records]
    rw [recordWalk_of_ge env p ansn msg E hge, recordOffsets, if_neg (by omega)]
    exact ⟨⟨fun _ _ => rfl, by simp, by simp, by simp⟩, rfl, rfl⟩
  | n :: L, E, c, hat, hnd, hstep => by
    obtain ⟨hn, hnd'⟩ := List.nodup_cons.1 hnd
    have hlt := hat.lt_limit
    rw [recordWalk, if_pos hlt, recordOffsets, if_pos hlt]
    simp only [hat.addr]
    by_cases hlast : L ≠ [] ∨ 0 < env.cnf.lqLevel
    · rw [InStep, guarded_cons n hlast, List.forall_mem_cons] at hstep
      have hcurr := (recordCursor_inStep_iff hat).2 hstep.1
      have htail : InStep env (Function.update E n.1 (recordEdge env p ansn msg c (E n.1))) L :=
        fun m hm => (recordInStep_update hat hstep.1 m.1).2 (hstep.2 m hm)
      obtain ⟨hst, haddrs, hoff⟩ := recordWalk_inStep env p ansn msg limit L _ _ (hat.next hcurr) hnd' htail
      refine ⟨hst.cons hat hn, by rw [haddrs]; rfl, ?_⟩
      rw [hoff, hcurr]; rfl
    · -- the last record of a message without link qualities: the walk ends whatever its length
      rw [not_or, not_not] at hlast
      obtain ⟨rfl, hlq⟩ := hlast
      have hge : limit ≤ (recordCursor env msg c (E n.1)).curr := by
        have h1 := recordCursor_curr env msg c (E n.1)
        have h2 := hat.length_eq
        simp only [lqSize, if_neg hlq, List.length_cons, List.length_nil] at h2
        omega
      rw [recordWalk_of_ge env p ansn msg _ hge, recordOffsets, if_neg (by omega)]
      refine ⟨Stamped.cons hat hn ⟨fun _ _ => rfl, by simp, by simp, by simp⟩, rfl, rfl⟩

/-- If the walk sees the records where they were written, then they are in step. -/
theorem inStep_of_offsets (env : Env Lq) (p : Ptr) (ansn : UInt16) (msg : Mem) (limit : Nat) :
    ∀ (L : List TcMprAddr) (E : EdgeMap Lq) (c : Cursor), At env msg L limit c →
      recordOffsets env p ansn msg limit E c = offsetsFrom env.cnf c.curr L.length → InStep env E L
  | [], E, c, _, _ => by unfold InStep guarded; split <;> simp
  | n :: L, E, c, hat, hoff => by
    by_cases hlast : L ≠ [] ∨ 0 < env.cnf.lqLevel
    · rw [recordOffsets, if_pos hat.lt_limit] at hoff
      simp only [hat.addr, List.length_cons, offsetsFrom, List.cons.injEq, true_and] at hoff
      have hn : RecordInStep env E n.1 := by
        by_contra hn
        have hcurr := (recordCursor_inStep_iff hat).not.2 hn
        have hge := recordCursor_curr env msg c (E n.1)
        have hlen := hat.length_eq
        have hip := env.cnf.ipsize_pos
        rw [List.length_cons, Nat.succ_mul] at hlen
        rw [recordOffsets] at hoff
        cases L with
        | nil =>
          -- link quality bytes are left over and taken for another record
          have hlq := hlast.resolve_left (fun h => h rfl)
          have hle := recordCursor_le env msg c (E n.1)
          simp only [lqSize, hlq, if_true, List.length_nil, Nat.zero_mul] at hlen hcurr
          rw [if_pos (by omega)] at hoff
          cases hoff
        | cons m L =>
          split at hoff
          · simp only [List.length_cons, offsetsFrom, List.cons.injEq] at hoff
            exact hcurr hoff.1
          · cases hoff
      have hcurr := (recordCursor_inStep_iff hat).2 hn
      rw [← hcurr] at hoff
      have htail := inStep_of_offsets env p ansn msg limit L _ _ (hat.next hcurr) hoff
      rw [InStep, guarded_cons n hlast, List.forall_mem_cons]
      exact ⟨hn, fun m hm => (recordInStep_update hat hn m.1).1 (htail m hm)⟩
    · rw [not_or, not_not] at hlast
      obtain ⟨rfl, hlq⟩ := hlast
      unfold InStep guarded
      simp [hlq]

/-! ## One fragment -/

variable {s s' : Lsdb Lq} {hd : TcHead} {f : TcFragment} {p : Ptr} {r : TcResult Lq}

/-- The records of the fragment were read where they were written. -/
def InPlace (env : Env Lq) (r : TcResult Lq) (f : TcFragment) : Prop :=
  addressReads env.cnf r.cursor = 4 :: offsetsFrom env.cnf (12 + env.cnf.ipsize) f.neighbors.length

/-- The fragment is not an empty TC that revokes everything. -/
def TcFragment.Keeps (f : TcFragment) : Prop := ¬ (f.neighbors = [] ∧ f.lower = 0xff ∧ f.upper = 0xff)

theorem headerOf_curr (env : Env Lq) (msg : Mem) : (headerOf env msg).cursor.curr = 12 + env.cnf.ipsize := by
  simp [headerOf, tcHeader]; omega

theorem addressReads_headerOf (env : Env Lq) (msg : Mem) : addressReads env.cnf (headerOf env msg).cursor = [4] := by
  simp only [headerOf, tcHeader, pktGetU8_snd, pktGetU16_snd, pktGetReltime_snd, pktGetIpaddress_snd,
    addressReads_get env.cnf _ (by omega : 1 < 4), addressReads_get env.cnf _ (by omega : 2 < 4),
    addressReads_ipaddress, Cursor.get_curr, Cursor.start_curr]
  rfl

theorem Carries.at (hc : Carries env hd msg f) (hsized : WellSized env.cnf (lqSize env.cnf) f.neighbors) :
    At env msg f.neighbors (headerOf env msg).size (headerOf env msg).cursor := by
  obtain ⟨pre, hpre, hmem⟩ := hc.body
  have hcurr := headerOf_curr env msg
  exact ⟨hsized, by rw [hc.size, hcurr], pre, by rw [hpre, hcurr], hmem⟩

theorem Carries.cleansUp_iff (hc : Carries env hd msg f) (hsized : WellSized env.cnf (lqSize env.cnf) f.neighbors) :
    (headerOf env msg).cleansUp ↔ ¬ f.Keeps := by
  unfold TcHeader.cleansUp TcFragment.Keeps
  rw [not_not, hc.lower, hc.upper, hc.size, headerOf_curr, length_records hsized]
  refine and_congr_left fun _ => ?_
  have hip := env.cnf.ipsize_pos
  constructor
  · intro hge
    by_contra hne
    have hpos := Nat.mul_pos (List.length_pos_iff.2 hne) (show 0 < env.cnf.ipsize + lqSize env.cnf by omega)
    omega
  · rintro hnil; simp [hnil]

/-- What an accepted fragment does, as far as its records are in step. -/
theorem TcAccepted.fragment (hacc : TcAccepted env s msg p r) (hc : Carries env hd msg f)
    (hsized : WellSized env.cnf (lqSize env.cnf) f.neighbors) (hnd : (f.neighbors.map Prod.fst).Nodup)
    (hkeeps : f.Keeps) :
    (InPlace env r f ↔ InStep env (edgesFrom s hd.originator) f.neighbors) ∧
      (InStep env (edgesFrom s hd.originator) f.neighbors →
        ∃ E, Stamped env hd.ansn f.neighbors (edgesFrom s hd.originator) E ∧
          edgesFrom r.db hd.originator = revokeWithin env hd.ansn E
            (tcBorders env (headerOf env msg) (f.neighbors.map Prod.fst))) := by
  have hat := hc.at hsized
  have hcursor := hacc.cursor
  have hedges := hacc.edges fun hy => (hc.cleansUp_iff hsized).1 hy hkeeps
  rw [hc.originator, hc.ansn] at hedges
  rw [hc.originator] at hcursor
  unfold tcRecords at hcursor hedges
  rw [hc.ansn] at hcursor hedges
  have hreads : addressReads env.cnf r.cursor =
      4 :: recordOffsets env p hd.ansn msg (headerOf env msg).size (edgesFrom s hd.originator)
        (headerOf env msg).cursor := by
    rw [hcursor, addressReads_recordWalk, addressReads_headerOf]; rfl
  have hwalk := recordWalk_inStep env p hd.ansn msg (headerOf env msg).size f.neighbors (edgesFrom s hd.originator)
    (headerOf env msg).cursor hat hnd
  unfold InPlace
  rw [hreads, List.cons.injEq, ← headerOf_curr env msg]
  refine ⟨⟨fun h => inStep_of_offsets env p hd.ansn msg _ _ _ _ hat h.2, fun h => ⟨rfl, (hwalk h).2.2⟩⟩, fun h => ?_⟩
  obtain ⟨hst, haddrs, -⟩ := hwalk h
  rw [haddrs] at hedges
  exact ⟨_, hst, hedges⟩

theorem accepted_of_forward (hw : Wf s) (ho : Ordered env s) (htype : IsTc msg)
    (hr : olsrInputTc env s true msg = some r) (hfwd : r.forward = true) : ∃ p, TcAccepted env s msg p r := by
  by_cases hgate : GateOpen s (headerOf env msg)
  · by_cases hentry : EntryAvailable env s (headerOf env msg).originator
    · obtain ⟨r', p, hr', hacc⟩ := olsrInputTc_accepted env hw ho htype hgate hentry
      obtain rfl := Option.some.inj (hr.symm.trans hr')
      exact ⟨p, hacc⟩
    · rw [olsrInputTc_eq_none env htype hentry] at hr; cases hr
  · obtain ⟨s', -, hr'⟩ := olsrInputTc_refused env hw htype hgate
    obtain rfl := Option.some.inj (hr.symm.trans hr')
    cases hfwd

/-! ## All fragments -/

/-- Edges with the number of the message are not revoked. -/
theorem revokeWithin_eq_some_iff (env : Env Lq) {ansn : UInt16} (E : EdgeMap Lq) (o : Option (IpAddr × IpAddr))
    (b : IpAddr) {d : TcEdgeEntry Lq} (hd : d.ansn = ansn) : revokeWithin env ansn E o b = some d ↔ E b = some d := by
  cases o with
  | none => rfl
  | some lu =>
    obtain ⟨lower, upper⟩ := lu
    simp only [revokeWithin, revoke, Option.filter_eq_some_iff, hd, seqnoGreaterThan_self, Bool.and_false,
      Bool.not_false, and_true]

/-- What processing the records of `L` does to the edges with the number `ansn`. -/
structure RunFacts (env : Env Lq) (ansn : UInt16) (L : List TcMprAddr) (E E' : EdgeMap Lq) : Prop where
  others : ∀ b, b ∉ L.map Prod.fst → ∀ d : TcEdgeEntry Lq, d.ansn = ansn → (E' b = some d ↔ E b = some d)
  allowed : ∀ n ∈ L, olsrValidateAddress env.cnf n.1 = true → ∃ d, E' n.1 = some d ∧ d.ansn = ansn
  quality : 0 < env.cnf.lqLevel → ∀ n ∈ L, ∀ d, E' n.1 = some d → d.linkquality = env.lq.deserializeTcLq n.2
  withLq : 0 < env.cnf.lqLevel → ∀ n ∈ L, ∃ d, E' n.1 = some d ∧ d.ansn = ansn
  plain : env.cnf.lqLevel = 0 → (∀ b, b ∉ L.map Prod.fst → E' b = E b) ∧
    ∀ n ∈ L, (E' n.1).isSome = ((E n.1).isSome || olsrValidateAddress env.cnf n.1) ∧ ∀ d, E' n.1 = some d →
    d.ansn = ansn

theorem RunFacts.nil (env : Env Lq) (ansn : UInt16) (E : EdgeMap Lq) : RunFacts env ansn [] E E :=
  ⟨fun _ _ _ _ => Iff.rfl, by simp, by simp, by simp, fun _ => ⟨fun _ _ => rfl, by simp⟩⟩

theorem RunFacts.of_stamped {ansn : UInt16} {L : List TcMprAddr} {E E₁ : EdgeMap Lq} {o : Option (IpAddr × IpAddr)}
    (h : Stamped env ansn L E E₁) (hstep : InStep env E L) (ho : env.cnf.lqLevel = 0 → o = none) :
    RunFacts env ansn L E (revokeWithin env ansn E₁ o) := by
  have hkeep : ∀ n ∈ L, (E₁ n.1).isSome = true → ∃ d, E₁ n.1 = some d ∧ d.ansn = ansn ∧
      revokeWithin env ansn E₁ o n.1 = some d := by
    intro n hn hsome
    obtain ⟨d, hd⟩ := Option.isSome_iff_exists.1 hsome
    have hansn := h.ansn n hn d hd
    exact ⟨d, hd, hansn, (revokeWithin_eq_some_iff env E₁ o n.1 hansn).2 hd⟩
  have hall : 0 < env.cnf.lqLevel → ∀ n ∈ L, (E₁ n.1).isSome = true := by
    intro hlq n hn
    have hrec := hstep n (by rw [guarded, if_pos hlq]; exact hn)
    rw [h.listed n hn]
    rcases hrec with hk | hv
    · rw [hk]; rfl
    · rw [hv]; simp [hlq]
  refine ⟨fun b hb d hd => ?_, fun n hn hv => ?_, fun hlq n hn d hd => ?_, fun hlq n hn => ?_, fun hlq => ?_⟩
  · rw [revokeWithin_eq_some_iff env E₁ o b hd, h.others b hb]
  · obtain ⟨d, -, hansn, hd⟩ := hkeep n hn (by rw [h.listed n hn, hv, Bool.or_true])
    exact ⟨d, hd, hansn⟩
  · obtain ⟨d', hd', -, hrev⟩ := hkeep n hn (hall hlq n hn)
    obtain rfl := Option.some.inj (hd.symm.trans hrev)
    exact h.quality hlq n hn d hd'
  · obtain ⟨d, -, hansn, hd⟩ := hkeep n hn (hall hlq n hn)
    exact ⟨d, hd, hansn⟩
  · rw [ho hlq]
    exact ⟨h.others, fun n hn => ⟨h.listed n hn, h.ansn n hn⟩⟩

theorem RunFacts.append {ansn : UInt16} {L L' : List TcMprAddr} {E E₁ E' : EdgeMap Lq} (h : RunFacts env ansn L E E₁)
    (h' : RunFacts env ansn L' E₁ E') (hdisj : ∀ n ∈ L, n.1 ∉ L'.map Prod.fst)
    (hdisj' : ∀ n ∈ L', n.1 ∉ L.map Prod.fst) :
    RunFacts env ansn (L ++ L') E E' := by
  refine ⟨fun b hb d hd => ?_, ?_, fun hlq => ?_, fun hlq => ?_, fun hlq => ?_⟩
  · rw [List.map_append, List.mem_append, not_or] at hb
    rw [h'.others b hb.2 d hd, h.others b hb.1 d hd]
  · rw [List.forall_mem_append]
    refine ⟨fun n hn hv => ?_, h'.allowed⟩
    obtain ⟨d, hd, hansn⟩ := h.allowed n hn hv
    exact ⟨d, (h'.others n.1 (hdisj n hn) d hansn).2 hd, hansn⟩
  · rw [List.forall_mem_append]
    refine ⟨fun n hn d hd => ?_, h'.quality hlq⟩
    obtain ⟨d₁, hd₁, hansn⟩ := h.withLq hlq n hn
    obtain rfl := Option.some.inj (hd.symm.trans ((h'.others n.1 (hdisj n hn) d₁ hansn).2 hd₁))
    exact h.quality hlq n hn d hd₁
  · rw [List.forall_mem_append]
    refine ⟨fun n hn => ?_, h'.withLq hlq⟩
    obtain ⟨d, hd, hansn⟩ := h.withLq hlq n hn
    exact ⟨d, (h'.others n.1 (hdisj n hn) d hansn).2 hd, hansn⟩
  · obtain ⟨ho, hl⟩ := h.plain hlq
    obtain ⟨ho', hl'⟩ := h'.plain hlq
    refine ⟨fun b hb => ?_, ?_⟩
    · rw [List.map_append, List.mem_append, not_or] at hb
      rw [ho' b hb.2, ho b hb.1]
    · rw [List.forall_mem_append]
      refine ⟨fun n hn => ?_, fun n hn => ?_⟩
      · rw [ho' n.1 (hdisj n hn)]; exact hl n hn
      · rw [← ho n.1 (hdisj' n hn)]; exact hl' n hn

/-- A receiver given one message after the other by a symmetric neighbour: the database in the end, and
the results. -/
def receiveTcs (env : Env Lq) (s : Lsdb Lq) : List Mem → Option (Lsdb Lq × List (TcResult Lq))
  | [] => some (s, [])
  | msg :: msgs => do
    let r ← olsrInputTc env s true msg
    let (s', rs) ← receiveTcs env r.db msgs
    pure (s', r :: rs)

/-- All addresses of a run, in order. -/
def allNeighbors (fs : List TcFragment) : List TcMprAddr := fs.flatMap TcFragment.neighbors

/-- A run of accepted fragments in which no address occurs twice. -/
structure RunOf (env : Env Lq) (hd : TcHead) (s : Lsdb Lq) (msgs : List Mem) (fs : List TcFragment) (s' : Lsdb Lq)
    (rs : List (TcResult Lq)) : Prop where
  wf : Wf s
  ordered : Ordered env s
  carries : List.Forall₂ (Carries env hd) msgs fs
  type : hd.type.toNat = lqTcMessage ∨ hd.type.toNat = tcMessage
  sized : WellSized env.cnf (lqSize env.cnf) (allNeighbors fs)
  nodup : ((allNeighbors fs).map Prod.fst).Nodup
  receives : receiveTcs env s msgs = some (s', rs)
  accepts : ∀ r ∈ rs, r.forward = true

/-- The first fragment of a run, and the run of the others. -/
theorem RunOf.cons {msgs : List Mem} {fs : List TcFragment} {rs : List (TcResult Lq)}
    (h : RunOf env hd s (msg :: msgs) (f :: fs) s' rs) : ∃ r rs' p, rs = r :: rs' ∧ TcAccepted env s msg p r ∧
      Carries env hd msg f ∧ RunOf env hd r.db msgs fs s' rs' := by
  obtain ⟨hw, ho, hcar, htype, hsized, hnd, hrecv, hacc⟩ := h
  obtain ⟨hc, hcs⟩ := List.forall₂_cons.1 hcar
  obtain ⟨r, hr, hrecv⟩ := Option.bind_eq_some_iff.1 hrecv
  obtain ⟨⟨s₁, rs'⟩, hrs', hrecv⟩ := Option.bind_eq_some_iff.1 hrecv
  obtain ⟨rfl, rfl⟩ := Prod.mk.inj (Option.some.inj hrecv)
  have htc : IsTc msg := by unfold IsTc; rw [hc.type]; exact htype
  obtain ⟨p, hp⟩ := accepted_of_forward hw ho htc hr (hacc r (List.mem_cons_self ..))
  rw [allNeighbors, List.flatMap_cons] at hsized hnd
  rw [List.map_append, List.nodup_append] at hnd
  exact ⟨r, rs', p, rfl, hp, hc, hp.wf, hp.ordered, hcs, htype, fun n hn => hsized n (List.mem_append_right _ hn),
    hnd.2.1, hrs', fun r' hr' => hacc r' (List.mem_cons_of_mem _ hr')⟩

theorem tcBorders_eq_none (hc : Carries env hd msg f) (hz : f.lower = 0 ∧ f.upper = 0) (addrs : List IpAddr) :
    tcBorders env (headerOf env msg) addrs = none := by
  unfold tcBorders olsrCalculateTcBorder
  simp only [hc.lower, hc.upper, if_pos hz]
  cases bordersAfter none addrs <;> rfl

theorem mem_of_mem_guarded {cnf : Cnf} {L : List TcMprAddr} {n : TcMprAddr} (h : n ∈ guarded cnf L) : n ∈ L := by
  unfold guarded at h
  split at h
  · exact h
  · exact List.mem_of_mem_dropLast h

theorem RecordInStep.congr {E E' : EdgeMap Lq} {a : IpAddr} (h : RecordInStep env E a) (heq : E' a = E a) :
    RecordInStep env E' a := by
  unfold RecordInStep; rw [heq]; exact h

/-- The facts about the run of a fragmented TC: its fragments are decoded in place exactly as far as they
are in step. -/
theorem RunOf.facts : ∀ {fs : List TcFragment} {msgs : List Mem} {s : Lsdb Lq} {rs : List (TcResult Lq)},
    RunOf env hd s msgs fs s' rs → (∀ f ∈ fs, f.Keeps) →
    (env.cnf.lqLevel = 0 → ∀ f ∈ fs, f.lower = 0 ∧ f.upper = 0) →
    (List.Forall₂ (InPlace env) rs fs →
      RunFacts env hd.ansn (allNeighbors fs) (edgesFrom s hd.originator) (edgesFrom s' hd.originator) ∧
      (env.cnf.lqLevel = 0 → ∀ f ∈ fs, InStep env (edgesFrom s hd.originator) f.neighbors)) ∧
    ((∀ f ∈ fs, InStep env (edgesFrom s hd.originator) f.neighbors) →
      (∀ n ∈ allNeighbors fs, (edgesFrom s hd.originator n.1).isSome = true → olsrValidateAddress env.cnf n.1 = true) →
      List.Forall₂ (InPlace env) rs fs)
  | [], msgs, s, rs, h, _, _ => by
    have hmsgs := h.carries
    rw [List.forall₂_nil_right_iff] at hmsgs
    subst hmsgs
    have hrecv := h.receives
    obtain ⟨rfl, rfl⟩ := Prod.mk.inj (Option.some.inj hrecv)
    exact ⟨fun _ => ⟨.nil _ _ _, by simp⟩, fun _ _ => .nil⟩
  | f :: fs, [], s, rs, h, _, _ => by cases h.carries
  | f :: fs, msg :: msgs, s, rs, h, hkeeps, hplain => by
    obtain ⟨r, rs', p, rfl, hacc, hc, hrest⟩ := h.cons
    have hnd := h.nodup
    have hsized := h.sized
    rw [allNeighbors, List.flatMap_cons] at hsized hnd
    rw [List.map_append, List.nodup_append] at hnd
    have hdisj : ∀ n ∈ f.neighbors, n.1 ∉ (allNeighbors fs).map Prod.fst := fun n hn hn' =>
      hnd.2.2 n.1 (List.mem_map_of_mem hn) n.1 hn' rfl
    have hdisj' : ∀ n ∈ allNeighbors fs, n.1 ∉ f.neighbors.map Prod.fst := fun n hn hn' =>
      hnd.2.2 n.1 hn' n.1 (List.mem_map_of_mem hn) rfl
    obtain ⟨hplace, hstep⟩ := hacc.fragment hc (fun n hn => hsized n (List.mem_append_left _ hn)) hnd.1
      (hkeeps f (List.mem_cons_self ..))
    -- the first fragment, when it is in step
    have hfirst : InStep env (edgesFrom s hd.originator) f.neighbors →
        RunFacts env hd.ansn f.neighbors (edgesFrom s hd.originator) (edgesFrom r.db hd.originator) := by
      intro hin
      obtain ⟨E, hst, hE⟩ := hstep hin
      rw [hE]
      exact .of_stamped hst hin fun hlq => tcBorders_eq_none hc (hplain hlq f (List.mem_cons_self ..)) _
    obtain ⟨ih₁, ih₂⟩ := RunOf.facts hrest (fun g hg => hkeeps g (List.mem_cons_of_mem _ hg))
      (fun hlq g hg => hplain hlq g (List.mem_cons_of_mem _ hg))
    refine ⟨fun hall => ?_, fun hin hknown => ?_⟩
    · obtain ⟨hr, hrs⟩ := List.forall₂_cons.1 hall
      have hin := hplace.1 hr
      have hfacts := hfirst hin
      obtain ⟨hfacts', hin'⟩ := ih₁ hrs
      refine ⟨hfacts.append hfacts' hdisj hdisj', fun hlq => ?_⟩
      rw [List.forall_mem_cons]
      refine ⟨hin, fun g hg n hn => (hin' hlq g hg n hn).congr ((hfacts.plain hlq).1 n.1 ?_).symm⟩
      exact hdisj' n (List.mem_flatMap.2 ⟨g, hg, mem_of_mem_guarded hn⟩)
    · rw [List.forall_mem_cons] at hin
      have hfacts := hfirst hin.1
      rw [List.forall₂_cons]
      refine ⟨hplace.2 hin.1, ih₂ (fun g hg n hn => ?_) fun n hn hk => ?_⟩
      · have hmem : n ∈ allNeighbors fs := List.mem_flatMap.2 ⟨g, hg, mem_of_mem_guarded hn⟩
        by_cases hlq : 0 < env.cnf.lqLevel
        · refine .inr ?_
          rcases hin.2 g hg n hn with hk | hv
          · rw [hknown n (List.mem_append_right _ hmem) hk]; simp [hlq]
          · exact hv
        · exact (hin.2 g hg n hn).congr ((hfacts.plain (by omega)).1 n.1 (hdisj' n hmem))
      · by_cases hlq : 0 < env.cnf.lqLevel
        · obtain ⟨g, hg, hng⟩ := List.mem_flatMap.1 hn
          rcases hin.2 g hg n (by rw [guarded, if_pos hlq]; exact hng) with hk' | hv
          · exact hknown n (List.mem_append_right _ hn) hk'
          · rw [hv]; simp [hlq]
        · rw [(hfacts.plain (by omega)).1 n.1 (hdisj' n hn)] at hk
          exact hknown n (List.mem_append_right _ hn) hk

/-- An empty TC that revokes everything leaves no edge. -/
theorem TcAccepted.emptied (hacc : TcAccepted env s msg p r) (hc : Carries env hd msg ⟨0xff, 0xff, []⟩) :
    InPlace env r ⟨0xff, 0xff, []⟩ ∧ edgesFrom r.db hd.originator = fun _ => none := by
  have hsized : WellSized env.cnf (lqSize env.cnf) ([] : List TcMprAddr) := by intro n hn; cases hn
  have hclean := (hc.cleansUp_iff hsized).2 fun hk => hk ⟨rfl, rfl, rfl⟩
  refine ⟨?_, by rw [← hc.originator]; exact hacc.cleaned hclean⟩
  unfold InPlace
  rw [hacc.cursor, tcRecords, recordWalk_of_ge env p _ msg _ hclean.1, addressReads_headerOf]
  rfl

/-! ## Sender and receiver -/

theorem carries_of_sent (horig : hd.originator.length = env.cnf.ipsize) :
    ∀ {fs : List TcFragment} {msgs : List Mem} {seqno : UInt16},
      (∀ f ∈ fs, 12 + env.cnf.ipsize + (records f.neighbors).length < 65536) →
      List.Forall₂ Holds msgs (sentBytes hd seqno fs) → List.Forall₂ (Carries env hd) msgs fs
  | [], msgs, seqno, _, h => by
    rw [sentBytes, List.forall₂_nil_right_iff] at h
    rw [h]; exact .nil
  | f :: fs, [], seqno, _, h => by cases h
  | f :: fs, msg :: msgs, seqno, hfits, h => by
    rw [List.forall_mem_cons] at hfits
    obtain ⟨hmsg, hrest⟩ := List.forall₂_cons.1 h
    exact .cons (carries_of_holds horig hfits.1 hmsg) (carries_of_sent horig hfits.2 hrest)

/-- Every edge of the map is older than `ansn`, or has this very number and leads to one of `addresses`. -/
def NothingNewer (E : EdgeMap Lq) (ansn : UInt16) (addresses : List IpAddr) : Prop :=
  ∀ b d, E b = some d → seqnoGreaterThan ansn d.ansn = true ∨ (d.ansn = ansn ∧ b ∈ addresses)

theorem NothingNewer.mem {E : EdgeMap Lq} {ansn : UInt16} {addresses : List IpAddr} (h : NothingNewer E ansn addresses)
    {b : IpAddr} {d : TcEdgeEntry Lq} (hb : E b = some d) (hd : d.ansn = ansn) : b ∈ addresses := by
  rcases h b d hb with hgt | ⟨-, hmem⟩
  · rw [hd, seqnoGreaterThan_self] at hgt; cases hgt
  · exact hmem

/-- Sender and receiver agree on a TC for the neighbours `ns`: every record was read where it was written,
the edges with the number of the TC are those to the allowed addresses among the neighbours, and they
have the link qualities sent for them. -/
structure TcAgreement (env : Env Lq) (hd : TcHead) (ns : List TcMprAddr) (fs : List TcFragment)
    (rs : List (TcResult Lq)) (E : EdgeMap Lq) : Prop where
  inPlace : List.Forall₂ (InPlace env) rs fs
  edges : ∀ b, (∃ d, E b = some d ∧ d.ansn = hd.ansn) ↔
    b ∈ ns.map Prod.fst ∧ olsrValidateAddress env.cnf b = true
  quality : 0 < env.cnf.lqLevel → ∀ n ∈ ns, ∀ d, E n.1 = some d → d.ansn = hd.ansn →
    d.linkquality = env.lq.deserializeTcLq n.2

/-- With link qualities, every advertised address is allowed. Without them, in every fragment each
allowed address but the last is known already, and no known address is denied. -/
def TcDecodable (env : Env Lq) (E : EdgeMap Lq) (fs : List TcFragment) : Prop :=
  if 0 < env.cnf.lqLevel then ∀ f ∈ fs, ∀ n ∈ f.neighbors, olsrValidateAddress env.cnf n.1 = true
  else ∀ f ∈ fs,
    (∀ n ∈ f.neighbors.dropLast, olsrValidateAddress env.cnf n.1 = true → (E n.1).isSome = true) ∧
    (∀ n ∈ f.neighbors, (E n.1).isSome = true → olsrValidateAddress env.cnf n.1 = true)

theorem tcDecodable_iff (E : EdgeMap Lq) (fs : List TcFragment) : TcDecodable env E fs ↔
    (∀ f ∈ fs, InStep env E f.neighbors) ∧
      ∀ n ∈ allNeighbors fs, (E n.1).isSome = true → olsrValidateAddress env.cnf n.1 = true := by
  have hall : (∀ n ∈ allNeighbors fs, (E n.1).isSome = true → olsrValidateAddress env.cnf n.1 = true) ↔
      ∀ f ∈ fs, ∀ n ∈ f.neighbors, (E n.1).isSome = true → olsrValidateAddress env.cnf n.1 = true := by
    simp only [allNeighbors, List.mem_flatMap, forall_exists_index, and_imp]
    exact ⟨fun h f hf n hn => h n f hf hn, fun h n f hf hn => h f hf n hn⟩
  rw [hall, ← forall₂_and]
  unfold TcDecodable InStep guarded RecordInStep
  by_cases hlq : 0 < env.cnf.lqLevel
  · simp only [hlq, decide_true]
    refine forall₂_congr fun f _ => ⟨fun h => ⟨fun n hn => .inr (h n hn), fun n hn _ => h n hn⟩, fun h n hn => ?_⟩
    exact (h.1 n hn).elim (h.2 n hn) id
  · simp only [hlq, decide_false]
    refine forall₂_congr fun f _ => and_congr_left fun _ => forall₂_congr fun n _ => ?_
    cases olsrValidateAddress env.cnf n.1 <;> simp

/-- The receiver decodes the TC of a sender as it was meant exactly if it is decodable. -/
theorem RunOf.agreement_iff {msgs : List Mem} {fs : List TcFragment} {rs : List (TcResult Lq)} {ns : List TcMprAddr}
    {maxsize : Nat} (h : RunOf env hd s msgs fs s' rs) (hsent : SentAs env.cnf ns maxsize fs)
    (hold : NothingNewer (edgesFrom s hd.originator) hd.ansn (ns.map Prod.fst)) :
    TcAgreement env hd ns fs rs (edgesFrom s' hd.originator) ↔
      TcDecodable env (edgesFrom s hd.originator) fs := by
  by_cases hempty : fs = [⟨0xff, 0xff, []⟩] ∧ 0 < env.cnf.lqLevel
  · -- an empty LQ_TC
    obtain ⟨rfl, hlq⟩ := hempty
    have hns : ns = [] := by simpa using (hsent.withLq hlq).1.symm
    subst hns
    cases msgs with
    | nil => cases h.carries
    | cons msg msgs =>
      obtain ⟨r, rs', p, rfl, hacc, hc, hrest⟩ := h.cons
      have hmsgs := hrest.carries
      rw [List.forall₂_nil_right_iff] at hmsgs
      subst hmsgs
      obtain ⟨rfl, rfl⟩ := Prod.mk.inj (Option.some.inj hrest.receives)
      obtain ⟨hplace, hE⟩ := hacc.emptied hc
      refine iff_of_true ⟨.cons hplace .nil, fun b => ?_, by simp⟩ ?_
      · rw [hE]; simp
      · unfold TcDecodable; rw [if_pos hlq]; simp
  have hkeeps : ∀ f ∈ fs, f.Keeps := by
    intro f hf hk
    by_cases hlq : 0 < env.cnf.lqLevel
    · rcases (hsent.withLq hlq).2 with ⟨-, hne⟩ | hfs
      · exact hne f hf hk.1
      · exact hempty ⟨hfs, hlq⟩
    · have hz := ((hsent.plain (by omega)).1 f hf).1
      rw [hk.2.1] at hz; cases hz
  obtain ⟨hfacts, hplace⟩ := h.facts hkeeps fun hlq => (hsent.plain hlq).1
  have hmem : ∀ b, b ∈ (allNeighbors fs).map Prod.fst ↔ b ∈ ns.map Prod.fst :=
    fun b => by rw [allNeighbors, hsent.addresses]
  rw [tcDecodable_iff]
  constructor
  · intro hag
    obtain ⟨hrun, hstep⟩ := hfacts hag.inPlace
    by_cases hlq : 0 < env.cnf.lqLevel
    · have hvalid : ∀ n ∈ allNeighbors fs, olsrValidateAddress env.cnf n.1 = true := fun n hn =>
        ((hag.edges n.1).1 (hrun.withLq hlq n hn)).2
      refine ⟨fun f hf n hn => .inr ?_, fun n hn _ => hvalid n hn⟩
      rw [hvalid n (List.mem_flatMap.2 ⟨f, hf, mem_of_mem_guarded hn⟩)]; simp [hlq]
    · have hz : env.cnf.lqLevel = 0 := by omega
      refine ⟨hstep hz, fun n hn hk => ?_⟩
      obtain ⟨hsome, hansn⟩ := (hrun.plain hz).2 n hn
      rw [hk, Bool.true_or] at hsome
      obtain ⟨d, hd⟩ := Option.isSome_iff_exists.1 hsome
      exact ((hag.edges n.1).1 ⟨d, hd, hansn d hd⟩).2
  · rintro ⟨hstep, hknown⟩
    have hin := hplace hstep hknown
    obtain ⟨hrun, -⟩ := hfacts hin
    refine ⟨hin, fun b => ⟨?_, ?_⟩, fun hlq n hn d hd _ => ?_⟩
    · rintro ⟨d, hd, hansn⟩
      by_cases hb : b ∈ (allNeighbors fs).map Prod.fst
      · refine ⟨(hmem b).1 hb, ?_⟩
        obtain ⟨n, hn, rfl⟩ := List.mem_map.1 hb
        by_cases hlq : 0 < env.cnf.lqLevel
        · obtain ⟨f, hf, hnf⟩ := List.mem_flatMap.1 hn
          rcases hstep f hf n (by rw [guarded, if_pos hlq]; exact hnf) with hk | hv
          · exact hknown n hn hk
          · rw [hv]; simp [hlq]
        · obtain ⟨hsome, -⟩ := (hrun.plain (by omega)).2 n hn
          rw [hd, Option.isSome_some] at hsome
          rcases Bool.or_eq_true_iff.1 hsome.symm with hk | hv
          · exact hknown n hn hk
          · exact hv
      · -- an edge that had the number before
        exact absurd ((hmem b).2 (hold.mem ((hrun.others b hb d hansn).1 hd) hansn)) hb
    · rintro ⟨hb, hv⟩
      obtain ⟨n, hn, rfl⟩ := List.mem_map.1 ((hmem b).2 hb)
      exact hrun.allowed n hn hv
    · rw [← (hsent.withLq hlq).1] at hn
      exact hrun.quality hlq n hn d hd

/-- For every TC that a node sends in whatever fragments, and every receiver that accepts them in order. -/
theorem tcAgreement_iff {sender : Cnf} (hv : sender.ipVersion = env.cnf.ipVersion)
    (hlevel : sender.lqLevel = 0 ↔ env.cnf.lqLevel = 0) (horig : hd.originator.length = env.cnf.ipsize)
    {ns : List TcMprAddr} (hsized : WellSized env.cnf 4 ns) (hnd : (ns.map Prod.fst).Nodup)
    {timedOut : Bool} {st st' : Sender} (hpend : st.pending ≤ st.maxsize) (hroom : 12 + env.cnf.ipsize ≤ st.maxsize)
    (hmax : st.maxsize < 65536) (hsend : sendTc sender hd timedOut st ns = some st')
    (hw : Wf s) (ho : Ordered env s) (hold : NothingNewer (edgesFrom s hd.originator) hd.ansn (ns.map Prod.fst))
    {msgs : List Mem} (hmsgs : List.Forall₂ Holds msgs (st'.sent.drop st.sent.length)) {rs : List (TcResult Lq)}
    (hrecv : receiveTcs env s msgs = some (s', rs)) (hacc : ∀ r ∈ rs, r.forward = true) :
    ∃ fs, SentAs env.cnf ns st.maxsize fs ∧ List.Forall₂ (Carries env (hd.typed env.cnf)) msgs fs ∧
      (TcAgreement env hd ns fs rs (edgesFrom s' hd.originator) ↔
        TcDecodable env (edgesFrom s hd.originator) fs) := by
  have hip : sender.ipsize = env.cnf.ipsize := by unfold Cnf.ipsize; rw [hv]
  have htyped : hd.typed sender = hd.typed env.cnf := by unfold TcHead.typed; simp only [hlevel]
  have horig' : (hd.typed env.cnf).originator.length = env.cnf.ipsize := horig
  obtain ⟨fs, hfs, hsent⟩ := sendTc_spec (by rw [hip]; exact horig) hpend (by rw [hip]; exact hroom) hmax
    (fun n hn => by rw [hip]; exact hsized n hn) hsend
  have hfs' : SentAs env.cnf ns st.maxsize fs := by
    refine ⟨hfs.addresses, ?_, ?_, ?_⟩
    · rw [← hip]; exact hfs.fits
    · intro hz
      obtain ⟨hflags, hplain⟩ := hfs.plain (hlevel.2 hz)
      exact ⟨hflags, fun n hn => by rw [← hip]; exact hplain n hn⟩
    · exact fun hlq => hfs.withLq (by omega)
  rw [hsent, List.drop_left, htyped] at hmsgs
  have hcar : List.Forall₂ (Carries env (hd.typed env.cnf)) msgs fs :=
    carries_of_sent horig' (fun f hf => lt_of_le_of_lt (hfs'.fits f hf) hmax) hmsgs
  refine ⟨fs, hfs', hcar, ?_⟩
  have hrun : RunOf env (hd.typed env.cnf) s msgs fs s' rs := by
    refine ⟨hw, ho, hcar, ?_, ?_, ?_, hrecv, hacc⟩
    · unfold TcHead.typed
      by_cases hz : env.cnf.lqLevel = 0
      · rw [if_pos hz]; exact .inr rfl
      · rw [if_neg hz]; exact .inl rfl
    · unfold lqSize
      by_cases hlq : 0 < env.cnf.lqLevel
      · rw [if_pos hlq, allNeighbors, (hfs'.withLq hlq).1]; exact hsized
      · rw [if_neg hlq]; exact (hfs'.plain (by omega)).2
    · rw [allNeighbors, hfs'.addresses]; exact hnd
  have hiff := hrun.agreement_iff hfs' hold
  exact ⟨fun h => hiff.1 ⟨h.inPlace, h.edges, h.quality⟩,
    fun h => ⟨(hiff.2 h).inPlace, (hiff.2 h).edges, (hiff.2 h).quality⟩⟩

/-! ## Two new neighbours -/

/-- A node that does not use link qualities. -/
def levelZeroEnv : Env Unit := { plainEnv with cnf := { plainEnv.cnf with lqLevel := 0 } }

def twoNewHead : TcHead := ⟨0, 0x86, [10, 0, 0, 2], 255, 0, 7⟩
def twoNewNeighbors : List TcMprAddr := [([10, 0, 0, 3], [0, 0, 0, 0]), ([10, 0, 0, 4], [0, 0, 0, 0])]

/-- The message of 10.0.0.2 with number 7 that advertises 10.0.0.3 and 10.0.0.4. -/
def twoNewBytes : List UInt8 :=
  [2, 0x86, 0, 24, 10, 0, 0, 2, 255, 0, 0, 100, 0, 7, 0, 0, 10, 0, 0, 3, 10, 0, 0, 4]

def twoNewMsg : Mem := memOf twoNewBytes

/-- A node that keeps the link quality bytes of a TC as they came. -/
def bytesEnv : Env (List UInt8) where
  platform := plainEnv.platform
  cnf := plainEnv.cnf
  lq := ⟨.allFour, id, fun _ => 1, []⟩

def twoLqNeighbors : List TcMprAddr := [([10, 0, 0, 3], [255, 255, 0, 0]), ([10, 0, 0, 4], [128, 255, 0, 0])]

/-- The same neighbours with their link qualities. -/
def twoLqBytes : List UInt8 :=
  [202, 0x86, 0, 32, 10, 0, 0, 2, 255, 0, 0, 100, 0, 7, 255, 255, 10, 0, 0, 3, 255, 255, 0, 0, 10, 0, 0, 4,
    128, 255, 0, 0]

theorem twoLqSent : sendTc bytesEnv.cnf twoNewHead true ⟨0, 1472, 100, []⟩ twoLqNeighbors =
    some ⟨32, 1472, 101, [twoLqBytes]⟩ := rfl

/-- A first message is accepted by a node that knows nothing. -/
theorem receiveTcs_first (env : Env Lq) (msg : Mem) (htype : IsTc msg) (hmain : env.cnf.HasMainAddr) :
    ∃ r p, receiveTcs env (emptyLsdb Lq) [msg] = some (r.db, [r]) ∧ TcAccepted env (emptyLsdb Lq) msg p r := by
  have hgate : GateOpen (emptyLsdb Lq) (headerOf env msg) := fun p t hp => by cases hp
  obtain ⟨r, p, hr, hacc⟩ := olsrInputTc_accepted env (wf_empty Lq) (fun _ _ h => by cases h) htype hgate fun _ => hmain
  exact ⟨r, p, by rw [receiveTcs, hr]; rfl, hacc⟩

/-- With link qualities both arrive, with the bytes sent for them. -/
theorem tcAgreement_twoNew :
    ∃ s' rs fs, receiveTcs bytesEnv (emptyLsdb (List UInt8)) [memOf twoLqBytes] = some (s', rs) ∧
    TcAgreement bytesEnv twoNewHead twoLqNeighbors fs rs (edgesFrom s' [10, 0, 0, 2]) := by
  obtain ⟨r, p, hrecv, hacc⟩ := receiveTcs_first bytesEnv (memOf twoLqBytes) (.inl rfl) rfl
  have hsized : WellSized bytesEnv.cnf 4 twoLqNeighbors := by unfold WellSized; decide
  obtain ⟨fs, hsent, -, hiff⟩ := tcAgreement_iff rfl Iff.rfl rfl hsized (by decide) (Nat.zero_le _) (by decide)
    (by decide) twoLqSent (wf_empty _) (fun _ _ h => by cases h) (fun b d h => by cases h)
    (.cons (holds_memOf twoLqBytes) .nil) hrecv (by simpa using hacc.forward)
  refine ⟨r.db, [r], fs, hrecv, hiff.2 ?_⟩
  have hallowed : ∀ n ∈ twoLqNeighbors, olsrValidateAddress bytesEnv.cnf n.1 = true := by decide
  rw [← (hsent.withLq (by decide)).1] at hallowed
  unfold TcDecodable
  rw [if_pos (by decide)]
  exact fun f hf n hn => hallowed n (List.mem_flatMap.2 ⟨f, hf, hn⟩)

/-- The second address is taken for the link quality of the first: no edge leads to it. -/
theorem twoNew_disagree : sendTc levelZeroEnv.cnf twoNewHead true ⟨0, 1472, 100, []⟩ twoNewNeighbors =
      some ⟨24, 1472, 101, [twoNewBytes]⟩ ∧ olsrValidateAddress levelZeroEnv.cnf [10, 0, 0, 4] = true ∧
    ∃ s' rs, receiveTcs levelZeroEnv (emptyLsdb Unit) [twoNewMsg] = some (s', rs) ∧ (∀ r ∈ rs, r.forward = true) ∧
      edgesFrom s' [10, 0, 0, 2] [10, 0, 0, 4] = none := by
  obtain ⟨r, p, hrecv, hacc⟩ := receiveTcs_first levelZeroEnv twoNewMsg (.inr rfl) rfl
  refine ⟨rfl, rfl, r.db, [r], hrecv, by simpa using hacc.forward, ?_⟩
  have hclean : ¬ (headerOf levelZeroEnv twoNewMsg).cleansUp := fun h => absurd h.1 (by decide)
  have hedges := hacc.edges hclean
  have hnone : edgesFrom (emptyLsdb Unit) (headerOf levelZeroEnv twoNewMsg).originator = fun _ => none := rfl
  have hborders : ∀ addrs, tcBorders levelZeroEnv (headerOf levelZeroEnv twoNewMsg) addrs = none := by
    intro addrs
    unfold tcBorders
    cases bordersAfter none addrs <;> rfl
  rw [hborders, hnone] at hedges
  unfold tcRecords at hedges
  rw [recordWalk, if_pos (by decide)] at hedges
  simp only at hedges
  rw [recordWalk_of_ge _ _ _ _ _ (by decide)] at hedges
  have hb : edgesFrom r.db [10, 0, 0, 2] = edgesFrom r.db (headerOf levelZeroEnv twoNewMsg).originator := rfl
  have hne : ([10, 0, 0, 4] : IpAddr) ≠ recordAddr levelZeroEnv twoNewMsg (headerOf levelZeroEnv twoNewMsg).cursor := by
    decide
  rw [hb, hedges]
  simp only [revokeWithin, Function.update_of_ne hne]

end Olsrd.Topology
