/-
Which messages make a decoder read outside of them. A decoder stays inside exactly if its cursor ends
inside, and the cursor ends inside exactly if the records it finds tile the message.
-/
import Olsrd.Packet.Decoders
import Olsrd.Packet.Parser
import Olsrd.Topology.Reachable
import Olsrd.Topology.TcProcess

namespace Olsrd

open Bytes Olsrd.Topology

/-! ## Records that tile a message -/

section Tiling

variable {σ : Type} (pos : σ → Nat) (next : σ → σ) (limit : Nat)

/-- Records that start one behind the other from `x` on end at `limit`. -/
inductive Tiles : σ → Prop
  | done {x : σ} (h : pos x = limit) : Tiles x
  | step {x : σ} (h : pos x < limit) (rest : Tiles (next x)) : Tiles x

variable {pos next limit}

theorem tiles_iff_of_ge {x : σ} (h : limit ≤ pos x) : Tiles pos next limit x ↔ pos x ≤ limit := by
  constructor
  · intro ht
    cases ht with
    | done hx => omega
    | step hx => omega
  · intro hle; exact .done (by omega)

theorem tiles_iff_of_lt {x : σ} (h : pos x < limit) :
    Tiles pos next limit x ↔ Tiles pos next limit (next x) := by
  constructor
  · intro ht
    cases ht with
    | done hx => omega
    | step _ rest => exact rest
  · exact .step h

end Tiling

/-! ## Cursors -/

/-- The reads stay below `n` exactly if the cursor does, which is aligned. -/
structure Exact (n : Nat) (c : Cursor) : Prop where
  inside : Within n c.reads ↔ c.curr ≤ n
  aligned : c.curr % 4 = 0

namespace Exact

variable {n : Nat} {c : Cursor} {msg : Mem} {cnf : Cnf}

theorem get (h : Exact n c) {len : Nat} (hpos : 0 < len) (hlen : len % 4 = 0) : Exact n (c.get len) := by
  refine ⟨?_, ?_⟩
  · rw [within_get c hpos, h.inside, Cursor.get_curr]; omega
  · have := h.aligned; rw [Cursor.get_curr]; omega

theorem ipaddress (h : Exact n c) (cnf : Cnf) : Exact n (c.get cnf.ipsize) :=
  h.get cnf.ipsize_pos (by rcases cnf.ipsize_cases with h | h <;> rw [h])

theorem lqPair (h : Exact n c) (hn : n % 4 = 0) (pair : PairReads) (msg : Mem) :
    Exact n (deserializeLqPair pair msg c).2 := by
  refine ⟨?_, ?_⟩
  · rw [within_deserializeLqPair pair msg c hn h.aligned, h.inside, deserializeLqPair_curr]; omega
  · have := h.aligned; rw [deserializeLqPair_curr]; omega

end Exact

/-! ## HELLO -/

variable {cnf : Cnf} {msg : Mem}

/-- The bytes of one neighbour in a link block. -/
def neighborSize (cnf : Cnf) (lq : Bool) : Nat := cnf.ipsize + if lq then 4 else 0

/-- The end of the link block at `o`: as many neighbours as start before the end its header gives. -/
def blockEnd (cnf : Cnf) (msg : Mem) (lq : Bool) (o : Nat) : Nat :=
  let rec_ := neighborSize cnf lq
  o + 4 + (msg.u16 (o + 2) - 4 + (rec_ - 1)) / rec_ * rec_

theorem neighborSize_pos (cnf : Cnf) (lq : Bool) : 0 < neighborSize cnf lq := by
  have := cnf.ipsize_pos; unfold neighborSize; omega

theorem Exact.helloNeighbor {n : Nat} {c : Cursor} (h : Exact n c) (hn : n % 4 = 0) (pair : PairReads) (lq : Bool)
    (linkCode : UInt8) : Exact n (helloNeighbor cnf pair msg lq linkCode c).2 := by
  cases lq
  · exact h.ipaddress cnf
  · exact (h.ipaddress cnf).lqPair hn pair msg

theorem Exact.helloBlock {n : Nat} {c : Cursor} (h : Exact n c) (hn : n % 4 = 0) (pair : PairReads) (lq : Bool)
    (linkCode : UInt8) (limit2 : Nat) (ns : List HelloNeighbor) :
    Exact n (helloBlock cnf pair msg lq linkCode limit2 c ns).2 := by
  fun_induction Olsrd.helloBlock cnf pair msg lq linkCode limit2 c ns with
  | case1 c ns hlt neigh ih => exact ih (h.helloNeighbor hn pair lq linkCode)
  | case2 c ns hlt => exact h

/-- The number of records of size `r` that start below `limit`. -/
theorem ceil_step {limit o r : Nat} (hr : 0 < r) (h : o < limit) :
    o + (limit - o + (r - 1)) / r * r = o + r + (limit - (o + r) + (r - 1)) / r * r := by
  by_cases hle : o + r ≤ limit
  · have : limit - o + (r - 1) = limit - (o + r) + (r - 1) + r := by omega
    rw [this, Nat.add_div_right _ hr, Nat.succ_mul]; omega
  · have h1 : (limit - o + (r - 1)) / r = 1 := Nat.div_eq_of_lt_le (by omega) (by omega)
    have h2 : (limit - (o + r) + (r - 1)) / r = 0 := Nat.div_eq_of_lt (by omega)
    rw [h1, h2]; omega

theorem helloBlock_end (pair : PairReads) (lq : Bool) (linkCode : UInt8) (limit2 : Nat) (c : Cursor)
    (ns : List HelloNeighbor) : (helloBlock cnf pair msg lq linkCode limit2 c ns).2.curr =
      c.curr + (limit2 - c.curr + (neighborSize cnf lq - 1)) / neighborSize cnf lq * neighborSize cnf lq := by
  have hr := neighborSize_pos cnf lq
  fun_induction helloBlock cnf pair msg lq linkCode limit2 c ns with
  | case1 c ns hlt neigh ih =>
    have hcurr : neigh.2.curr = c.curr + neighborSize cnf lq := helloNeighbor_curr cnf pair msg lq linkCode c
    rw [ih, hcurr, ceil_step hr hlt]
  | case2 c ns hlt =>
    rw [Nat.div_eq_of_lt (by omega)]; simp

theorem Exact.blockHeader {n : Nat} {c : Cursor} (h : Exact n c) : Exact n (((c.get 1).ignore 1).get 2) := by
  refine ⟨?_, ?_⟩
  · simp only [within_get _ Nat.two_pos, Cursor.ignore_reads, within_get c Nat.one_pos, h.inside, Cursor.ignore_curr,
      Cursor.get_curr]
    omega
  · have := h.aligned
    simp only [Cursor.get_curr, Cursor.ignore_curr]; omega

theorem Exact.helloLink {n : Nat} {c : Cursor} (h : Exact n c) (hn : n % 4 = 0) (pair : PairReads) (lq : Bool)
    (ns : List HelloNeighbor) : Exact n (helloLink cnf pair msg lq c ns).2 :=
  h.blockHeader.helloBlock hn pair lq _ _ ns

theorem helloLink_end (pair : PairReads) (lq : Bool) (c : Cursor) (ns : List HelloNeighbor) :
    (helloLink cnf pair msg lq c ns).2.curr = blockEnd cnf msg lq c.curr := by
  unfold helloLink
  rw [helloBlock_end]
  simp only [pktGetU8_snd, pktGetU16, Cursor.get_curr, Cursor.ignore_curr]
  unfold blockEnd
  have : c.curr + msg.u16 (c.curr + 2) - (c.curr + 4) = msg.u16 (c.curr + 2) - 4 := by omega
  simp only [Nat.add_assoc, Nat.reduceAdd]
  rw [this]

/-- The link loop ends inside the message exactly if the link blocks tile it. -/
theorem helloLinks_inside (pair : PairReads) (lq : Bool) {n : Nat} {c : Cursor} (h : Exact n c) (hn : n % 4 = 0)
    (ns : List HelloNeighbor) :
    Within n (helloLinks cnf pair msg lq n c ns).2.reads ↔ Tiles id (blockEnd cnf msg lq) n c.curr := by
  fun_induction helloLinks cnf pair msg lq n c ns with
  | case1 c ns hlt link ih =>
    rw [ih (h.helloLink hn pair lq ns), tiles_iff_of_lt (x := c.curr) hlt, helloLink_end]
  | case2 c ns hlt =>
    rw [tiles_iff_of_ge (x := c.curr) (not_lt.1 hlt), h.inside]; rfl

/-- A HELLO has room for its header, and its link blocks tile the rest. -/
def HelloFits (cnf : Cnf) (msg : Mem) : Prop :=
  (msg 0).toNat = helloMessage ∨ (msg 0).toNat = lqHelloMessage →
    12 + cnf.ipsize ≤ msg.u16 2 ∧
      Tiles id (blockEnd cnf msg ((msg 0).toNat == lqHelloMessage)) (msg.u16 2) (12 + cnf.ipsize)

theorem within_start (n : Nat) : Within n Cursor.start.reads := within_nil n

/-- The message passed the checks of `parse_packet`. -/
structure Checked (cnf : Cnf) (msg : Mem) : Prop where
  size : minMsgsize cnf ≤ msg.u16 2
  aligned : msg.u16 2 % 4 = 0

theorem Checked.header (h : Checked cnf msg) : 8 + cnf.ipsize ≤ msg.u16 2 := h.size

theorem deserializeHello_inside (pair : PairReads) (h : Checked cnf msg) :
    Within (msg.u16 2) (deserializeHello cnf pair msg).2.reads ↔ HelloFits cnf msg := by
  have hsize := h.header
  have hip := cnf.ipsize_pos
  by_cases htype : (msg 0).toNat = helloMessage ∨ (msg 0).toNat = lqHelloMessage
  · have htype' : ¬ ((msg 0).toNat ≠ helloMessage ∧ (msg 0).toNat ≠ lqHelloMessage) := by tauto
    -- the header, up to the willingness
    let c := ((((((((((Cursor.start.get 1).get 1).get 2).get cnf.ipsize).get 1).get 1).get 2).ignore 2).get 1).get 1)
    have hcurr : c.curr = 12 + cnf.ipsize := by simp [c]; omega
    have hexact : Exact (msg.u16 2) c := by
      refine ⟨?_, ?_⟩
      · rw [hcurr]
        simp only [c, within_get _ Nat.one_pos, within_get _ Nat.two_pos, within_get _ hip, Cursor.ignore_reads,
          Cursor.ignore_curr, Cursor.get_curr, Cursor.start_curr, within_start, and_true]
        omega
      · rw [hcurr]
        rcases cnf.ipsize_cases with h | h <;> rw [h]
    have hreads : (deserializeHello cnf pair msg).2.reads =
        (helloLinks cnf pair msg ((msg 0).toNat == lqHelloMessage) (msg.u16 2) c []).2.reads := by
      unfold deserializeHello
      exact congrArg (fun x : Option HelloMessage × Cursor => x.2.reads) (if_neg htype')
    rw [hreads, helloLinks_inside pair _ hexact h.aligned, hcurr]
    refine ⟨fun ht _ => ⟨?_, ht⟩, fun hf => (hf htype).2⟩
    cases ht with
    | done hx => exact le_of_eq hx
    | step hx => exact le_of_lt hx
  · have htype' : (msg 0).toNat ≠ helloMessage ∧ (msg 0).toNat ≠ lqHelloMessage := by tauto
    have hreads : (deserializeHello cnf pair msg).2.reads = (Cursor.start.get 1).reads := by
      unfold deserializeHello
      exact congrArg (fun x : Option HelloMessage × Cursor => x.2.reads) (if_pos htype')
    rw [hreads, within_get _ Nat.one_pos]
    refine iff_of_true ⟨?_, within_start _⟩ fun hf => absurd hf htype
    rw [Cursor.start_curr]; omega

/-! ## MID and HNA -/

/-- The aliases of a MID are whole addresses behind its header. For IPv4 this is the alignment of the
message; for IPv6 the number of aliases is computed with the IPv4 header size. -/
def MidFits (cnf : Cnf) (msg : Mem) : Prop :=
  (msg 0).toNat = midMessage → (msg.u16 2 - (8 + cnf.ipsize)) % cnf.ipsize = 0

theorem within_append {n : Nat} {rs rs' : List (Nat × Nat)} : Within n (rs ++ rs') ↔ Within n rs ∧ Within n rs' := by
  unfold Within; rw [List.forall_mem_append]

theorem aliases_inside (n k : Nat) (hn : 8 + cnf.ipsize ≤ n) :
    Within n ((List.range k).map fun i => (aliasAt cnf i, cnf.ipsize)) ↔ aliasAt cnf k ≤ n := by
  have hip := cnf.ipsize_pos
  induction k with
  | zero => simpa [aliasAt, within_nil] using hn
  | succ k ih =>
    have hstep : aliasAt cnf (k + 1) = aliasAt cnf k + cnf.ipsize := by unfold aliasAt; rw [Nat.succ_mul]; omega
    rw [List.range_succ, List.map_append, within_append, List.map_singleton, within_cons hip, hstep]
    refine (and_congr_left' ih).trans ?_
    exact ⟨fun h => h.2.1, fun h => ⟨by omega, h, within_nil n⟩⟩

theorem midChgestruct_inside (h : Checked cnf msg) :
    Within (msg.u16 2) (midChgestruct cnf msg).2 ↔ MidFits cnf msg := by
  have hsize := h.header
  have halign := h.aligned
  have hip := cnf.ipsize_pos
  unfold midChgestruct MidFits
  by_cases htype : (msg 0).toNat = midMessage
  · have hhead : Within (msg.u16 2) ((0, 1) :: (2, 2) :: (4, cnf.ipsize) :: (6 + cnf.ipsize, 2) :: (1, 1) ::
        (List.range (noAliases cnf (msg.u16 2))).map fun i => (aliasAt cnf i, cnf.ipsize)) ↔
        aliasAt cnf (noAliases cnf (msg.u16 2)) ≤ msg.u16 2 := by
      simp only [within_cons Nat.one_pos, within_cons Nat.two_pos, within_cons hip, aliases_inside _ _ hsize]
      omega
    rw [if_neg (by simpa using htype), hhead]
    unfold aliasAt noAliases
    rcases cnf.ipsize_cases with h4 | h16
    · rw [h4] at hsize ⊢; omega
    · rw [h16] at hsize ⊢; omega
  · rw [if_pos (by simpa using htype)]
    refine iff_of_true ?_ fun hf => absurd hf htype
    rw [within_cons Nat.one_pos]
    exact ⟨by omega, within_nil _⟩

/-- Network records tile a HNA message, whose size was checked. -/
theorem hnaRecords_inside {n : Nat} {c : Cursor} (h : Exact n c) (hle : c.curr ≤ n)
    (hdvd : 2 * cnf.ipsize ∣ n - c.curr) : Within n (hnaRecords cnf msg n c).2.reads := by
  fun_induction hnaRecords cnf msg n c with
  | case1 c hlt pfx mask rest ih =>
    have hcurr : mask.2.curr = c.curr + 2 * cnf.ipsize := by
      show c.curr + cnf.ipsize + cnf.ipsize = _
      omega
    obtain ⟨k, hk⟩ := hdvd
    cases k with
    | zero => omega
    | succ k =>
      rw [Nat.mul_add, Nat.mul_one] at hk
      exact ih ((h.ipaddress cnf).ipaddress cnf) (by omega) ⟨k, by omega⟩
  | case2 c hlt => exact h.inside.2 hle

theorem olsrInputHna_inside (symLink : Bool) (h : Checked cnf msg) :
    Within (msg.u16 2) (olsrInputHna cnf symLink msg).2.reads := by
  have hsize := h.header
  have hip := cnf.ipsize_pos
  let c := ((((((Cursor.start.get 1).get 1).get 2).get cnf.ipsize).ignore 1).get 1).get 2
  have hcurr : c.curr = 8 + cnf.ipsize := by simp [c]; omega
  have hexact : Exact (msg.u16 2) c := by
    refine ⟨?_, ?_⟩
    · rw [hcurr]
      simp only [c, within_get _ Nat.one_pos, within_get _ Nat.two_pos, within_get _ hip, Cursor.ignore_reads,
        Cursor.ignore_curr, Cursor.get_curr, Cursor.start_curr, within_start, and_true]
      omega
    · rw [hcurr]
      rcases cnf.ipsize_cases with h | h <;> rw [h]
  have hheader : Within (msg.u16 2) c.reads := hexact.inside.2 (by rw [hcurr]; exact hsize)
  unfold olsrInputHna
  by_cases htype : (pktGetU8 msg .start).1.toNat ≠ hnaMessage
  · rw [if_pos htype]
    exact (within_get _ Nat.one_pos).2 ⟨by rw [Cursor.start_curr]; omega, within_start _⟩
  rw [if_neg htype]
  change Within (msg.u16 2) (if (msg.u16 2 - 8 - cnf.ipsize) % (2 * cnf.ipsize) ≠ 0 then (none, c)
    else if (!symLink) = true then (none, c)
    else (some (hnaRecords cnf msg (msg.u16 2) c).1, (hnaRecords cnf msg (msg.u16 2) c).2)).2.reads
  by_cases hrecords : (msg.u16 2 - 8 - cnf.ipsize) % (2 * cnf.ipsize) ≠ 0
  · rw [if_pos hrecords]; exact hheader
  rw [if_neg hrecords]
  cases symLink with
  | false => exact hheader
  | true =>
    refine hnaRecords_inside hexact (by rw [hcurr]; exact hsize) ?_
    rw [hcurr, ← Nat.sub_sub]
    exact Nat.dvd_of_mod_eq_zero (not_not.1 hrecords)

/-! ## TC -/

variable {Lq : Type} {env : Env Lq}

/-- The bytes of the record at `o`, when the originator has edges to the addresses in `known`: a new edge
always has its link quality in the record, a known one only if link qualities are configured. -/
def recordSize (env : Env Lq) (msg : Mem) (known : IpAddr → Bool) (o : Nat) : Nat :=
  let a := msg.slice o env.cnf.ipsize
  if (if known a then decide (0 < env.cnf.lqLevel) else olsrValidateAddress env.cnf a) then env.cnf.ipsize + 4
  else env.cnf.ipsize

/-- From one record to the next: the addresses known by then, and the offset. -/
def nextRecord (env : Env Lq) (msg : Mem) (x : (IpAddr → Bool) × Nat) : (IpAddr → Bool) × Nat :=
  let a := msg.slice x.2 env.cnf.ipsize
  (Function.update x.1 a (x.1 a || olsrValidateAddress env.cnf a), x.2 + recordSize env msg x.1 x.2)

/-- The addresses a map has edges to. -/
def knownIn (E : EdgeMap Lq) : IpAddr → Bool := fun a => (E a).isSome

theorem Exact.recordCursor {n : Nat} {c : Cursor} (h : Exact n c) (hn : n % 4 = 0) (env : Env Lq) (msg : Mem)
    (o : Option (TcEdgeEntry Lq)) : Exact n (recordCursor env msg c o) := by
  unfold Topology.recordCursor
  cases o with
  | none => dsimp only; split; exacts [(h.ipaddress env.cnf).lqPair hn _ _, h.ipaddress env.cnf]
  | some d => dsimp only; split; exacts [(h.ipaddress env.cnf).lqPair hn _ _, h.ipaddress env.cnf]

theorem knownIn_update (E : EdgeMap Lq) (a : IpAddr) (o : Option (TcEdgeEntry Lq)) :
    knownIn (Function.update E a o) = Function.update (knownIn E) a o.isSome := by
  funext b
  unfold knownIn
  by_cases hb : b = a
  · subst hb; simp
  · simp [hb]

theorem nextRecord_eq (env : Env Lq) (p : Ptr) (ansn : UInt16) (msg : Mem) (c : Cursor) (E : EdgeMap Lq) :
    nextRecord env msg (knownIn E, c.curr) =
      (knownIn (Function.update E (recordAddr env msg c) (recordEdge env p ansn msg c (E (recordAddr env msg c)))),
        (recordCursor env msg c (E (recordAddr env msg c))).curr) := by
  rw [knownIn_update, recordEdge_isSome, recordCursor_end]
  rfl

/-- The record loop ends inside the message exactly if the records tile it. -/
theorem recordWalk_inside (env : Env Lq) (p : Ptr) (ansn : UInt16) (msg : Mem) {n : Nat} (E : EdgeMap Lq) {c : Cursor}
    (h : Exact n c) (hn : n % 4 = 0) : Within n (recordWalk env p ansn msg n E c).2.1.reads ↔
      Tiles Prod.snd (nextRecord env msg) n (knownIn E, c.curr) := by
  fun_induction recordWalk env p ansn msg n E c with
  | case1 E c hlt a rest ih =>
    rw [tiles_iff_of_lt (x := (knownIn E, c.curr)) hlt, nextRecord_eq env p ansn msg c E]
    exact ih (h.recordCursor hn env msg (E a))
  | case2 E c hlt =>
    rw [tiles_iff_of_ge (x := (knownIn E, c.curr)) (not_lt.1 hlt), h.inside]

/-- A border flag names a bit of the address, or `0xff` clears no more than the address. -/
def FlagFits (platform : Platform) (cnf : Cnf) (flag : UInt8) : Prop :=
  if flag = 0xff then platform.sizeofPtr ≤ cnf.ipsize else 1 ≤ flag.toNat ∧ flag.toNat ≤ 8 * cnf.ipsize

theorem borderIndices_inside (platform : Platform) (cnf : Cnf) (flag : UInt8) :
    (∀ i ∈ borderIndices platform cnf flag, 0 ≤ i ∧ i < (cnf.ipsize : Int)) ↔ FlagFits platform cnf flag := by
  have hip := cnf.ipsize_pos
  unfold borderIndices FlagFits
  by_cases hff : flag = 0xff
  · rw [if_pos hff, if_pos hff]
    rw [List.forall_mem_map]
    simp only [List.mem_range]
    constructor
    · intro h
      by_contra hlt
      have := (h cnf.ipsize (by omega)).2
      omega
    · intro h i hi
      omega
  · rw [if_neg hff, if_neg hff]
    have hbits : (flag - 1).toNat = if flag.toNat = 0 then 255 else flag.toNat - 1 := by
      rw [UInt8.toNat_sub]
      have := flag.toNat_lt
      split <;> simp <;> omega
    have hlt := flag.toNat_lt
    rw [List.forall_mem_append, List.forall_mem_map, List.forall_mem_singleton, hbits]
    simp only [List.mem_range]
    rcases cnf.ipsize_cases with h | h
    · rw [h]
      constructor
      · rintro ⟨-, hlast⟩
        split at hlast <;> omega
      · rintro ⟨h1, h2⟩
        rw [if_neg (by omega)]
        exact ⟨fun i hi => by omega, by omega⟩
    · rw [h]
      constructor
      · rintro ⟨-, hlast⟩
        split at hlast <;> omega
      · rintro ⟨h1, h2⟩
        rw [if_neg (by omega)]
        exact ⟨fun i hi => by omega, by omega⟩

def BordersFit (platform : Platform) (cnf : Cnf) (lowerBorder upperBorder : UInt8) : Prop :=
  (lowerBorder = 0 ∧ upperBorder = 0) ∨ (FlagFits platform cnf lowerBorder ∧ FlagFits platform cnf upperBorder)

theorem tcBorderWrites_inside (platform : Platform) (cnf : Cnf) (lowerBorder upperBorder : UInt8) :
    (∀ i ∈ tcBorderWrites platform cnf lowerBorder upperBorder, 0 ≤ i ∧ i < (cnf.ipsize : Int)) ↔
      BordersFit platform cnf lowerBorder upperBorder := by
  unfold tcBorderWrites BordersFit
  by_cases h : lowerBorder = 0 ∧ upperBorder = 0
  · rw [if_pos h]
    exact iff_of_true (by simp) (.inl h)
  · rw [if_neg h, List.forall_mem_append, borderIndices_inside, borderIndices_inside]
    exact ⟨.inr, fun hor => hor.resolve_left h⟩

/-- A TC from a symmetric neighbour has room for its header. If its sequence numbers let it through, its
originator has an entry or can be given one, its records tile the message, and with a record its
border flags fit. -/
def TcFits (env : Env Lq) (s : Lsdb Lq) (symLink : Bool) (msg : Mem) : Prop :=
  IsTc msg → symLink = true →
    12 + env.cnf.ipsize ≤ msg.u16 2 ∧ (GateOpen s (headerOf env msg) →
      EntryAvailable env s (headerOf env msg).originator ∧
      Tiles Prod.snd (nextRecord env msg) (msg.u16 2)
        (knownIn (edgesFrom s (headerOf env msg).originator), 12 + env.cnf.ipsize) ∧
      (12 + env.cnf.ipsize < msg.u16 2 →
        BordersFit env.platform env.cnf (headerOf env msg).lowerBorder (headerOf env msg).upperBorder))

theorem headerOf_cursor (h : Checked env.cnf msg) :
    Exact (msg.u16 2) (headerOf env msg).cursor ∧ (headerOf env msg).cursor.curr = 12 + env.cnf.ipsize := by
  have hsize := h.header
  have hip := env.cnf.ipsize_pos
  have hcurr : (headerOf env msg).cursor.curr = 12 + env.cnf.ipsize := by simp [headerOf, tcHeader]; omega
  refine ⟨⟨?_, ?_⟩, hcurr⟩
  · rw [hcurr]
    simp only [headerOf, tcHeader, pktGetU8_snd, pktGetU16_snd, pktGetReltime_snd, pktGetIpaddress_snd,
      within_get _ Nat.one_pos, within_get _ Nat.two_pos, within_get _ hip, Cursor.get_curr, Cursor.start_curr,
      within_start, and_true]
    omega
  · rw [hcurr]
    rcases env.cnf.ipsize_cases with h | h <;> rw [h]

/-- `olsr_input_tc` reads inside the message and writes inside the border addresses. -/
def TcInside (env : Env Lq) (s : Lsdb Lq) (symLink : Bool) (msg : Mem) : Prop :=
  ∃ r, olsrInputTc env s symLink msg = some r ∧ Within (msg.u16 2) r.cursor.reads ∧
    ∀ i ∈ r.borderWrites, 0 ≤ i ∧ i < (env.cnf.ipsize : Int)

theorem recordWalk_addrs_eq_nil (env : Env Lq) (p : Ptr) (ansn : UInt16) (msg : Mem) (n : Nat) (E : EdgeMap Lq)
    (c : Cursor) : (recordWalk env p ansn msg n E c).2.2 = [] ↔ n ≤ c.curr := by
  rw [recordWalk]
  split
  · exact iff_of_false (by simp) (by omega)
  · exact iff_of_true rfl (by omega)

theorem olsrInputTc_inside {s : Lsdb Lq} (hw : Wf s) (ho : Ordered env s) (symLink : Bool)
    (h : Checked env.cnf msg) : TcInside env s symLink msg ↔ TcFits env s symLink msg := by
  obtain ⟨hexact, hcurr⟩ := headerOf_cursor h
  have hsize := h.header
  by_cases htc : IsTc msg ∧ symLink = true
  · obtain ⟨htype, rfl⟩ := htc
    have hfits : TcFits env s true msg ↔ _ := ⟨fun hf => hf htype rfl, fun hf _ _ => hf⟩
    rw [hfits]
    by_cases hgate : GateOpen s (headerOf env msg)
    · by_cases hentry : EntryAvailable env s (headerOf env msg).originator
      · -- accepted
        obtain ⟨r, p, hr, hacc⟩ := olsrInputTc_accepted env hw ho htype hgate hentry
        have hin : TcInside env s true msg ↔ Within (msg.u16 2) r.cursor.reads ∧
            ∀ i ∈ r.borderWrites, 0 ≤ i ∧ i < (env.cnf.ipsize : Int) := by
          refine ⟨fun ⟨r', hr', h'⟩ => ?_, fun h' => ⟨r, hr, h'⟩⟩
          rw [hr] at hr'
          rw [Option.some.inj hr']; exact h'
        have hwalk := recordWalk_inside env p (headerOf env msg).ansn msg
          (edgesFrom s (headerOf env msg).originator) hexact h.aligned
        rw [hcurr] at hwalk
        have hreads : Within (msg.u16 2) r.cursor.reads ↔ Tiles Prod.snd (nextRecord env msg) (msg.u16 2)
            (knownIn (edgesFrom s (headerOf env msg).originator), 12 + env.cnf.ipsize) := by
          rw [hacc.cursor]; exact hwalk
        have hwrites : (∀ i ∈ r.borderWrites, 0 ≤ i ∧ i < (env.cnf.ipsize : Int)) ↔
            (12 + env.cnf.ipsize < msg.u16 2 →
              BordersFit env.platform env.cnf (headerOf env msg).lowerBorder (headerOf env msg).upperBorder) := by
          rw [hacc.borderWrites]
          have hnil := recordWalk_addrs_eq_nil env p (headerOf env msg).ansn msg (msg.u16 2)
            (edgesFrom s (headerOf env msg).originator) (headerOf env msg).cursor
          rw [hcurr] at hnil
          split
          · rename_i hno
            exact iff_of_true (by simp) fun hlt => absurd (hnil.1 hno) (by omega)
          · rename_i hno
            rw [tcBorderWrites_inside]
            exact ⟨fun hb _ => hb, fun hb => hb (not_le.1 fun hle => hno (hnil.2 hle))⟩
        rw [hin, hreads, hwrites]
        constructor
        · rintro ⟨htiles, hb⟩
          refine ⟨?_, fun _ => ⟨hentry, htiles, hb⟩⟩
          cases htiles with
          | done hx => exact le_of_eq hx
          | step hx => exact le_of_lt hx
        · rintro ⟨-, hrest⟩
          exact (hrest hgate).2
      · -- the entry cannot be created
        refine iff_of_false ?_ fun hf => hentry (hf.2 hgate).1
        rintro ⟨r, hr, -⟩
        rw [olsrInputTc_eq_none env htype hentry] at hr; cases hr
    · -- refused
      obtain ⟨s', -, hr⟩ := olsrInputTc_refused env hw htype hgate
      constructor
      · rintro ⟨r, hr', hreads, -⟩
        rw [hr] at hr'
        rw [← Option.some.inj hr'] at hreads
        exact ⟨by rw [← hcurr]; exact hexact.inside.1 hreads, fun hopen => absurd hopen hgate⟩
      · rintro ⟨hroom, -⟩
        exact ⟨_, hr, hexact.inside.2 (by rw [hcurr]; exact hroom), by simp⟩
  · refine iff_of_true ⟨_, olsrInputTc_ignored env s htc, ?_, by simp⟩ fun h1 h2 => absurd ⟨h1, h2⟩ htc
    exact (within_get _ Nat.one_pos).2 ⟨by rw [Cursor.start_curr]; omega, within_start _⟩

/-! ## All decoders -/

/-- Every decoder stays inside the message, and the border addresses are written inside. -/
structure DecodersInside (env : Env Lq) (s : Lsdb Lq) (symLink : Bool) (msg : Mem) : Prop where
  hello : Within (msg.u16 2) (deserializeHello env.cnf env.lq.pair msg).2.reads
  tc : TcInside env s symLink msg
  mid : Within (msg.u16 2) (midChgestruct env.cnf msg).2
  hna : Within (msg.u16 2) (olsrInputHna env.cnf symLink msg).2.reads

/-- Any message that passed the checks of `parse_packet` may be given to any decoder. -/
theorem decodersInside_iff {s : Lsdb Lq} (hw : Wf s) (ho : Ordered env s) (symLink : Bool) (h : Checked env.cnf msg) :
    DecodersInside env s symLink msg ↔
      HelloFits env.cnf msg ∧ TcFits env s symLink msg ∧ MidFits env.cnf msg := by
  constructor
  · intro hd
    exact ⟨(deserializeHello_inside env.lq.pair h).1 hd.hello, (olsrInputTc_inside hw ho symLink h).1 hd.tc,
      (midChgestruct_inside h).1 hd.mid⟩
  · rintro ⟨hhello, htc, hmid⟩
    exact ⟨(deserializeHello_inside env.lq.pair h).2 hhello, (olsrInputTc_inside hw ho symLink h).2 htc,
      (midChgestruct_inside h).2 hmid, olsrInputHna_inside symLink h⟩

/-- A HELLO of 10.0.0.2 that ends behind the message header. -/
def shortHello : Mem := fun i => [1, 0x86, 0, 12, 10, 0, 0, 2, 1, 0, 0, 1].getD i 0

theorem checked_shortHello : Checked plainEnv.cnf shortHello := ⟨by decide, by decide⟩

theorem decodersInside_iff_shortHello :
    DecodersInside plainEnv (emptyLsdb Unit) true shortHello ↔ HelloFits plainEnv.cnf shortHello ∧
      TcFits plainEnv (emptyLsdb Unit) true shortHello ∧ MidFits plainEnv.cnf shortHello :=
  decodersInside_iff (wf_empty Unit) (fun _ _ h => by cases h) true checked_shortHello

/-- The four bytes in front of the link blocks are read behind the end of the message. -/
theorem shortHello_not_inside :
    Checked plainEnv.cnf shortHello ∧ ¬ DecodersInside plainEnv (emptyLsdb Unit) true shortHello := by
  refine ⟨checked_shortHello, fun h => ?_⟩
  have hfits := (deserializeHello_inside plainEnv.lq.pair checked_shortHello).1 h.hello
  exact absurd (hfits (.inl rfl)).1 (by decide)

end Olsrd
