/-
`olsr_input_tc` of `tc_set.c`: the gate on sequence numbers, the walk over the advertised neighbours,
the reconstruction of the border addresses and the deletion of revoked edges. Timers are outside
the model; `edgeGc` tells that the garbage collection timer was set.
-/
import Olsrd.Topology.Lsdb

namespace Olsrd.Topology

open Bytes

variable {Lq : Type}

def tcMessage : Nat := 2
def lqTcMessage : Nat := 202

/-! ## Sequence number windows -/

/-- The cast of an `int` to `uint16_t`. -/
def toU16 (i : Int) : Int := i % 65536

def olsrSeqInrangeLow (beg end_ : Int) (seq : UInt16) : Bool :=
  let n : Int := seq.toNat
  if beg < 0 then n ≥ toU16 beg || n < end_
  else if end_ ≥ 0x10000 then n ≥ beg || n < toU16 end_
  else n ≥ beg && n < end_

def olsrSeqInrangeHigh (beg end_ : Int) (seq : UInt16) : Bool :=
  let n : Int := seq.toNat
  if beg < 0 then n > toU16 beg || n ≤ end_
  else if end_ ≥ 0x10000 then n > beg || n ≤ toU16 end_
  else n > beg && n ≤ end_

/-- Whether `olsr_input_tc` goes on with a message for the entry `t`, and the entry afterwards. -/
def tcGate (t : TcEntry) (msgSeq ansn : UInt16) : TcEntry × Bool :=
  let seq : Int := t.msgSeq.toNat
  let old : Int := t.ansn.toNat
  if t.edgeTree.length = 0 then (t, true)
  else if olsrSeqInrangeHigh (seq - 1024) seq msgSeq && olsrSeqInrangeHigh (old - 256) old ansn then
    -- ignore already seen seq/ansn values (small window for mesh memory)
    if t.msgSeq = msgSeq then (t, false)
    else ({ t with ignored := t.ignored + 1 }, !(t.ignored < 32))
  else if !olsrSeqInrangeHigh seq (seq + 1024 * 8) msgSeq || !olsrSeqInrangeLow old (old + 256 * 4) ansn then
    -- only accept future seq/ansn values, restart in all other cases; ignore a single stray message
    let t := if t.errSeqValid then t else { t with errSeq := msgSeq, errSeqValid := true }
    (t, !(t.errSeq = msgSeq))
  else (t, true)

/-! ## Borders -/

/-- Change the byte at a C array index. An index outside the address changes another object. -/
def setAt (ip : IpAddr) (i : Int) (f : UInt8 → UInt8) : IpAddr := if 0 ≤ i then ip.modify i.toNat f else ip

/-- `memset(p, v, sizeof(p))` for a pointer `p` to an address. -/
def memsetPtr (platform : Platform) (v : UInt8) (ip : IpAddr) : IpAddr :=
  ip.mapIdx fun i b => if i < platform.sizeofPtr then v else b

/-- The byte indices that one half of `olsr_calculate_tc_border` writes. -/
def borderIndices (platform : Platform) (cnf : Cnf) (flag : UInt8) : List Int :=
  if flag = 0xff then (List.range platform.sizeofPtr).map fun (i : Nat) => (i : Int)
  else
    let border := (flag - 1).toNat
    (List.range (border / 8)).map (fun (i : Nat) => (cnf.ipsize : Int) - i - 1) ++
      [(cnf.ipsize : Int) - (border / 8 : Nat) - 1]

/-- One half of `olsr_calculate_tc_border`, for the lower border with `fill = 0` and for the upper
border with `fill = 0xff`. -/
def borderIp (platform : Platform) (cnf : Cnf) (fill flag : UInt8) (ip : IpAddr) : IpAddr :=
  if flag = 0xff then memsetPtr platform fill ip
  else
    let border := (flag - 1).toNat
    let cleared := (List.range (border / 8)).foldl
      (fun ip (i : Nat) => setAt ip ((cnf.ipsize : Int) - i - 1) fun _ => 0) ip
    let shift := UInt8.ofNat (border % 8)
    setAt cleared ((cnf.ipsize : Int) - (border / 8 : Nat) - 1) fun b => (b &&& (0xff <<< shift)) ||| (1 <<< shift)

/-- `olsr_calculate_tc_border`: `none` if both flags are zero. -/
def olsrCalculateTcBorder (platform : Platform) (cnf : Cnf) (lowerBorder upperBorder : UInt8) (lower upper : IpAddr) :
    Option (IpAddr × IpAddr) :=
  if lowerBorder = 0 ∧ upperBorder = 0 then none
  else some (borderIp platform cnf 0 lowerBorder lower, borderIp platform cnf 0xff upperBorder upper)

/-- The indices `olsr_calculate_tc_border` writes. -/
def tcBorderWrites (platform : Platform) (cnf : Cnf) (lowerBorder upperBorder : UInt8) : List Int :=
  if lowerBorder = 0 ∧ upperBorder = 0 then []
  else borderIndices platform cnf lowerBorder ++ borderIndices platform cnf upperBorder

/-- The loop of `olsr_delete_revoked_tc_edges`; `avl_comp_default(a, b) <= 0` is `!addrLt b a`. -/
def deleteRevoked (env : Env Lq) (ansn : UInt16) (lower upper : IpAddr) :
    List Ptr → Bool → Bool → Lsdb Lq → Option (Lsdb Lq × Bool)
  | [], _, retval, s => some (s, retval)
  | e :: es, passedLowerBorder, retval, s => do
    let d ← s.edge e
    if !passedLowerBorder && env.addrLt d.destAddr lower then deleteRevoked env ansn lower upper es false retval s
    else if !env.addrLt d.destAddr upper then some (s, retval)
    else if seqnoGreaterThan ansn d.ansn then do
      let s ← olsrDeleteTcEdgeEntry s e
      deleteRevoked env ansn lower upper es true true s
    else deleteRevoked env ansn lower upper es true retval s

/-- `olsr_delete_revoked_tc_edges`: the database, and whether an edge was deleted. -/
def olsrDeleteRevokedTcEdges (env : Env Lq) (s : Lsdb Lq) (tc : Ptr) (ansn : UInt16) (lower upper : IpAddr) :
    Option (Lsdb Lq × Bool) := do
  let t ← s.tc tc
  deleteRevoked env ansn lower upper (t.edgeTree.map Prod.snd) false false s

/-! ## Edges -/

/-- What `olsr_tc_update_edge` leaves. -/
structure EdgeUpdate (Lq : Type) where
  db : Lsdb Lq
  cursor : Cursor
  neighbor : IpAddr
  change : Bool

/-- `olsr_tc_update_edge`. A refused address is stepped over alone, and a new edge is followed by its
link quality whatever the configured level. -/
def olsrTcUpdateEdge (env : Env Lq) (s : Lsdb Lq) (tc : Ptr) (ansn : UInt16) (msg : Mem) (c : Cursor) :
    Option (EdgeUpdate Lq) := do
  let neighbor := pktGetIpaddress env.cnf msg c
  -- first check if we know this edge
  match ← olsrLookupTcEdge s tc neighbor.1 with
  | none =>
    if !olsrValidateAddress env.cnf neighbor.1 then pure ⟨s, neighbor.2, neighbor.1, false⟩
    else
      let (s, e) ← olsrAddTcEdgeEntry env s tc neighbor.1 ansn
      let d ← s.edge e
      let quality := deserializeLqPair env.lq.pair msg neighbor.2
      let s := s.setEdge e { d with linkquality := env.lq.deserializeTcLq quality.1 }
      pure ⟨s, quality.2, neighbor.1, true⟩
  | some e =>
    let d ← s.edge e
    let d := { d with ansn := ansn }
    -- update link quality if configured
    let quality := deserializeLqPair env.lq.pair msg neighbor.2
    let d := if env.cnf.lqLevel > 0 then { d with linkquality := env.lq.deserializeTcLq quality.1 } else d
    let c := if env.cnf.lqLevel > 0 then quality.2 else neighbor.2
    let etx := olsrCalcTcEdgeEntryEtx env d
    pure ⟨s.setEdge e etx.1, c, neighbor.1, etx.2⟩

/-- Every record takes at least its address off the message. -/
theorem olsrTcUpdateEdge_curr {env : Env Lq} {s : Lsdb Lq} {tc : Ptr} {ansn : UInt16} {msg : Mem} {c : Cursor}
    {u : EdgeUpdate Lq} (h : olsrTcUpdateEdge env s tc ansn msg c = some u) :
    c.curr + env.cnf.ipsize ≤ u.cursor.curr := by
  unfold olsrTcUpdateEdge at h
  obtain ⟨known, -, h⟩ := Option.bind_eq_some_iff.1 h
  cases known with
  | none =>
    simp only at h
    split at h
    · obtain rfl := Option.some.inj h
      exact le_refl _
    · obtain ⟨⟨s', e⟩, -, h⟩ := Option.bind_eq_some_iff.1 h
      obtain ⟨d, -, h⟩ := Option.bind_eq_some_iff.1 h
      obtain rfl := Option.some.inj h
      exact Nat.le_add_right _ _
  | some e =>
    obtain ⟨d, -, h⟩ := Option.bind_eq_some_iff.1 h
    obtain rfl := Option.some.inj h
    dsimp only
    split
    · exact Nat.le_add_right _ _
    · exact le_refl _

/-! ## The message -/

/-- The state of the record loop: `borders` holds the first and the last address seen. -/
structure TcWalk (Lq : Type) where
  db : Lsdb Lq
  cursor : Cursor
  borders : Option (IpAddr × IpAddr)
  change : Bool

def TcWalk.next (w : TcWalk Lq) (u : EdgeUpdate Lq) : TcWalk Lq where
  db := u.db
  cursor := u.cursor
  borders := some ((w.borders.map Prod.fst).getD u.neighbor, u.neighbor)
  change := w.change || u.change

/-- The loop of `olsr_input_tc` over the edge advertisements. -/
def tcWalk (env : Env Lq) (tc : Ptr) (ansn : UInt16) (msg : Mem) (limit : Nat) (w : TcWalk Lq) : Option (TcWalk Lq) :=
  if w.cursor.curr < limit then
    match _h : olsrTcUpdateEdge env w.db tc ansn msg w.cursor with
    | none => none
    | some u => tcWalk env tc ansn msg limit (w.next u)
  else some w
termination_by limit - w.cursor.curr
decreasing_by
  have hle := olsrTcUpdateEdge_curr _h
  have hpos := env.cnf.ipsize_pos
  simp only [TcWalk.next]; omega

/-- What `olsr_input_tc` leaves and returns. -/
structure TcResult (Lq : Type) where
  db : Lsdb Lq
  cursor : Cursor
  borderWrites : List Int
  changesTopology : Bool
  edgeGc : Bool
  /-- the originator's MIDs, HNAs and duplicate entry are cleaned up -/
  cleanup : Bool
  forward : Bool

/-- The header fields of a TC message, and the cursor behind them. -/
structure TcHeader where
  size : Nat
  originator : IpAddr
  msgHops : UInt8
  msgSeq : UInt16
  ansn : UInt16
  lowerBorder : UInt8
  upperBorder : UInt8
  cursor : Cursor

def tcHeader (cnf : Cnf) (msg : Mem) (c : Cursor) : TcHeader :=
  let vtime := pktGetReltime msg c
  let size := pktGetU16 msg vtime.2
  let originator := pktGetIpaddress cnf msg size.2
  let ttl := pktGetU8 msg originator.2
  let msgHops := pktGetU8 msg ttl.2
  let msgSeq := pktGetU16 msg msgHops.2
  let ansn := pktGetU16 msg msgSeq.2
  let lowerBorder := pktGetU8 msg ansn.2
  let upperBorder := pktGetU8 msg lowerBorder.2
  { size := size.1, originator := originator.1, msgHops := msgHops.1, msgSeq := UInt16.ofNat msgSeq.1,
    ansn := UInt16.ofNat ansn.1, lowerBorder := lowerBorder.1, upperBorder := upperBorder.1,
    cursor := upperBorder.2 }

/-- `olsr_input_tc` behind the walk over the records. -/
def finishTc (env : Env Lq) (tc : Ptr) (h : TcHeader) (w : TcWalk Lq) : Option (TcResult Lq) :=
  let emptyTc := h.cursor.curr ≥ h.size
  -- calculate real border IPs
  let writes := if w.borders.isSome then tcBorderWrites env.platform env.cnf h.lowerBorder h.upperBorder else []
  let borders := w.borders.bind fun b =>
    olsrCalculateTcBorder env.platform env.cnf h.lowerBorder h.upperBorder b.1 b.2
  -- handle empty TC with border flags 0xff
  let borders := if emptyTc ∧ h.lowerBorder = 0xff ∧ h.upperBorder = 0xff
    then some (List.replicate env.cnf.ipsize 0, List.replicate env.cnf.ipsize 0xff) else borders
  match borders with
  | none => some ⟨w.db, w.cursor, writes, w.change, true, false, true⟩
  | some (lower, upper) => do
    let (s, deleted) ← olsrDeleteRevokedTcEdges env w.db tc h.ansn lower upper
    if emptyTc then
      -- kill the tc entry if all edges have been erased by an empty TC
      let s ← olsrDeleteTcEntry env s tc
      pure ⟨s, w.cursor, writes, w.change || deleted, false, true, true⟩
    else pure ⟨s, w.cursor, writes, w.change || deleted, false, false, true⟩

/-- `olsr_input_tc` once a message is accepted for the entry `tc`. -/
def processTc (env : Env Lq) (s : Lsdb Lq) (tc : Ptr) (h : TcHeader) (msg : Mem) : Option (TcResult Lq) := do
  let t ← s.tc tc
  let t := { t with msgHops := h.msgHops, msgSeq := h.msgSeq, ansn := h.ansn, ignored := 0, errSeqValid := false }
  let w ← tcWalk env tc h.ansn msg h.size ⟨s.setTc tc t, h.cursor, none, false⟩
  finishTc env tc h w

/-- `olsr_input_tc`; `symLink` is the outcome of `check_neighbor_link` for the sender. -/
def olsrInputTc (env : Env Lq) (s : Lsdb Lq) (symLink : Bool) (msg : Mem) : Option (TcResult Lq) :=
  let type := pktGetU8 msg .start
  let discard (s : Lsdb Lq) (c : Cursor) : TcResult Lq := ⟨s, c, [], false, false, false, false⟩
  -- we are only interested in TC message types
  if type.1.toNat ≠ lqTcMessage ∧ type.1.toNat ≠ tcMessage then some (discard s type.2)
  else if !symLink then some (discard s type.2)
  else
    let h := tcHeader env.cnf msg type.2
    match olsrLookupTcEntry s h.originator with
    | none => do
      let (s, tc) ← olsrAddTcEntry env s h.originator
      processTc env s (← tc) h msg
    | some tc => do
      let t ← s.tc tc
      let gate := tcGate t h.msgSeq h.ansn
      if gate.2 then processTc env (s.setTc tc gate.1) tc h msg
      else pure (discard (s.setTc tc gate.1) h.cursor)

end Olsrd.Topology
