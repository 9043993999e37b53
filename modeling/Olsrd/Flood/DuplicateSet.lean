/-
`duplicate_set.c` and `olsr_forward_message` of `olsr.c`: which messages a node has seen, and the
relaying of a message that it has not seen. The duplicate set is an AVL tree keyed by originator, so
it is a partial map here. `mid_lookup_main_addr` in `olsr_message_is_duplicate` only feeds a log line.
-/
import Olsrd.Core.Config
import Olsrd.Lib.Window

namespace Olsrd.Flood

/-! ## Timestamps of `scheduler.c` -/

/-- `olsr_getTimestamp` -/
def getTimestamp (nowTimes s : UInt32) : UInt32 := s + nowTimes

/-- `olsr_isTimedOut` -/
def isTimedOut (nowTimes s : UInt32) : Bool :=
  if s > nowTimes then s - nowTimes > 0x80000000 else nowTimes - s ≤ 0x80000000

/-! ## The duplicate set -/

/-- `DUPLICATE_VTIME` -/
def duplicateVtime : UInt32 := 120000

/-- `DUP_MAX_TOO_LOW` -/
def dupMaxTooLow : UInt16 := 16

structure DupEntry where
  seqnr : UInt16
  tooLowCounter : UInt16
  array : BitVec 32
  validUntil : UInt32
  deriving DecidableEq, Repr

/-- `duplicate_set`, by originator -/
abbrev DuplicateSet := IpAddr → Option DupEntry

/-- `olsr_create_duplicate_entry`, and the `valid_until` its caller gives the entry. -/
def olsrCreateDuplicateEntry (seqnr : UInt16) (validUntil : UInt32) : DupEntry :=
  { seqnr := seqnr, tooLowCounter := 0, array := 0, validUntil := validUntil }

def olsrSeqnoDiff (seqno1 seqno2 : UInt16) : Int :=
  let diff : Int := (seqno1.toNat : Int) - (seqno2.toNat : Int)
  -- overflow ?
  if diff > 2 ^ 15 then diff - 2 ^ 16
  else if diff < -2 ^ 15 then diff + 2 ^ 16
  else diff

/-- The part of `olsr_message_is_duplicate` for an originator that has an entry. -/
def checkEntry (entry : DupEntry) (seqnr : UInt16) : DupEntry × Bool :=
  let diff := olsrSeqnoDiff seqnr entry.seqnr
  if diff < -31 then
    let counter := entry.tooLowCounter + 1
    -- client did restart with a lower number ?
    if counter > dupMaxTooLow then ({ entry with tooLowCounter := 0, seqnr := seqnr, array := 1 }, false)
    else ({ entry with tooLowCounter := counter }, true)
  else if diff ≤ 0 then
    let bitmask := (1 : BitVec 32) <<< (-diff).toNat
    if entry.array &&& bitmask ≠ 0 then ({ entry with tooLowCounter := 0 }, true)
    else ({ entry with tooLowCounter := 0, array := entry.array ||| bitmask }, false)
  else if diff < 32 then
    ({ entry with tooLowCounter := 0, array := entry.array <<< diff.toNat ||| 1, seqnr := seqnr }, false)
  else ({ entry with tooLowCounter := 0, array := 0 ||| 1, seqnr := seqnr }, false)

/-- The timestamp update of `olsr_message_is_duplicate`. -/
def refreshValidUntil (nowTimes : UInt32) (entry : DupEntry) : DupEntry :=
  let validUntil := getTimestamp nowTimes duplicateVtime
  { entry with validUntil := if validUntil > entry.validUntil then validUntil else entry.validUntil }

@[simp] theorem refreshValidUntil_seqnr (now : UInt32) (entry : DupEntry) :
    (refreshValidUntil now entry).seqnr = entry.seqnr := rfl

@[simp] theorem refreshValidUntil_array (now : UInt32) (entry : DupEntry) :
    (refreshValidUntil now entry).array = entry.array := rfl

@[simp] theorem refreshValidUntil_tooLowCounter (now : UInt32) (entry : DupEntry) :
    (refreshValidUntil now entry).tooLowCounter = entry.tooLowCounter := rfl

def olsrMessageIsDuplicate (nowTimes : UInt32) (set : DuplicateSet) (ip : IpAddr) (seqnr : UInt16) :
    DuplicateSet × Bool :=
  match set ip with
  | none =>
    let entry := olsrCreateDuplicateEntry seqnr (getTimestamp nowTimes duplicateVtime)
    (Function.update set ip (some entry), false)
  | some entry =>
    let checked := checkEntry (refreshValidUntil nowTimes entry) seqnr
    (Function.update set ip (some checked.1), checked.2)

/-- `olsr_cleanup_duplicate_entry`: the periodic timer. -/
def olsrCleanupDuplicateEntry (nowTimes : UInt32) (set : DuplicateSet) : DuplicateSet :=
  fun ip => (set ip).filter fun entry => !isTimedOut nowTimes entry.validUntil

/-- `olsr_cleanup_duplicates`, called by the TC code when an originator seems to have restarted. -/
def olsrCleanupDuplicates (set : DuplicateSet) (orig : IpAddr) : DuplicateSet :=
  Function.update set orig ((set orig).map fun entry => { entry with tooLowCounter := dupMaxTooLow - 2 })

/-! ## Forwarding -/

/-- `struct interface` with its output buffer; `copies` counts the messages `olsr_forward_message`
put into the buffer in its latest call. -/
structure Interface where
  ether : Bool
  maxsize : Nat
  pending : Nat
  copies : Nat

/-- `net_output_pending`, which returns 16 bits of it. -/
def netOutputPending (ifn : Interface) : UInt16 := UInt16.ofNat ifn.pending

/-- `net_outbuffer_push`: the interface and the number of bytes added. -/
def netOutbufferPush (ifn : Interface) (size : Nat) : Interface × Nat :=
  if ifn.pending + size > ifn.maxsize then (ifn, 0)
  else ({ ifn with pending := ifn.pending + size, copies := ifn.copies + 1 }, size)

/-- `net_output`, as far as the buffer is concerned. -/
def netOutput (ifn : Interface) : Interface := { ifn with pending := 0 }

/-- The body of the interface loop of `olsr_forward_message`. -/
def forwardOn (ifn : Interface) (sameIf isTtl1 : Bool) (msgsize : Nat) : Interface :=
  let ifn := { ifn with copies := 0 }
  -- do not retransmit out through the same interface if it has mode == ether
  if sameIf && ifn.ether then ifn
  -- do not forward TTL 1 messages to non-ether interfaces
  else if isTtl1 && !ifn.ether then ifn
  else if netOutputPending ifn ≠ 0 then
    let pushed := netOutbufferPush ifn msgsize
    if pushed.2 ≠ msgsize then (netOutbufferPush (netOutput pushed.1) msgsize).1 else pushed.1
  else (netOutbufferPush ifn msgsize).1

/-- A message with its unbounded number; the wire carries the number modulo `2^16`. -/
structure Message where
  originator : IpAddr
  number : Int
  ttl : UInt8
  hopcnt : UInt8
  msgsize : UInt16

/-- The wire value of a message number. -/
def seqno (n : Int) : UInt16 := UInt16.ofNat (n % 2 ^ 16).toNat

/-- `neighbor->status` -/
inductive NeighborStatus where
  | notSym
  | sym
  deriving DecidableEq, Repr

/-- What `olsr_forward_message` reads of the rest of the node. -/
structure World where
  nowTimes : UInt32
  midLookupMainAddr : IpAddr → Option IpAddr
  neighborTable : IpAddr → Option NeighborStatus
  /-- `olsr_lookup_mprs_set` -/
  mprsSet : IpAddr → Bool
  ifnet : List Interface

/-- The checks of `olsr_forward_message` before the duplicate set is asked: the sender is a symmetric
neighbour that has chosen this node as MPR. -/
def forwardsFor (w : World) (fromAddr : IpAddr) : Bool :=
  let src := (w.midLookupMainAddr fromAddr).getD fromAddr
  match w.neighborTable src with
  | none => false
  | some .notSym => false
  | some .sym => w.mprsSet src

/-- `is_ttl_1` -/
def isTtl1 (m : Message) : Bool := m.ttl.toNat < 2 || 255 < m.hopcnt.toNat + m.ttl.toNat

/-- The message as it is sent on. -/
def relayedMessage (m : Message) : Message :=
  if isTtl1 m then m else { m with hopcnt := m.hopcnt + 1, ttl := m.ttl - 1 }

structure Node where
  world : World
  duplicateSet : DuplicateSet

/-- `olsr_forward_message` on a message that came in through interface number `inIf`: the node
afterwards and the message sent on, if it is. -/
def olsrForwardMessage (node : Node) (m : Message) (inIf : Nat) (fromAddr : IpAddr) : Node × Option Message :=
  if forwardsFor node.world fromAddr then
    let (set, duplicate) :=
      olsrMessageIsDuplicate node.world.nowTimes node.duplicateSet m.originator (seqno m.number)
    if duplicate then ({ node with duplicateSet := set }, none)
    else
      let ifnet := node.world.ifnet.mapIdx fun i ifn => forwardOn ifn (i == inIf) (isTtl1 m) m.msgsize.toNat
      ({ world := { node.world with ifnet := ifnet }, duplicateSet := set }, some (relayedMessage m))
  else (node, none)

theorem netOutbufferPush_copies (ifn : Interface) (size : Nat) :
    (netOutbufferPush ifn size).1.copies ≤ ifn.copies + 1 := by
  unfold netOutbufferPush
  split <;> simp

/-- A push that does not report the whole message has put nothing into the buffer. -/
theorem netOutbufferPush_refused {ifn : Interface} {size : Nat} (h : (netOutbufferPush ifn size).2 ≠ size) :
    (netOutbufferPush ifn size).1 = ifn := by
  unfold netOutbufferPush at h ⊢
  split at h
  · rename_i hfull; rw [if_pos hfull]
  · exact absurd rfl h

/-- No interface is given a message twice by one call. -/
theorem forwardOn_copies_le (ifn : Interface) (sameIf isTtl1 : Bool) (msgsize : Nat) :
    (forwardOn ifn sameIf isTtl1 msgsize).copies ≤ 1 := by
  unfold forwardOn
  dsimp only
  split_ifs with h1 h2 h3 h4
  · exact Nat.zero_le 1
  · exact Nat.zero_le 1
  · rw [netOutbufferPush_refused h4]
    exact netOutbufferPush_copies _ _
  · exact netOutbufferPush_copies _ _
  · exact netOutbufferPush_copies _ _

/-! ## Runs -/

/-- What can happen to the duplicate set. `world` stands for everything else: time passes, tables
and output buffers change. -/
inductive Event where
  /-- a call of `olsr_message_is_duplicate` -/
  | check (m : Message)
  /-- a call of `olsr_forward_message` -/
  | forward (m : Message) (inIf : Nat) (fromAddr : IpAddr)
  /-- `olsr_cleanup_duplicate_entry` -/
  | cleanupTimer
  /-- `olsr_cleanup_duplicates` -/
  | cleanupDuplicates (orig : IpAddr)
  | world (w : World)

/-- A message presented to `olsr_message_is_duplicate`, its answer, and whether it was relayed. -/
structure Record where
  message : Message
  duplicate : Bool
  relayed : Bool

/-- The message an event presents to `olsr_message_is_duplicate`. -/
def presents (node : Node) : Event → Option Message
  | .check m => some m
  | .forward m _ fromAddr => if forwardsFor node.world fromAddr then some m else none
  | _ => none

def step (node : Node) : Event → Node × Option Record
  | .check m =>
    let asked := olsrMessageIsDuplicate node.world.nowTimes node.duplicateSet m.originator (seqno m.number)
    ({ node with duplicateSet := asked.1 }, some ⟨m, asked.2, false⟩)
  | .forward m inIf fromAddr =>
    let forwarded := olsrForwardMessage node m inIf fromAddr
    (forwarded.1, if forwardsFor node.world fromAddr then some ⟨m, forwarded.2.isNone, forwarded.2.isSome⟩ else none)
  | .cleanupTimer =>
    ({ node with duplicateSet := olsrCleanupDuplicateEntry node.world.nowTimes node.duplicateSet }, none)
  | .cleanupDuplicates orig => ({ node with duplicateSet := olsrCleanupDuplicates node.duplicateSet orig }, none)
  | .world w => ({ node with world := w }, none)

/-- The records of a run, first to last. -/
def records (node : Node) : List Event → List Record
  | [] => []
  | e :: es => (step node e).2.toList ++ records (step node e).1 es

end Olsrd.Flood
