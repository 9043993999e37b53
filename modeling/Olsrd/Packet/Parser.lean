/-
`parser.c`: the walk of `parse_packet` over a received packet and the receive loop of
`olsr_input`. Every message the walk comes to is recorded with the functions it was handed to.

The packet parser hooks and the hysteresis update only read the packet, and
`olsr_test_originator_collision` only reads its header, so neither appears here.
-/
import Olsrd.Core.Config

namespace Olsrd

open Bytes

/-! ## State around the parser -/

/-- `PROMISCUOUS` -/
def promiscuous : Nat := 0xffffffff

/-- `struct parse_function_entry`. A parse function is given the message inside the input buffer:
it may change the buffer, and returns whether the message may be forwarded. -/
structure ParseFunctionEntry where
  type : Nat
  function : Mem → Nat → Mem × Bool

/-- A preprocessor is given the packet's offset and length, may change the buffer, the offset and
the length, and discards the packet by returning `NULL`. -/
abbrev PreprocessorFunction := Mem → Nat → Nat → Mem × Option (Nat × Nat)

structure ParserEnv where
  platform : Platform
  cnf : Cnf
  /-- `parse_functions`, first to last -/
  parseFunctions : List ParseFunctionEntry
  /-- `preprocessor_functions`, first to last -/
  preprocessorFunctions : List PreprocessorFunction
  /-- `olsr_forward_message` -/
  olsrForwardMessage : Mem → Nat → Mem
  /-- `if_ifwithaddr` finds an interface of this node with the address -/
  ifWithAddr : IpAddr → Bool
  /-- `if_ifwithsock` finds the interface of the socket -/
  ifWithSock : Bool

/-- What a message was handed to. -/
inductive Sink where
  | parseFunction (type : Nat)
  | forward
  deriving DecidableEq, Repr

/-- One round of the message loop: the message's offset in the buffer, its `olsr_msgsize` and the
functions it was handed to. -/
structure Visit where
  off : Nat
  msgsize : Nat
  handed : List Sink
  deriving DecidableEq, Repr

/-! ## `parse_packet` -/

/-- The loop over `parse_functions` for the message at `m`; `forward` is cleared by a function that
returns false. The message type is read again for every entry. -/
def callParseFunctions (m : Nat) : List ParseFunctionEntry → Mem → Bool → Mem × Bool × List Sink
  | [], mem, forward => (mem, forward, [])
  | entry :: rest, mem, forward =>
    if entry.type = promiscuous ∨ entry.type = (mem m).toNat then
      let (mem, ok) := entry.function mem m
      let (mem, forward, handed) := callParseFunctions m rest mem (forward && ok)
      (mem, forward, .parseFunction entry.type :: handed)
    else callParseFunctions m rest mem forward

/-- The smallest message: type, vtime, size, originator, ttl, hop count and sequence number. -/
def minMsgsize (cnf : Cnf) : Nat := 8 + cnf.ipsize

/-- The originator of the message at `m`. -/
def originatorAt (cnf : Cnf) (mem : Mem) (m : Nat) : IpAddr := mem.slice (m + 4) cnf.ipsize

/-- A message of this node itself, or of a denied originator, is skipped. -/
def skipsOriginator (cnf : Cnf) (mem : Mem) (m : Nat) : Bool :=
  ipequal cnf (originatorAt cnf mem m) cnf.mainAddr || !olsrValidateAddress cnf (originatorAt cnf mem m)

/-- The message loop of `parse_packet` from the message at `m`, with `count` bytes left. -/
def parseMessages (env : ParserEnv) (mem : Mem) (m count : Nat) : Mem × List Visit :=
  if count = 0 then (mem, [])
  -- minimum message size is 8 + ipsize
  else if count < minMsgsize env.cnf then (mem, [])
  else if mem.u16 (m + 2) < minMsgsize env.cnf then (mem, [])
  else if mem.u16 (m + 2) % 4 ≠ 0 then (mem, [])
  else if mem.u16 (m + 2) > count then (mem, [])
  else if skipsOriginator env.cnf mem m then
    let next := parseMessages env mem (m + mem.u16 (m + 2)) (count - mem.u16 (m + 2))
    (next.1, ⟨m, mem.u16 (m + 2), []⟩ :: next.2)
  else
    let called := callParseFunctions m env.parseFunctions mem true
    let mem' := if called.2.1 then env.olsrForwardMessage called.1 m else called.1
    let handed := if called.2.1 then called.2.2 ++ [.forward] else called.2.2
    -- the step to the next message uses the size read before the handlers ran
    let next := parseMessages env mem' (m + mem.u16 (m + 2)) (count - mem.u16 (m + 2))
    (next.1, ⟨m, mem.u16 (m + 2), handed⟩ :: next.2)
termination_by count
decreasing_by all_goals (simp only [minMsgsize] at *; omega)

/-- `olsr->olsr_seqno = ntohs(olsr->olsr_seqno)` -/
def seqnoToHost (p : Platform) (mem : Mem) (packet : Nat) : Mem :=
  if p.littleEndian then mem.write (packet + 2) [mem (packet + 3), mem (packet + 2)] else mem

/-- `uint32_t count = size - 4`: the bytes after the packet header, in unsigned arithmetic. -/
def bytesAfterHeader (size : Nat) : Nat := (2 ^ 32 + size - 4) % 2 ^ 32

/-- `parse_packet` on the packet at `packet` of `size` received bytes. -/
def parsePacket (env : ParserEnv) (mem : Mem) (packet size : Nat) : Mem × List Visit :=
  -- minimum packet size is 4
  if bytesAfterHeader size < 4 then (mem, [])
  else if mem.u16 packet ≠ size % 2 ^ 16 then (mem, [])
  else parseMessages env (seqnoToHost env.platform mem packet) (packet + 4) (bytesAfterHeader size)

/-! ## `olsr_input` -/

/-- `sizeof(inbuf_aligned)` -/
def inbufSize : Nat := (1500 / 4 + 1) * 4

/-- What `olsr_recvfrom` delivers: the datagram, its sender, and whether the sender's socket address
has the length of the configured family. -/
structure Datagram where
  data : List UInt8
  from_addr : IpAddr
  fromlenOk : Bool

/-- A call of `parse_packet`: the buffer it found, its arguments, and what it did. -/
structure ParseCall where
  mem : Mem
  packet : Nat
  size : Nat
  visits : List Visit

/-- The preprocessor chain of `olsr_input`. -/
def runPreprocessors : List PreprocessorFunction → Mem → Nat → Nat → Mem × Option (Nat × Nat)
  | [], mem, packet, cc => (mem, some (packet, cc))
  | f :: fs, mem, packet, cc =>
    match f mem packet cc with
    | (mem, none) => (mem, none)
    | (mem, some (packet, cc)) => runPreprocessors fs mem packet cc

/-- `olsr_input` with the datagrams `olsr_recvfrom` still delivers and `cpu_overload_exit = n`.
A datagram is copied over the start of the static buffer `mem`; the rest of the buffer keeps the
bytes of earlier datagrams. -/
def olsrInput (env : ParserEnv) : List Datagram → Nat → Mem → Mem × List ParseCall
  | [], _, mem => (mem, [])
  | d :: ds, n, mem =>
    if 32 < n + 1 then (mem, [])
    else
      let mem := mem.write 0 (d.data.take inbufSize)
      let cc := (d.data.take inbufSize).length
      if cc = 0 then (mem, [])
      else if !d.fromlenOk then (mem, [])
      -- are we talking to ourselves?
      else if env.ifWithAddr d.from_addr then (mem, [])
      else if !env.ifWithSock then (mem, [])
      else match runPreprocessors env.preprocessorFunctions mem 0 cc with
        | (mem, none) => (mem, [])
        | (mem, some (packet, cc)) =>
          let parsed := parsePacket env mem packet cc
          let rest := olsrInput env ds (n + 1) parsed.1
          (rest.1, ⟨mem, packet, cc, parsed.2⟩ :: rest.2)

end Olsrd
