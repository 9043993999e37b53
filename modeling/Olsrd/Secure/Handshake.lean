/-
The handshake of the secure plugin and its check of time stamps: what `send_challenge`, `parse_challenge`,
`parse_cres`, `parse_rres` and `check_timestamp` do to the timestamp table, and which messages they send.
-/
import Olsrd.Secure.Messages
import Olsrd.Secure.Stamps

namespace Olsrd.Secure

open Timers (olsrGetTimestamp olsrIsTimedOut)

/-! ## What a function reads and returns -/

/-- The addresses of a node: `olsr_cnf->main_addr` and those `if_ifwithaddr` finds. -/
structure Host where
  mainAddr : IpAddr
  ifAddrs : List IpAddr

/-- What a function gets from `rand`, `get_msg_seqno` and `malloc`, and what the stack holds where a message
has no member. -/
structure Draw where
  rand : BitVec 32
  rand' : BitVec 32
  msgSeqno : BitVec 16
  malloc : Stamp
  padding : List UInt8

/-- `challenge = rand() << 16; challenge |= rand();` -/
def Draw.challenge (draw : Draw) : BitVec 32 := draw.rand <<< 16 ||| draw.rand'

/-- A handshake message, by its type. -/
inductive Msg where
  | challenge (msg : ChallengeMsg)
  | cres (msg : CRespMsg)
  | rres (msg : RRespMsg)
  deriving DecidableEq

/-- The table as a function leaves it, the messages it sent, and whether it returned 1. -/
structure Outcome where
  stamps : List Stamp
  sent : List Msg
  ok : Bool

def Outcome.fail (stamps : List Stamp) : Outcome := ⟨stamps, [], false⟩

def upperDiff : Int := 3

def lowerDiff : Int := -3

section Functions

variable (scheme : Scheme) (host : Host) (clock : Clock) (draw : Draw)

/-- The first twelve bytes of every message the plugin sends. -/
def ownHeader (msgtype : UInt8) (size : Nat) : Header where
  olsrMsgtype := msgtype
  olsrVtime := 0
  olsrMsgsize := BitVec.ofNat 16 size
  originator := host.mainAddr
  ttl := 1
  hopcnt := 0
  seqno := draw.msgSeqno

/-! ## Sending -/

/-- The message of `send_challenge` before it is signed. -/
def challengeMsg (newHost : IpAddr) : ChallengeMsg where
  toHeader := ownHeader host draw typeChallenge sizeofChallengeMsg
  destination := newHost
  challenge := draw.challenge
  signature := []

/-- `send_challenge` -/
def sendChallenge (newHost : IpAddr) (stamps : List Stamp) : Outcome :=
  let cmsg := challengeMsg host draw newHost
  let entry := { draw.malloc with
    diff := 0
    validated := 0
    challenge := draw.challenge
    addr := newHost
    conftime := olsrGetTimestamp clock.nowTimes exchangeHoldTime }
  ⟨entry :: stamps, [.challenge { cmsg with signature := scheme.sign cmsg.covered }], true⟩

/-- The message of `send_cres` before it is signed. -/
def cresMsg (dest source : IpAddr) (chalIn : BitVec 32) : CRespMsg where
  toHeader := ownHeader host draw typeCResponse (sizeofCRespMsg scheme.platform)
  timestamp := clock.now
  destination := dest
  challenge := draw.challenge
  padding := draw.padding
  resSig := scheme.answer chalIn source
  signature := []

/-- `entry->challenge = challenge` -/
def setChallenge (challenge : BitVec 32) (entry : Stamp) : Stamp := { entry with challenge := challenge }

/-- `send_cres`, with the entry it writes the new challenge to given by its address -/
def sendCres (dest source : IpAddr) (chalIn : BitVec 32) (stamps : List Stamp) : Outcome :=
  let crmsg := cresMsg scheme host clock draw dest source chalIn
  ⟨modifyEntry dest (setChallenge draw.challenge) stamps,
    [.cres { crmsg with signature := scheme.sign (crmsg.covered scheme.platform) }], true⟩

/-- The message of `send_rres` before it is signed. -/
def rresMsg (dest source : IpAddr) (chalIn : BitVec 32) : RRespMsg where
  toHeader := ownHeader host draw typeRResponse (sizeofRRespMsg scheme.platform)
  timestamp := clock.now
  destination := dest
  resSig := scheme.answer chalIn source
  signature := []

/-- `send_rres` -/
def sendRres (dest source : IpAddr) (chalIn : BitVec 32) : List Msg :=
  let rrmsg := rresMsg scheme host clock draw dest source chalIn
  [.rres { rrmsg with signature := scheme.sign (rrmsg.covered scheme.platform) }]

/-! ## Receiving -/

/-- The update of an entry whose peer sent a challenge. -/
def reset (entry : Stamp) : Stamp :=
  { entry with
    diff := 0
    validated := 0
    conftime := olsrGetTimestamp clock.nowTimes exchangeHoldTime }

/-- `parse_challenge` from the check of the signature on -/
def acceptChallenge (msg : ChallengeMsg) (stamps : List Stamp) : Outcome :=
  if scheme.sign msg.covered ≠ msg.signature then .fail stamps
  else
    sendCres scheme host clock draw msg.originator msg.destination msg.challenge
      (modifyEntry msg.originator (reset clock) stamps)

/-- `parse_challenge` -/
def parseChallenge (msg : ChallengeMsg) (stamps : List Stamp) : Outcome :=
  if msg.destination ∉ host.ifAddrs then .fail stamps
  else match lookupTimestampEntry msg.originator stamps with
    | none => acceptChallenge scheme host clock draw msg ({ draw.malloc with addr := msg.originator } :: stamps)
    | some entry =>
      if !olsrIsTimedOut clock.nowTimes entry.conftime then .fail stamps
      else acceptChallenge scheme host clock draw msg stamps

/-- What `parse_cres` and `parse_rres` read of a message, with the bytes its signature covers. -/
structure Response where
  originator : IpAddr
  destination : IpAddr
  timestamp : Int
  resSig : List UInt8
  covered : List UInt8
  signature : List UInt8

def CRespMsg.response (platform : Platform) (msg : CRespMsg) : Response where
  originator := msg.originator
  destination := msg.destination
  timestamp := msg.timestamp
  resSig := msg.resSig
  covered := msg.covered platform
  signature := msg.signature

def RRespMsg.response (platform : Platform) (msg : RRespMsg) : Response where
  originator := msg.originator
  destination := msg.destination
  timestamp := msg.timestamp
  resSig := msg.resSig
  covered := msg.covered platform
  signature := msg.signature

/-- The update of an entry whose challenge was answered. -/
def validate (timestamp : Int) (entry : Stamp) : Stamp :=
  { entry with
    challenge := 0
    validated := 1
    diff := toInt (clock.now - timestamp)
    valtime := olsrGetTimestamp clock.nowTimes timestampHoldTime }

/-- What `parse_cres` and `parse_rres` have in common: everything up to the answer of the former. -/
def parseResponse (msg : Response) (stamps : List Stamp) : Outcome :=
  if msg.destination ∉ host.ifAddrs then .fail stamps
  else if scheme.sign msg.covered ≠ msg.signature then .fail stamps
  else match lookupTimestampEntry msg.originator stamps with
    | none => .fail stamps
    | some entry =>
      if msg.resSig ≠ scheme.answer entry.challenge msg.originator then .fail stamps
      else ⟨modifyEntry msg.originator (validate clock msg.timestamp) stamps, [], true⟩

/-- `parse_rres` -/
def parseRres (msg : RRespMsg) (stamps : List Stamp) : Outcome :=
  parseResponse scheme host clock (msg.response scheme.platform) stamps

/-- `parse_cres` -/
def parseCres (msg : CRespMsg) (stamps : List Stamp) : Outcome :=
  let res := parseResponse scheme host clock (msg.response scheme.platform) stamps
  if res.ok then { res with sent := sendRres scheme host clock draw msg.originator msg.destination msg.challenge }
  else res

/-- `check_auth` for a packet that begins with a handshake message -/
def checkAuth (msg : Msg) (stamps : List Stamp) : Outcome :=
  match msg with
  | .challenge msg => parseChallenge scheme host clock draw msg stamps
  | .cres msg => parseCres scheme host clock draw msg stamps
  | .rres msg => parseRres scheme host clock msg stamps

/-! ## Time stamps -/

/-- The new difference of `check_timestamp`, from the age of the packet and the old one. -/
def newDiff (age diff : Int) : Int := toInt (if age + diff ≠ 0 then (age + diff).tdiv 2 else 0)

/-- The update of an entry whose peer sent a packet in time. -/
def adapt (tstamp : Int) (entry : Stamp) : Stamp :=
  { entry with
    diff := newDiff (clock.now - tstamp) entry.diff
    valtime := olsrGetTimestamp clock.nowTimes timestampHoldTime }

/-- `check_timestamp` -/
def checkTimestamp (originator : IpAddr) (tstamp : Int) (stamps : List Stamp) : Outcome :=
  match lookupTimestampEntry originator stamps with
  | none => { sendChallenge scheme host clock draw originator stamps with ok := false }
  | some entry =>
    if entry.validated = 0 then .fail stamps
    else
      let slack := toInt (entry.diff - (clock.now - tstamp))
      if slack > upperDiff ∨ slack < lowerDiff then .fail stamps
      else ⟨modifyEntry originator (adapt clock tstamp) stamps, [], true⟩

/-! ## Updates leave the address alone -/

@[simp] theorem addr_reset (entry : Stamp) : (reset clock entry).addr = entry.addr := rfl

@[simp] theorem addr_setChallenge (challenge : BitVec 32) (entry : Stamp) : (setChallenge challenge entry).addr =
    entry.addr := rfl

@[simp] theorem addr_validate (timestamp : Int) (entry : Stamp) : (validate clock timestamp entry).addr = entry.addr :=
  rfl

@[simp] theorem addr_adapt (tstamp : Int) (entry : Stamp) : (adapt clock tstamp entry).addr = entry.addr := rfl

end Functions

end Olsrd.Secure
