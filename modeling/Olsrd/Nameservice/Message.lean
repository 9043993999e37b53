/-
The NAME messages of the nameservice plugin: the encoder `encap_namemsg`, and the decoder `update_name_entry` with
the tables it fills and the bytes it reads. The record with latitude and longitude is decoded, but not encoded.
-/
import Olsrd.Core.Config
import Olsrd.Topology.TcSend

namespace Olsrd.Nameservice

open Bytes
open Olsrd.Topology (u16Bytes)

/-! ## Entries -/

/-- `NAME_TYPE` -/
inductive NameType where
  | host
  | forwarder
  | service
  | latlon
  | macaddr
  deriving DecidableEq

def NameType.toNat : NameType → Nat
  | .host => 0
  | .forwarder => 1
  | .service => 2
  | .latlon => 3
  | .macaddr => 4

def NameType.ofNat? : Nat → Option NameType
  | 0 => some .host
  | 1 => some .forwarder
  | 2 => some .service
  | 3 => some .latlon
  | 4 => some .macaddr
  | _ => none

/-- `struct name_entry`. `ip` are the 16 bytes of the union, `len` is the length of `name`. -/
structure NameEntry where
  ip : List UInt8
  type : NameType
  name : List UInt8
  deriving DecidableEq

def maxName : Nat := 127

/-- `[[:alnum:]_.-]` -/
def nameChar (c : UInt8) : Bool :=
  (0x30 ≤ c && c ≤ 0x39) || (0x41 ≤ c && c ≤ 0x5a) || (0x61 ≤ c && c ≤ 0x7a) || c == 0x5f || c == 0x2e || c == 0x2d

/-- `is_name_wellformed`: the expression `^[[:alnum:]_.-]+$` -/
def isNameWellformed (name : List UInt8) : Bool := !name.isEmpty && name.all nameChar

/-- What the other checks of `decap_namemsg` leave to the C library: `is_service_wellformed` matches an expression with
the configured suffix, `is_mac_wellformed` and `is_latlon_wellformed` scan the string. -/
structure Checks where
  serviceWellformed : List UInt8 → Bool
  macWellformed : List UInt8 → Bool
  latlonWellformed : List UInt8 → Bool

/-- Everything is well formed. -/
def anyChecks : Checks := ⟨fun _ => true, fun _ => true, fun _ => true⟩

def Checks.wellformed (checks : Checks) : NameType → List UInt8 → Bool
  | .host => isNameWellformed
  | .forwarder => fun _ => true
  | .service => checks.serviceWellformed
  | .latlon => checks.latlonWellformed
  | .macaddr => checks.macWellformed

/-- Backslash and apostrophe. -/
def forbidden (c : UInt8) : Bool := c == 0x5c || c == 0x27

/-! ## The encoder -/

/-- `create_packet` -/
def createPacket (e : NameEntry) : List UInt8 :=
  u16Bytes e.type.toNat ++ u16Bytes e.name.length ++ e.ip ++ e.name ++ List.replicate ((4 - e.name.length % 4) % 4) 0

/-- The lists of a node. -/
structure MyNames where
  names : List NameEntry
  forwarders : List NameEntry
  services : List NameEntry
  macs : List NameEntry

/-- The entries in the order of their packets. -/
def MyNames.announced (my : MyNames) : List NameEntry := my.names ++ my.forwarders ++ my.services ++ my.macs

/-- `encap_namemsg` -/
def encapNamemsg (my : MyNames) : List UInt8 :=
  u16Bytes 1 ++ u16Bytes my.announced.length ++ my.announced.flatMap createPacket

/-- `sizeof(struct olsrmsg)` and `sizeof(struct olsrmsg6)`, which have room for the largest of the basic messages. -/
def sizeofOlsrmsg : IpVersion → Nat
  | .inet => 24
  | .inet6 => 56

/-- The size in the header that `olsr_namesvc_gen` puts before the message. -/
def sentSize (v : IpVersion) (my : MyNames) : Nat := (encapNamemsg my).length + sizeofOlsrmsg v

/-! ## The decoder -/

/-- An access to the message: a run of bytes, or a string that is read up to its end. -/
inductive Access where
  | bytes (off n : Nat)
  | string (off : Nat)
  deriving DecidableEq

/-- The access stays in the first `size` bytes. -/
def Access.Inside (m : Mem) (size : Nat) : Access → Prop
  | .bytes off n => off + n ≤ size
  | .string off => m.TerminatedBefore size off

/-- Where the message proper begins, behind the header of an OLSR message. -/
def headerSize : IpVersion → Nat
  | .inet => 12
  | .inet6 => 24

/-- `sizeof(struct name)`, with 16 bytes for the union in it -/
def sizeofName : Nat := 20

/-- `sizeof(struct namemsg)` -/
def sizeofNamemsg : Nat := 4

def recordType (m : Mem) (pos : Nat) : Option NameType := NameType.ofNat? (m.u16 pos)

def recordLen (m : Mem) (pos : Nat) : Nat := m.u16 (pos + 2)

def recordEntry (m : Mem) (pos : Nat) (type : NameType) : NameEntry where
  ip := m.slice (pos + 4) 16
  type := type
  name := m.slice (pos + sizeofName) (recordLen m pos)

section

variable (v : IpVersion) (checks : Checks)

/-- `ipequal` -/
def sameIp (a b : NameEntry) : Bool := a.ip.take v.ipsize == b.ip.take v.ipsize

/-- A stored entry for which a received one is not inserted; `strncmp` compares as many bytes as the new name has. -/
def alreadySaved (e saved : NameEntry) : Bool :=
  match e.type with
  | .host | .service => saved.name.take e.name.length == e.name
  | .forwarder => sameIp v saved e
  | .latlon => true
  | .macaddr => false

/-- The update of the first stored entry by a position. -/
def updateLatlon (e saved : NameEntry) : NameEntry :=
  let saved := if saved.name.take e.name.length == e.name then saved else { saved with name := e.name }
  if sameIp v saved e then saved else { saved with ip := e.ip }

/-- The entries of a list after a valid one was received, `type` being that of the list. -/
def insertEntry (e : NameEntry) (names : List NameEntry) : List NameEntry :=
  if e.type = .latlon then
    match names with
    | [] => [e]
    | saved :: rest => updateLatlon v e saved :: rest
  else if names.any (alreadySaved v e) then names
  else e :: names

/-- The checks of `decap_namemsg` on a record. A name whose string has not the length of the record is refused, so that
the others see the bytes of the record. -/
def recordValid (m : Mem) (pos : Nat) (type : NameType) : Bool :=
  decide (recordLen m pos ≤ maxName) && m.strlenIs (pos + sizeofName) (recordLen m pos) &&
    checks.wellformed type (recordEntry m pos type).name && !(recordEntry m pos type).name.any forbidden

/-- `decap_namemsg` -/
def decapNamemsg (m : Mem) (pos : Nat) (type : NameType) (names : List NameEntry) : List NameEntry :=
  if recordValid checks m pos type then insertEntry v (recordEntry m pos type) names else names

/-- What `decap_namemsg` reads besides the type and the length. The string of a forwarder is left alone when its
length is too large, the address of a name or service that is saved already is not read. -/
def decapAccesses (m : Mem) (pos : Nat) (type : NameType) (names : List NameEntry) : List Access :=
  (if type = .forwarder ∧ recordLen m pos > maxName then [] else [.string (pos + sizeofName)]) ++
    if recordValid checks m pos type then
      if (type = .host ∨ type = .service) ∧ names.any (alreadySaved v (recordEntry m pos type)) then []
      else [.bytes (pos + 4) 16]
    else []

/-- What the record takes in the message: `1 + ((len - 1) | 3)` bytes for the name, where -1 | 3 is -1. -/
def recordStride (m : Mem) (pos : Nat) : Nat :=
  sizeofName + if recordLen m pos = 0 then 0 else 1 + ((recordLen m pos - 1) ||| 3)

/-- The lists of one originator in the tables of its names, forwarders, services, positions and macs. -/
abbrev NameLists := NameType → List NameEntry

/-- The loop of `update_name_entry`, with the accesses of each round. -/
def updateLoop (m : Mem) (endPos : Nat) : Nat → Nat → NameLists → NameLists × List Access
  | 0, _, lists => (lists, [])
  | i + 1, pos, lists =>
    if pos < endPos then
      match recordType m pos with
      | some type =>
        let after := Function.update lists type (decapNamemsg v checks m pos type (lists type))
        let (result, accesses) := updateLoop m endPos i (pos + recordStride m pos) after
        (result, .bytes pos 4 :: decapAccesses v checks m pos type (lists type) ++ accesses)
      | none =>
        let (result, accesses) := updateLoop m endPos i (pos + recordStride m pos) lists
        (result, .bytes pos 4 :: accesses)
    else (lists, [])

/-- `end_pos`: the size of the whole message is counted from behind both headers, and a pointer has 8 bytes. -/
def endPos (sizeofPtr msgSize : Nat) : Nat := headerSize v + sizeofNamemsg + msgSize - sizeofPtr

/-- `update_name_entry` for the lists of the originator -/
def updateNameEntry (platform : Platform) (m : Mem) (msgSize : Nat) (lists : NameLists) : NameLists × List Access :=
  let msg := headerSize v
  if m.u16 msg ≠ 1 then (lists, [.bytes msg 2])
  else
    let (lists, accesses) := updateLoop v checks m (endPos v platform.sizeofPtr msgSize) (m.u16 (msg + 2))
      (msg + sizeofNamemsg) lists
    (lists, .bytes msg 2 :: .bytes (msg + 2) 2 :: accesses)

end

end Olsrd.Nameservice
