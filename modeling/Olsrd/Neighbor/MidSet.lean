/-
`hashing.c`, and the association of interface addresses with main addresses (`mid_set.c`). The objects of
the two hash tables are in order of their lists; an alias is found in the reverse table with the main
address of the entry it belongs to, which never changes.
-/
import Olsrd.Core.Config
import Olsrd.Core.Timer

namespace Olsrd.Neighbor

/-! ## Hashing -/

/-- The three words of `__jhash_mix`. -/
structure Jhash where
  a : UInt32
  b : UInt32
  c : UInt32

def jhashMix (h : Jhash) : Jhash :=
  let a := (h.a - h.b - h.c) ^^^ (h.c >>> 13)
  let b := (h.b - h.c - a) ^^^ (a <<< 8)
  let c := (h.c - a - b) ^^^ (b >>> 13)
  let a := (a - b - c) ^^^ (c >>> 12)
  let b := (b - c - a) ^^^ (a <<< 16)
  let c := (c - a - b) ^^^ (b >>> 5)
  let a := (a - b - c) ^^^ (c >>> 3)
  let b := (b - c - a) ^^^ (a <<< 10)
  let c := (c - a - b) ^^^ (b >>> 15)
  ⟨a, b, c⟩

/-- Four bytes from `i` on, the first being the lowest; bytes behind the key count as zero. -/
def jhashWord (k : List UInt8) (i : Nat) : UInt32 :=
  (k.getD i 0).toUInt32 + ((k.getD (i + 1) 0).toUInt32 <<< 8) + ((k.getD (i + 2) 0).toUInt32 <<< 16) +
    ((k.getD (i + 3) 0).toUInt32 <<< 24)

/-- The rest of a key of fewer than twelve bytes; the lowest byte of `c` is reserved for the length. -/
def jhashTail (length : Nat) (h : Jhash) (k : List UInt8) : Jhash :=
  jhashMix ⟨h.a + jhashWord k 0, h.b + jhashWord k 4,
    h.c + UInt32.ofNat length + ((k.getD 8 0).toUInt32 <<< 8) + ((k.getD 9 0).toUInt32 <<< 16) +
      ((k.getD 10 0).toUInt32 <<< 24)⟩

def jhashBlocks (length : Nat) : Nat → Jhash → List UInt8 → Jhash
  | 0, h, k => jhashTail length h k
  | n + 1, h, k =>
    jhashBlocks length n (jhashMix ⟨h.a + jhashWord k 0, h.b + jhashWord k 4, h.c + jhashWord k 8⟩) (k.drop 12)

def jenkinsHash (k : List UInt8) : UInt32 :=
  (jhashBlocks k.length (k.length / 12) ⟨0x9e3779b9, 0x9e3779b9, 0⟩ k).c

def hashmask : UInt32 := 127

/-- The bucket of an address. -/
def olsrIpHashing (address : IpAddr) : Nat := (jenkinsHash address &&& hashmask).toNat

theorem olsrIpHashing_le (address : IpAddr) : olsrIpHashing address ≤ hashmask.toNat := by
  unfold olsrIpHashing
  rw [UInt32.toNat_and]
  exact Nat.and_le_right

/-! ## The MID set -/

/-- `struct mid_address` -/
structure MidAddress where
  aliasAddr : IpAddr
  vtime : Nat

/-- `struct mid_entry` -/
structure MidEntry where
  mainAddr : IpAddr
  aliases : List MidAddress
  midTimer : Option Timer

structure MidSet where
  midSet : Nat → List MidEntry
  /-- an alias and the main address of its entry -/
  reverseMidSet : Nat → List (IpAddr × IpAddr)

def emptyMidSet : MidSet := ⟨fun _ => [], fun _ => []⟩

def midLookupMainAddr (m : MidSet) (adr : IpAddr) : Option IpAddr :=
  ((m.reverseMidSet (olsrIpHashing adr)).find? fun x => x.1 == adr).map Prod.snd

def midLookupEntryBymain (m : MidSet) (adr : IpAddr) : Option MidEntry :=
  (m.midSet (olsrIpHashing adr)).find? fun e => e.mainAddr == adr

def midLookupAliases (m : MidSet) (adr : IpAddr) : List IpAddr :=
  ((midLookupEntryBymain m adr).map fun e => e.aliases.map MidAddress.aliasAddr).getD []

/-- The main address of a node that is known by `adr`. -/
def midMainAddr (m : MidSet) (adr : IpAddr) : IpAddr := (midLookupMainAddr m adr).getD adr

/-- `olsr_set_mid_timer`: a timer is only moved to a later time. -/
def olsrSetMidTimer (now random : Nat) (e : MidEntry) (relTimer : Nat) : MidEntry :=
  match e.midTimer with
  | some t => if t.clock < now ∨ t.clock - now < relTimer
    then { e with midTimer := olsrSetTimer now random e.midTimer relTimer 0 } else e
  | none => { e with midTimer := olsrSetTimer now random none relTimer 0 }

/-- Change the entry of a main address. -/
def MidSet.updateEntry (m : MidSet) (mainAddr : IpAddr) (f : MidEntry → MidEntry) : MidSet :=
  { m with
      midSet := Function.update m.midSet (olsrIpHashing mainAddr)
        ((m.midSet (olsrIpHashing mainAddr)).map fun e => if e.mainAddr == mainAddr then f e else e) }

/-- The part of `insert_mid_tuple` that adds the alias to the set. -/
def MidSet.register (m : MidSet) (now random : Nat) (mainAddr adr : IpAddr) (vtime : Nat) : MidSet :=
  let new : MidAddress := ⟨adr, 0⟩
  let m := match midLookupEntryBymain m mainAddr with
    | some _ => m.updateEntry mainAddr fun e => olsrSetMidTimer now random { e with aliases := new :: e.aliases } vtime
    | none =>
      { m with
          midSet := Function.update m.midSet (olsrIpHashing mainAddr)
            (olsrSetMidTimer now random ⟨mainAddr, [new], none⟩ vtime :: m.midSet (olsrIpHashing mainAddr)) }
  { m with
      reverseMidSet := Function.update m.reverseMidSet (olsrIpHashing adr)
        ((adr, mainAddr) :: m.reverseMidSet (olsrIpHashing adr)) }

/-- Take an alias of `mainAddr` out of the reverse table. -/
def MidSet.dequeueAlias (mainAddr : IpAddr) (m : MidSet) (adr : IpAddr) : MidSet :=
  { m with
      reverseMidSet := Function.update m.reverseMidSet (olsrIpHashing adr)
        ((m.reverseMidSet (olsrIpHashing adr)).erase (adr, mainAddr)) }

/-- `olsr_delete_mid_entry` -/
def olsrDeleteMidEntry (m : MidSet) (mid : MidEntry) : MidSet :=
  let m := (mid.aliases.map MidAddress.aliasAddr).foldl (MidSet.dequeueAlias mid.mainAddr) m
  { m with
      midSet := Function.update m.midSet (olsrIpHashing mid.mainAddr)
        ((m.midSet (olsrIpHashing mid.mainAddr)).filter fun e => e.mainAddr != mid.mainAddr) }

/-- `olsr_prune_aliases` keeps what the message declares; what it does not declare it keeps until its time is over,
unless the message declares nothing at all. -/
def keepsAlias (now : Nat) (declared : List IpAddr) (a : MidAddress) : Bool :=
  declared.contains a.aliasAddr || (decide (now < a.vtime) && !declared.isEmpty)

def refreshAlias (now vtime : Nat) (declared : List IpAddr) (a : MidAddress) : MidAddress :=
  if declared.contains a.aliasAddr then { a with vtime := now + vtime } else a

/-- The aliases of an entry that a message takes from it. -/
def prunedAliases (now : Nat) (declared : List IpAddr) (mid : MidEntry) : List IpAddr :=
  (mid.aliases.filter fun a => !keepsAlias now declared a).map MidAddress.aliasAddr

/-- `olsr_prune_aliases`, for the entry it finds. -/
def MidSet.prune (m : MidSet) (now vtime : Nat) (declared : List IpAddr) (mid : MidEntry) : MidSet :=
  ((prunedAliases now declared mid).foldl (MidSet.dequeueAlias mid.mainAddr) m).updateEntry mid.mainAddr fun e =>
    { e with aliases := (e.aliases.filter (keepsAlias now declared)).map (refreshAlias now vtime declared) }

/-- `olsr_update_mid_table` -/
def olsrUpdateMidTable (m : MidSet) (now random : Nat) (adr : IpAddr) (vtime : Nat) : MidSet :=
  m.updateEntry adr fun e => olsrSetMidTimer now random e vtime

end Olsrd.Neighbor
