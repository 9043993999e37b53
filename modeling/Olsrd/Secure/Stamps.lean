/-
The timestamp table of the secure plugin (`olsrd_secure.c`). The lists that hang off the hash values are one
list here, newest entry first: an address has one hash value, so a lookup sees the entries of an address in the
same order.
-/
import Olsrd.Core.Config
import Olsrd.Timers.Scheduler

namespace Olsrd.Secure

open Timers (olsrGetTimestamp olsrIsTimedOut)

/-! ## Entries -/

/-- `struct stamp`. `diff` is an `int` and holds one: it is written through `toInt` only. -/
structure Stamp where
  addr : IpAddr
  diff : Int
  challenge : BitVec 32
  validated : UInt8
  valtime : BitVec 32
  conftime : BitVec 32
  deriving DecidableEq

/-- The conversion of a `time_t` difference to `int`. -/
def toInt (x : Int) : Int := x.bmod 4294967296

/-- `TIMESTAMP_HOLD_TIME * 1000` -/
def timestampHoldTime : BitVec 32 := 30000#32

/-- `EXCHANGE_HOLD_TIME * 1000` -/
def exchangeHoldTime : BitVec 32 := 5000#32

/-- The clocks a function reads: `now.tv_sec` of the plugin and `now_times` of the scheduler. -/
structure Clock where
  now : Int
  nowTimes : BitVec 32

/-- `lookup_timestamp_entry` -/
def lookupTimestampEntry (adr : IpAddr) (stamps : List Stamp) : Option Stamp :=
  stamps.find? fun entry => entry.addr == adr

/-- Writes through the pointer that `lookup_timestamp_entry` returned. -/
def modifyEntry (adr : IpAddr) (f : Stamp → Stamp) : List Stamp → List Stamp
  | [] => []
  | entry :: stamps => if entry.addr == adr then f entry :: stamps else entry :: modifyEntry adr f stamps

/-- `timeout_timestamps`, after it has read the clock -/
def timeoutTimestamps (clock : Clock) (stamps : List Stamp) : List Stamp :=
  stamps.filter fun entry =>
    !(olsrIsTimedOut clock.nowTimes entry.valtime && olsrIsTimedOut clock.nowTimes entry.conftime)

/-! ## Lookups after writes -/

theorem lookup_cons (adr : IpAddr) (entry : Stamp) (stamps : List Stamp) :
    lookupTimestampEntry adr (entry :: stamps) =
      if entry.addr = adr then some entry else lookupTimestampEntry adr stamps := by
  unfold lookupTimestampEntry
  by_cases h : entry.addr = adr <;> simp [h]

theorem lookup_modifyEntry {adr adr' : IpAddr} {f : Stamp → Stamp} (hf : ∀ e, (f e).addr = e.addr)
    {stamps : List Stamp} : lookupTimestampEntry adr' (modifyEntry adr f stamps) =
      if adr' = adr then (lookupTimestampEntry adr' stamps).map f else lookupTimestampEntry adr' stamps := by
  induction stamps with
  | nil => simp [modifyEntry, lookupTimestampEntry]
  | cons entry stamps ih =>
    rw [modifyEntry, lookup_cons]
    by_cases h : entry.addr = adr
    · rw [if_pos (by simpa using h), lookup_cons, hf]
      by_cases hadr : adr' = adr
      · simp [h, hadr]
      · simp [h, hadr, Ne.symm hadr]
    · rw [if_neg (by simpa using h), lookup_cons, ih]
      by_cases hadr : adr' = adr
      · simp [h, hadr]
      · simp [hadr]

theorem addr_of_lookup {adr : IpAddr} {stamps : List Stamp} {entry : Stamp}
    (h : lookupTimestampEntry adr stamps = some entry) : entry.addr = adr := by
  simpa using List.find?_some h

theorem mem_of_lookup {adr : IpAddr} {stamps : List Stamp} {entry : Stamp}
    (h : lookupTimestampEntry adr stamps = some entry) : entry ∈ stamps :=
  List.mem_of_find?_eq_some h

theorem map_addr_modifyEntry {adr : IpAddr} {f : Stamp → Stamp} (hf : ∀ e, (f e).addr = e.addr) (stamps : List Stamp) :
    (modifyEntry adr f stamps).map Stamp.addr = stamps.map Stamp.addr := by
  induction stamps with
  | nil => rfl
  | cons entry stamps ih =>
    unfold modifyEntry
    split
    · simp [hf]
    · simp [ih]

end Olsrd.Secure
