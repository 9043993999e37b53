/-
The `pkt_get_*` functions of `lq_packet.h`: a cursor into a message that also records which bytes
were read. Offsets count from the first byte of the message; nothing stops a cursor at its end.
-/
import Olsrd.Core.Config

namespace Olsrd

open Bytes

/-- The position in a message, and the runs of bytes read so far, as start and length. -/
structure Cursor where
  curr : Nat
  reads : List (Nat × Nat)

namespace Cursor

def start : Cursor := ⟨0, []⟩

/-- Read `n` bytes and go on behind them. -/
def get (c : Cursor) (n : Nat) : Cursor := ⟨c.curr + n, (c.curr, n) :: c.reads⟩

/-- Go on without reading: `pkt_ignore_*`. -/
def ignore (c : Cursor) (n : Nat) : Cursor := ⟨c.curr + n, c.reads⟩

@[simp] theorem start_curr : start.curr = 0 := rfl
@[simp] theorem get_curr (c : Cursor) (n : Nat) : (c.get n).curr = c.curr + n := rfl
@[simp] theorem ignore_curr (c : Cursor) (n : Nat) : (c.ignore n).curr = c.curr + n := rfl
@[simp] theorem ignore_reads (c : Cursor) (n : Nat) : (c.ignore n).reads = c.reads := rfl

end Cursor

def pktGetU8 (msg : Mem) (c : Cursor) : UInt8 × Cursor := (msg c.curr, c.get 1)

def pktGetU16 (msg : Mem) (c : Cursor) : Nat × Cursor := (msg.u16 c.curr, c.get 2)

/-- `me_to_reltime`, in milliseconds -/
def meToReltime (me : UInt8) : Nat :=
  let a := me.toNat / 16
  let b := me.toNat % 16
  if b ≥ 8 then (16 + a) * 2 ^ (b - 8) * 1000 else (16 + a) * 1000 / 2 ^ (8 - b)

def pktGetReltime (msg : Mem) (c : Cursor) : Nat × Cursor := (meToReltime (msg c.curr), c.get 1)

def pktGetIpaddress (cnf : Cnf) (msg : Mem) (c : Cursor) : IpAddr × Cursor :=
  (msg.slice c.curr cnf.ipsize, c.get cnf.ipsize)

@[simp] theorem pktGetU8_snd (msg : Mem) (c : Cursor) : (pktGetU8 msg c).2 = c.get 1 := rfl
@[simp] theorem pktGetU16_snd (msg : Mem) (c : Cursor) : (pktGetU16 msg c).2 = c.get 2 := rfl
@[simp] theorem pktGetReltime_snd (msg : Mem) (c : Cursor) : (pktGetReltime msg c).2 = c.get 1 := rfl
@[simp] theorem pktGetIpaddress_snd (cnf : Cnf) (msg : Mem) (c : Cursor) :
    (pktGetIpaddress cnf msg c).2 = c.get cnf.ipsize := rfl

/-! ## Link quality pairs -/

/-- Which of the four bytes of a link quality pair the active plugin's `deserialize_*_lq` reads; it
steps over the others. -/
inductive PairReads where
  /-- `default_ff`, `default_float` and `default_fpm` -/
  | firstTwo
  /-- `default_ffeth` -/
  | lastTwo
  /-- `default_hybrid_plc` -/
  | allFour
  deriving DecidableEq, Repr

def PairReads.offsets : PairReads → List Nat
  | .firstTwo => [0, 1]
  | .lastTwo => [2, 3]
  | .allFour => [0, 1, 2, 3]

/-- `olsr_deserialize_hello_lq_pair`, `olsr_deserialize_tc_lq_pair`: the bytes of the pair. -/
def deserializeLqPair (pair : PairReads) (msg : Mem) (c : Cursor) : List UInt8 × Cursor :=
  (msg.slice c.curr 4, ⟨c.curr + 4, (pair.offsets.map fun o => (c.curr + o, 1)) ++ c.reads⟩)

@[simp] theorem deserializeLqPair_curr (pair : PairReads) (msg : Mem) (c : Cursor) :
    (deserializeLqPair pair msg c).2.curr = c.curr + 4 := rfl

/-! ## Staying inside the message -/

/-- Every byte read lies in `[0, n)`. -/
def Within (n : Nat) (reads : List (Nat × Nat)) : Prop := ∀ r ∈ reads, ∀ i < r.2, r.1 + i < n

theorem within_nil (n : Nat) : Within n [] := by simp [Within]

theorem within_cons {n o len : Nat} (h : 0 < len) (rs : List (Nat × Nat)) :
    Within n ((o, len) :: rs) ↔ o + len ≤ n ∧ Within n rs := by
  unfold Within
  rw [List.forall_mem_cons]
  refine and_congr_left fun _ => ⟨fun hi => ?_, fun hle i hi => by simp only at hi ⊢; omega⟩
  have := hi (len - 1) (by simp only; omega)
  simp only at this; omega

@[simp] theorem within_get {n len : Nat} (c : Cursor) (h : 0 < len) :
    Within n (c.get len).reads ↔ c.curr + len ≤ n ∧ Within n c.reads :=
  within_cons h c.reads

/-- Cursors and messages are aligned to four bytes, so that the bytes of a pair that are read tell
about all four. -/
theorem within_deserializeLqPair {n : Nat} (pair : PairReads) (msg : Mem) (c : Cursor) (hn : n % 4 = 0)
    (hc : c.curr % 4 = 0) :
    Within n (deserializeLqPair pair msg c).2.reads ↔ c.curr + 4 ≤ n ∧ Within n c.reads := by
  cases pair
  all_goals
    simp only [deserializeLqPair, PairReads.offsets, List.map_cons, List.map_nil, List.cons_append,
      List.nil_append, within_cons Nat.one_pos, ← and_assoc]
    exact and_congr_left fun _ => by omega

end Olsrd
