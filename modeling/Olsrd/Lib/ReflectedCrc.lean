/-
Reflected cyclic redundancy checks: the remainder takes in the bits of a message one by one, the lowest bit of each byte
first. That it is linear lets it take in several bits at once.
-/
import Mathlib.Data.List.Range
import Mathlib.Tactic

namespace ReflectedCrc

variable {w : Nat} (poly : BitVec w)

/-- The remainder after a bit of the message: it moves down by one place, and the polynomial is subtracted if the bit
that leaves it differs from that of the message. -/
def takeBit (r : BitVec w) (b : Bool) : BitVec w :=
  if (r.getLsbD 0 ^^ b) = true then (r >>> 1) ^^^ poly else r >>> 1

/-- A step without a bit of the message. -/
def shift (r : BitVec w) : BitVec w := takeBit poly r false

def shifts : Nat → BitVec w → BitVec w
  | 0, r => r
  | n + 1, r => shifts n (shift poly r)

/-- The lowest `n` bits, the lowest first. -/
def lowBits (n : Nat) (x : BitVec w) : List Bool := (List.range n).map x.getLsbD

/-- The check of a message of bytes. -/
def crc (init final : BitVec w) (message : List (BitVec 8)) : BitVec w :=
  (message.flatMap (lowBits 8)).foldl (takeBit poly) init ^^^ final

variable {poly} {r x y : BitVec w} {n : Nat}

theorem lowBits_succ (n : Nat) (x : BitVec w) : lowBits (n + 1) x = x.getLsbD 0 :: lowBits n (x >>> 1) := by
  simp only [lowBits, List.range_succ_eq_map, List.map_cons, List.map_map]
  refine congrArg _ (List.map_congr_left fun i _ => ?_)
  simp [Nat.add_comm]

/-- The bits above the lowest move down on their own. -/
theorem shift_xor : shift poly (r ^^^ x) = takeBit poly r (x.getLsbD 0) ^^^ (x >>> 1) := by
  unfold shift takeBit
  rw [BitVec.getLsbD_xor, Bool.xor_false, BitVec.ushiftRight_xor_distrib]
  split
  · rw [BitVec.xor_assoc, BitVec.xor_comm (x >>> 1), ← BitVec.xor_assoc]
  · rfl

/-- Bits that are added to the remainder before the steps are taken in one by one. -/
theorem foldl_lowBits (n : Nat) (r x : BitVec w) (hx : x >>> n = 0#w) :
    (lowBits n x).foldl (takeBit poly) r = shifts poly n (r ^^^ x) := by
  induction n generalizing r x with
  | zero =>
    obtain rfl : x = 0#w := by simpa using hx
    simp [lowBits, shifts]
  | succ n ih =>
    have hshift : (x >>> 1) >>> n = 0#w := by
      rw [← BitVec.shiftRight_add, Nat.add_comm]
      exact hx
    rw [lowBits_succ, List.foldl_cons, ih _ _ hshift, shifts, shift_xor]

/-- Bits above the lowest `n` are moved down by `n` steps. -/
theorem shifts_xor (n : Nat) (r x : BitVec w) (hx : ∀ i < n, x.getLsbD i = false) :
    shifts poly n (r ^^^ x) = shifts poly n r ^^^ (x >>> n) := by
  induction n generalizing r x with
  | zero => simp [shifts]
  | succ n ih =>
    have hlow : ∀ i < n, (x >>> 1).getLsbD i = false := by
      intro i hi
      rw [BitVec.getLsbD_ushiftRight]
      exact hx (1 + i) (by omega)
    rw [shifts, shifts, shift_xor, hx 0 (Nat.succ_pos n), ih _ _ hlow, shift, ← BitVec.shiftRight_add, Nat.add_comm]

/-! ## Bytes -/

variable {b : BitVec 8}

theorem ushiftRight_setWidth (b : BitVec 8) : (b.setWidth w) >>> 8 = 0#w := by
  refine BitVec.eq_of_getLsbD_eq fun i hi => ?_
  rw [BitVec.getLsbD_ushiftRight, BitVec.getLsbD_setWidth, BitVec.getLsbD_of_ge b (8 + i) (by omega)]
  simp

/-- A byte is added to the remainder before eight steps. -/
theorem foldl_byte (hw : 8 ≤ w) (r : BitVec w) (b : BitVec 8) :
    (lowBits 8 b).foldl (takeBit poly) r = shifts poly 8 (r ^^^ b.setWidth w) := by
  rw [← foldl_lowBits 8 r _ (ushiftRight_setWidth b)]
  congr 1
  refine List.map_congr_left fun i hi => ?_
  have hi8 : i < 8 := List.mem_range.1 hi
  rw [BitVec.getLsbD_setWidth, decide_eq_true (by omega), Bool.true_and]

/-- Of the remainder, its lowest byte with that of the message decides what is subtracted in eight steps. -/
theorem shifts_byte (low r : BitVec w) (b : BitVec 8) (hlow : low = r &&& (255#8).setWidth w) :
    shifts poly 8 (r ^^^ b.setWidth w) = (r >>> 8) ^^^ shifts poly 8 (low ^^^ b.setWidth w) := by
  have hsplit : r ^^^ b.setWidth w = (low ^^^ b.setWidth w) ^^^ (r ^^^ low) := by
    rw [BitVec.xor_assoc, BitVec.xor_comm (b.setWidth w), ← BitVec.xor_assoc, ← BitVec.xor_assoc, BitVec.xor_comm low r,
      BitVec.xor_assoc r, BitVec.xor_self, BitVec.xor_zero]
  have hclear : ∀ i < 8, (r ^^^ low).getLsbD i = false := by
    intro i hi
    have hone : (255#8).getLsbD i = true := by
      interval_cases i <;> decide
    rw [hlow, BitVec.getLsbD_xor, BitVec.getLsbD_and, BitVec.getLsbD_setWidth, hone, Bool.and_true]
    by_cases hiw : i < w
    · simp [hiw]
    · simp [BitVec.getLsbD_of_ge r i (by omega)]
  have hlow_shift : low >>> 8 = 0#w := by
    rw [hlow, BitVec.ushiftRight_and_distrib, ushiftRight_setWidth, BitVec.and_zero]
  rw [hsplit, shifts_xor 8 _ _ hclear, BitVec.ushiftRight_xor_distrib, hlow_shift, BitVec.xor_zero, BitVec.xor_comm]

end ReflectedCrc
