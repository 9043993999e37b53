/-
Byte memory as a C program sees it: a total map from offsets to bytes, so that a read past the
end of an object returns whatever lies there. Big-endian 16-bit fields, byte runs and copies into
memory, and the bytes of a number in either order.
-/
import Mathlib.Data.List.Range
import Mathlib.Tactic

namespace Bytes

/-- Memory from a fixed start address. -/
abbrev Mem := Nat → UInt8

namespace Mem

/-- The 16-bit big-endian field at `off`. -/
def u16 (m : Mem) (off : Nat) : Nat := (m off).toNat * 256 + (m (off + 1)).toNat

/-- The `n` bytes from `off` on. -/
def slice (m : Mem) (off n : Nat) : List UInt8 := (List.range n).map fun i => m (off + i)

/-- Copy `bs` to `off`, leaving every other byte as it was. -/
def write (m : Mem) (off : Nat) (bs : List UInt8) : Mem :=
  fun i => if off ≤ i then bs.getD (i - off) (m i) else m i

theorem u16_lt (m : Mem) (off : Nat) : m.u16 off < 65536 := by
  have h1 := (m off).toNat_lt
  have h2 := (m (off + 1)).toNat_lt
  unfold u16; omega

@[simp] theorem length_slice (m : Mem) (off n : Nat) : (m.slice off n).length = n := by
  simp [slice]

theorem slice_succ (m : Mem) (off n : Nat) : m.slice off (n + 1) = m off :: m.slice (off + 1) n := by
  simp only [slice, List.range_succ_eq_map, List.map_cons, List.map_map, Nat.add_zero]
  congr 1
  refine List.map_congr_left fun i _ => ?_
  simp only [Function.comp, Nat.succ_eq_add_one]
  congr 1; omega

theorem slice_add (m : Mem) (off k n : Nat) : m.slice off (k + n) = m.slice off k ++ m.slice (off + k) n := by
  induction k generalizing off with
  | zero => simp [slice]
  | succ k ih =>
    rw [Nat.add_right_comm, slice_succ, slice_succ, ih, List.cons_append]
    congr 3; omega

theorem slice_eq_iff {m m' : Mem} {off off' n : Nat} :
    m.slice off n = m'.slice off' n ↔ ∀ i < n, m (off + i) = m' (off' + i) := by
  simp only [slice]
  rw [List.map_inj_left]
  simp only [List.mem_range]

theorem getElem?_of_slice {m : Mem} {off n i : Nat} {bs : List UInt8} (h : m.slice off n = bs) (hi : i < n) :
    bs[i]? = some (m (off + i)) := by
  simp [← h, slice, hi]

theorem slice_sub {m : Mem} {off n k j : Nat} {bs : List UInt8} (h : m.slice off n = bs) (hk : k + j ≤ n) :
    m.slice (off + k) j = (bs.drop k).take j := by
  rw [← h]
  refine List.ext_getElem (by simp; omega) fun i h1 h2 => ?_
  simp [slice, Nat.add_assoc]

theorem write_apply {m : Mem} {off i : Nat} {bs : List UInt8} (h : i < bs.length) :
    (m.write off bs) (off + i) = bs[i] := by
  simp [write, h]

@[simp] theorem write_one (m : Mem) (off : Nat) (b : UInt8) : (m.write off [b]) off = b := by
  simp [write]

theorem write_apply_out {m : Mem} {off i : Nat} {bs : List UInt8} (h : i < off ∨ off + bs.length ≤ i) :
    (m.write off bs) i = m i := by
  unfold write
  split
  · rw [List.getD_eq_getElem?_getD, List.getElem?_eq_none (by omega)]
    rfl
  · rfl

theorem slice_write_out {m : Mem} {off off' n : Nat} {bs : List UInt8} (h : off' + n ≤ off ∨ off + bs.length ≤ off') :
    (m.write off bs).slice off' n = m.slice off' n :=
  slice_eq_iff.2 fun i hi => write_apply_out (by omega)

theorem slice_write (m : Mem) (off : Nat) (bs : List UInt8) : (m.write off bs).slice off bs.length = bs := by
  refine List.ext_getElem (by simp) fun i h1 h2 => ?_
  simp only [slice, List.getElem_map, List.getElem_range]
  exact write_apply h2

/-- What was written, read at its place in the written bytes. -/
theorem slice_write_mid {m : Mem} {off k n : Nat} {bs : List UInt8} (h : k + n ≤ bs.length) :
    (m.write off bs).slice (off + k) n = (bs.drop k).take n := by
  refine List.ext_getElem (by simp; omega) fun i h1 h2 => ?_
  have hi : i < n := by simpa using h1
  simp only [slice, List.getElem_map, List.getElem_range, List.getElem_take, List.getElem_drop]
  rw [Nat.add_assoc, write_apply (by omega)]

/-! ## Strings -/

/-- The string at `off`, which ends with its first zero, has length `n`. -/
def strlenIs (m : Mem) (off n : Nat) : Bool := m (off + n) == 0 && !(m.slice off n).contains 0

/-- A string at `off` ends before `limit`. -/
def TerminatedBefore (m : Mem) (limit off : Nat) : Prop := ∃ n, off + n < limit ∧ m (off + n) = 0

end Mem

/-! ## Numbers as bytes -/

/-- The lowest `n` bytes of a number, lowest first. -/
def littleEnd : Nat → Nat → List UInt8
  | 0, _ => []
  | n + 1, v => UInt8.ofNat v :: littleEnd n (v / 256)

/-- The lowest `n` bytes of a number, highest first. -/
def bigEnd (n v : Nat) : List UInt8 := (littleEnd n v).reverse

/-- The number whose digits to base 256 are the bytes, the first being the lowest. -/
def ofLittleEnd : List UInt8 → Nat
  | [] => 0
  | b :: bs => b.toNat + 256 * ofLittleEnd bs

@[simp] theorem length_littleEnd (n v : Nat) : (littleEnd n v).length = n := by
  induction n generalizing v with
  | zero => rfl
  | succ n ih => simp [littleEnd, ih]

@[simp] theorem length_bigEnd (n v : Nat) : (bigEnd n v).length = n := by
  simp [bigEnd]

theorem ofLittleEnd_littleEnd (n v : Nat) : ofLittleEnd (littleEnd n v) = v % 256 ^ n := by
  induction n generalizing v with
  | zero => simp [littleEnd, ofLittleEnd, Nat.mod_one]
  | succ n ih =>
    rw [littleEnd, ofLittleEnd, ih, Nat.pow_succ', Nat.mod_mul, UInt8.toNat_ofNat']

theorem littleEnd_ofLittleEnd (bs : List UInt8) : littleEnd bs.length (ofLittleEnd bs) = bs := by
  induction bs with
  | nil => rfl
  | cons b bs ih =>
    have hlt := b.toNat_lt
    rw [List.length_cons, littleEnd, ofLittleEnd, Nat.add_mul_div_left _ _ (by decide), Nat.div_eq_of_lt hlt,
      Nat.zero_add, ih]
    congr 1
    apply UInt8.toNat_inj.1
    rw [UInt8.toNat_ofNat']
    omega

theorem ofLittleEnd_lt (bs : List UInt8) : ofLittleEnd bs < 256 ^ bs.length := by
  induction bs with
  | nil => simp [ofLittleEnd]
  | cons b bs ih =>
    have hlt := b.toNat_lt
    rw [List.length_cons, Nat.pow_succ', ofLittleEnd]
    omega

theorem bigEnd_ofLittleEnd (bs : List UInt8) : bigEnd bs.length (ofLittleEnd bs) = bs.reverse :=
  congrArg List.reverse (littleEnd_ofLittleEnd bs)

/-- Only the lowest bytes of a number are written. -/
theorem littleEnd_mod (n v : Nat) : littleEnd n (v % 256 ^ n) = littleEnd n v := by
  have h := littleEnd_ofLittleEnd (littleEnd n v)
  rwa [length_littleEnd, ofLittleEnd_littleEnd] at h

theorem littleEnd_add (n k v : Nat) : littleEnd (n + k) v = littleEnd n v ++ littleEnd k (v / 256 ^ n) := by
  induction n generalizing v with
  | zero => simp [littleEnd]
  | succ n ih =>
    rw [Nat.add_right_comm, littleEnd, ih, littleEnd, List.cons_append, Nat.div_div_eq_div_mul, ← Nat.pow_succ']

theorem littleEnd_inj {n v w : Nat} (hv : v < 256 ^ n) (hw : w < 256 ^ n)
    (h : littleEnd n v = littleEnd n w) : v = w := by
  have heq := congrArg ofLittleEnd h
  rwa [ofLittleEnd_littleEnd, ofLittleEnd_littleEnd, Nat.mod_eq_of_lt hv, Nat.mod_eq_of_lt hw] at heq

end Bytes
