/-
The mantissa and exponent bytes of `mantissa.c` for time intervals. The exact value of a code is a rational number of
milliseconds; the encoder rounds down to a code, and the decoder rounds the value of a code down to milliseconds.
-/
import Mathlib.Algebra.Order.Floor.Semifield
import Mathlib.Data.Rat.Floor
import Mathlib.Tactic
import Olsrd.Lib.RoundDown
import Olsrd.Packet.Cursor

namespace Olsrd

open RoundDown (RoundsTo roundsTo_iff roundsTo_value)

/-! ## The encoder -/

/-- A shift of a word of 32 bits, undefined when the number of bits is negative or reaches the width. -/
def shiftLeft32 (x : UInt32) (n : Int) : Option UInt32 :=
  if 0 ≤ n ∧ n < 32 then some (x <<< UInt32.ofNat n.toNat) else none

/-- The loop of `reltime_to_me`, with a bound on its rounds. -/
def exponentLoop (unscaledInterval : UInt32) : Nat → UInt8 → Option UInt8
  | 0, _ => none
  | rounds + 1, b => do
    let power ← shiftLeft32 1 b.toNat
    if unscaledInterval ≥ power then exponentLoop unscaledInterval rounds (b + 1) else pure b

/-- The mantissa for an exponent, by one formula for the large and one for the small exponents. -/
def mantissa (interval : UInt32) (b : UInt8) : Option UInt8 := do
  let base ← shiftLeft32 125 (b.toNat - 1)
  if b ≥ 5 then do
    let unit ← shiftLeft32 125 (b.toNat - 5)
    pure ((interval - base) / unit).toUInt8
  else do
    let factor ← shiftLeft32 1 (5 - b.toNat)
    pure ((interval - base) * factor / 125).toUInt8

/-- `reltime_to_me`, without a result if a shift is undefined -/
def reltimeToMe (interval : UInt32) : Option UInt8 := do
  let unscaledInterval := interval / 125 * 2
  let b ← exponentLoop unscaledInterval 33 0
  let (a, b) : UInt8 × UInt8 ←
    if b = 0 then pure (1, 0)
    else
      let b := b - 1
      if b > 15 then pure (15, 15)
      else do
        let a ← mantissa interval b
        pure (a &&& 0x0f, b + a >>> 4)
  pure (a <<< 4 ||| b &&& 0x0F)

theorem shiftLeft32_some {x : UInt32} {n : Nat} (hn : n < 32) (hx : x.toNat * 2 ^ n < 2 ^ 32) {m : Int} (hm : m = n) :
    ∃ y, shiftLeft32 x m = some y ∧ y.toNat = x.toNat * 2 ^ n := by
  subst hm
  refine ⟨_, if_pos ⟨Int.natCast_nonneg n, by exact_mod_cast hn⟩, ?_⟩
  rw [Int.toNat_natCast, UInt32.toNat_shiftLeft, UInt32.toNat_ofNat_of_lt' (lt_trans hn (by decide)),
    Nat.mod_eq_of_lt hn, Nat.shiftLeft_eq, Nat.mod_eq_of_lt hx]

/-- The loop ends with the number of bits of the interval, before the shift reaches the width. -/
theorem exponentLoop_spec {unscaledInterval : UInt32} (hu : unscaledInterval.toNat < 2 ^ 31) :
    ∀ (rounds : Nat) (b : UInt8), b.toNat + rounds = 33 → b.toNat ≤ 31 →
      (b.toNat = 0 ∨ 2 ^ (b.toNat - 1) ≤ unscaledInterval.toNat) →
      ∃ c, exponentLoop unscaledInterval rounds b = some c ∧ unscaledInterval.toNat < 2 ^ c.toNat ∧
        (c.toNat = 0 ∨ 2 ^ (c.toNat - 1) ≤ unscaledInterval.toNat)
  | 0, b, hrounds, hb, _ => by omega
  | rounds + 1, b, hrounds, hb, hlow => by
    have hpow : 2 ^ b.toNat ≤ 2 ^ 31 := Nat.pow_le_pow_right (by decide) hb
    obtain ⟨power, hpower, hval⟩ : ∃ power, shiftLeft32 1 b.toNat = some power ∧ power.toNat = 2 ^ b.toNat := by
      obtain ⟨y, hy, hnat⟩ := @shiftLeft32_some 1 b.toNat (by omega) (by rw [UInt32.toNat_one]; omega) b.toNat rfl
      exact ⟨y, hy, by rw [hnat, UInt32.toNat_one, Nat.one_mul]⟩
    rw [exponentLoop, hpower, Option.bind_eq_bind, Option.bind_some]
    by_cases hge : unscaledInterval ≥ power
    · have hle : 2 ^ b.toNat ≤ unscaledInterval.toNat := by
        rw [← hval]
        exact UInt32.le_iff_toNat_le.1 hge
      have hlt : b.toNat < 31 := (Nat.pow_lt_pow_iff_right (by decide)).1 (lt_of_le_of_lt hle hu)
      have hsucc : (b + 1).toNat = b.toNat + 1 := by
        rw [UInt8.toNat_add, UInt8.toNat_one]
        omega
      rw [if_pos hge]
      refine exponentLoop_spec hu rounds (b + 1) (by omega) (by omega) (.inr ?_)
      rw [hsucc, Nat.add_sub_cancel]
      exact hle
    · rw [if_neg hge]
      refine ⟨b, rfl, ?_, hlow⟩
      rw [← hval]
      exact UInt32.lt_iff_toNat_lt.1 (UInt32.not_le.1 hge)

theorem shiftLeft32_pow {x : UInt32} (hx : x.toNat ≤ 125) {n : Nat} (hn : n ≤ 14) {m : Int} (hm : m = n) :
    ∃ y, shiftLeft32 x m = some y ∧ y.toNat = x.toNat * 2 ^ n := by
  have hpow : 2 ^ n ≤ 2 ^ 14 := Nat.pow_le_pow_right (by decide) hn
  have hmul := Nat.mul_le_mul hx hpow
  exact shiftLeft32_some (by omega) (by omega) hm

/-- A quotient between 16 and 32 leaves a mantissa of four bits. -/
theorem mantissa_bounds {q : UInt32} {n : Nat} (hq : q.toNat = n - 16) (hlow : 16 ≤ n) (hhigh : n < 32) :
    q.toUInt8.toNat < 16 ∧ 16 + q.toUInt8.toNat = n := by
  rw [UInt32.toNat_toUInt8]
  omega

/-- Both formulas give the quotient of the interval and the unit of its exponent. -/
theorem mantissa_spec {interval : UInt32} {b : UInt8} (hpos : 1 ≤ b.toNat) (hb : b.toNat ≤ 15)
    (hlow : 125 * 2 ^ (b.toNat - 1) ≤ interval.toNat) (hhigh : interval.toNat < 125 * 2 ^ b.toNat) :
    ∃ a, mantissa interval b = some a ∧ a.toNat < 16 ∧ 16 + a.toNat = 32 * interval.toNat / (125 * 2 ^ b.toNat) := by
  obtain ⟨base, hbase, hbaseNat⟩ := @shiftLeft32_pow 125 (by decide) (b.toNat - 1) (by omega) (b.toNat - 1) (by omega)
  have hsub : (interval - base).toNat = interval.toNat - 125 * 2 ^ (b.toNat - 1) := by
    rw [UInt32.toNat_sub_of_le _ _ (UInt32.le_iff_toNat_le.2 (by rw [hbaseNat]; exact hlow)), hbaseNat]
    rfl
  unfold mantissa
  rw [hbase, Option.bind_eq_bind, Option.bind_some]
  by_cases hge : b ≥ 5
  · have hge' : 5 ≤ b.toNat := UInt8.le_iff_toNat_le.1 hge
    obtain ⟨k, hk⟩ := Nat.exists_eq_add_of_le hge'
    obtain ⟨unit, hunit, hunitNat⟩ := @shiftLeft32_pow 125 (by decide) k (by omega) (b.toNat - 5) (by omega)
    have hquot : ((interval - base) / unit).toNat = interval.toNat / (125 * 2 ^ k) - 16 := by
      rw [UInt32.toNat_div, hsub, hunitNat]
      have h16 : 125 * 2 ^ (b.toNat - 1) = 125 * 2 ^ k * 16 := by
        rw [hk, show 5 + k - 1 = k + 4 by omega, Nat.pow_add, Nat.mul_assoc]
      rw [h16]
      exact Nat.sub_mul_div _ _ _
    have hunits : 125 * 2 ^ b.toNat = 32 * (125 * 2 ^ k) := by
      rw [hk, Nat.pow_add]
      ring
    rw [if_pos hge, hunit, Option.bind_some, hunits, Nat.mul_div_mul_left _ _ (by decide)]
    refine ⟨_, rfl, mantissa_bounds hquot ?_ ?_⟩
    · rw [Nat.le_div_iff_mul_le (by positivity)]
      rw [hk, show 5 + k - 1 = 4 + k by omega, Nat.pow_add] at hlow
      linarith
    · rw [Nat.div_lt_iff_lt_mul (by positivity)]
      linarith
  · have hlt : b.toNat < 5 := UInt8.lt_iff_toNat_lt.1 (UInt8.not_le.1 hge)
    obtain ⟨k, hk⟩ := Nat.exists_eq_add_of_lt hlt
    obtain ⟨factor, hfactor, hfactorNat⟩ := @shiftLeft32_pow 1 (by decide) (k + 1) (by omega) (5 - b.toNat) (by omega)
    have hpow : 2 ^ b.toNat * 2 ^ (k + 1) = 32 := by
      rw [← Nat.pow_add, show b.toNat + (k + 1) = 5 by omega]
    have hbasePow : 2 ^ (b.toNat - 1) * 2 ^ (k + 1) = 16 := by
      rw [← Nat.pow_add, show b.toNat - 1 + (k + 1) = 4 by omega]
    have hpowPos : 0 < 2 ^ (k + 1) := by positivity
    have hprod : ((interval - base) * factor).toNat = interval.toNat * 2 ^ (k + 1) - 125 * 16 := by
      rw [UInt32.toNat_mul, hsub, hfactorNat, UInt32.toNat_one, Nat.one_mul, Nat.sub_mul, Nat.mul_assoc 125, hbasePow]
      refine Nat.mod_eq_of_lt ?_
      have := Nat.mul_lt_mul_of_pos_right hhigh hpowPos
      rw [Nat.mul_assoc, hpow] at this
      omega
    have hquot : ((interval - base) * factor / 125).toNat = interval.toNat * 2 ^ (k + 1) / 125 - 16 := by
      rw [UInt32.toNat_div, hprod]
      exact Nat.sub_mul_div _ _ _
    have hunits : 32 * interval.toNat / (125 * 2 ^ b.toNat) = interval.toNat * 2 ^ (k + 1) / 125 := by
      rw [← hpow, Nat.mul_comm 125, Nat.mul_assoc, Nat.mul_div_mul_left _ _ (by positivity), Nat.mul_comm]
    rw [if_neg hge, hfactor, Option.bind_some, hunits]
    refine ⟨_, rfl, mantissa_bounds hquot ?_ ?_⟩
    · rw [Nat.le_div_iff_mul_le (by decide)]
      have := Nat.mul_le_mul_right (2 ^ (k + 1)) hlow
      rw [Nat.mul_assoc, hbasePow] at this
      omega
    · rw [Nat.div_lt_iff_lt_mul (by decide)]
      have := Nat.mul_lt_mul_of_pos_right hhigh hpowPos
      rw [Nat.mul_assoc, hpow] at this
      omega

/-! ## The values of the codes -/

/-- The value of a code as a multiple of 125/32 ms. -/
def meUnits (me : UInt8) : Nat := (16 + me.toNat / 16) * 2 ^ (me.toNat % 16)

/-- The exact value of a code in milliseconds. -/
def meValue (me : UInt8) : ℚ := 1000 * (16 + (me.toNat / 16 : ℕ)) * 2 ^ (me.toNat % 16) / 256

theorem meValue_eq (me : UInt8) : meValue me = 125 * meUnits me / 32 := by
  unfold meValue meUnits
  push_cast
  ring

theorem meValue_le_natCast {me : UInt8} {n : Nat} : meValue me ≤ n ↔ 125 * meUnits me ≤ 32 * n := by
  rw [meValue_eq, div_le_iff₀ (by norm_num)]
  norm_cast
  rw [Nat.mul_comm n]

theorem meValue_lt_iff {me me' : UInt8} : meValue me < meValue me' ↔ meUnits me < meUnits me' := by
  rw [meValue_eq, meValue_eq, div_lt_div_iff_of_pos_right (by norm_num), mul_lt_mul_iff_right₀ (by norm_num)]
  norm_cast

/-- A code of a smaller exponent is below all codes of the exponent. -/
theorem meUnits_lt_of_exponent {me me' : UInt8} (hb : me'.toNat % 16 < me.toNat % 16) : meUnits me' < meUnits me := by
  have ha' : me'.toNat / 16 < 16 := Nat.div_lt_of_lt_mul me'.toNat_lt
  unfold meUnits
  calc (16 + me'.toNat / 16) * 2 ^ (me'.toNat % 16)
      < 32 * 2 ^ (me'.toNat % 16) := Nat.mul_lt_mul_of_pos_right (by omega) (by positivity)
    _ = 16 * 2 ^ (me'.toNat % 16 + 1) := by rw [Nat.pow_succ]; ring
    _ ≤ 16 * 2 ^ (me.toNat % 16) := Nat.mul_le_mul_left _ (Nat.pow_le_pow_right (by decide) hb)
    _ ≤ (16 + me.toNat / 16) * 2 ^ (me.toNat % 16) := Nat.mul_le_mul_right _ (by omega)

/-- The next larger code is at least one unit of the exponent away. -/
theorem meUnits_step {me me' : UInt8} (h : meUnits me < meUnits me') :
    meUnits me + 2 ^ (me.toNat % 16) ≤ meUnits me' := by
  have hb : me.toNat % 16 ≤ me'.toNat % 16 := le_of_not_gt fun hb => absurd h (meUnits_lt_of_exponent hb).asymm
  obtain ⟨k, hk⟩ := Nat.exists_eq_add_of_le hb
  unfold meUnits at h ⊢
  rw [hk, Nat.pow_add, ← Nat.mul_assoc, Nat.mul_right_comm] at h ⊢
  rw [← Nat.succ_mul]
  exact Nat.mul_le_mul_right _ (Nat.lt_of_mul_lt_mul_right h)

theorem meUnits_injective : Function.Injective meUnits := by
  intro me me' h
  have hb : me.toNat % 16 = me'.toNat % 16 := by
    rcases lt_trichotomy (me.toNat % 16) (me'.toNat % 16) with hb | hb | hb
    · exact absurd h (meUnits_lt_of_exponent hb).ne
    · exact hb
    · exact absurd h.symm (meUnits_lt_of_exponent hb).ne
  unfold meUnits at h
  rw [hb] at h
  have ha := Nat.eq_of_mul_eq_mul_right (by positivity) h
  refine UInt8.toNat_inj.1 ?_
  omega

theorem meValue_injective : Function.Injective meValue := by
  intro me me' h
  refine meUnits_injective ?_
  rw [meValue_eq, meValue_eq, div_left_inj' (by norm_num), mul_right_inj' (by norm_num)] at h
  exact_mod_cast h

/-- The decoder rounds down. -/
theorem meToReltime_eq (me : UInt8) : meToReltime me = ⌊meValue me⌋₊ := by
  have hfloor : ⌊meValue me⌋₊ = 1000 * (16 + me.toNat / 16) * 2 ^ (me.toNat % 16) / 256 := by
    rw [← @Nat.floor_div_eq_div ℚ]
    unfold meValue
    push_cast
    rfl
  rw [hfloor]
  unfold meToReltime
  dsimp only
  split
  · next hb =>
    obtain ⟨k, hk⟩ := Nat.exists_eq_add_of_le hb
    rw [hk, Nat.add_sub_cancel_left, Nat.pow_add, ← Nat.mul_assoc, Nat.mul_right_comm _ (2 ^ 8),
      Nat.mul_div_cancel _ (by decide)]
    ring
  · next hb =>
    have h256 : 256 = 2 ^ (8 - me.toNat % 16) * 2 ^ (me.toNat % 16) := by
      rw [← Nat.pow_add, Nat.sub_add_cancel (by omega)]
    rw [h256, Nat.mul_div_mul_right _ _ (by positivity), Nat.mul_comm 1000]

theorem meToReltime_le (me : UInt8) : (meToReltime me : ℚ) ≤ meValue me := by
  rw [meToReltime_eq]
  refine Nat.floor_le ?_
  rw [meValue_eq]
  positivity

/-! ## What the encoder gives -/

/-- The fields of the byte. -/
theorem fields_pack {a b : UInt8} (ha : a.toNat < 16) (hb : b.toNat < 16) :
    (a <<< 4 ||| b &&& 0x0f).toNat / 16 = a.toNat ∧ (a <<< 4 ||| b &&& 0x0f).toNat % 16 = b.toNat := by
  have hand : b &&& 0x0f = b := by
    refine UInt8.toNat_inj.1 ?_
    rw [UInt8.toNat_and, show (0x0f : UInt8).toNat = 2 ^ 4 - 1 from rfl, Nat.and_two_pow_sub_one_eq_mod]
    omega
  have hshift : (a <<< 4).toNat = a.toNat <<< 4 := by
    rw [UInt8.toNat_shiftLeft, show (4 : UInt8).toNat % 8 = 4 from rfl, Nat.shiftLeft_eq]
    omega
  rw [hand, UInt8.toNat_or, hshift, ← Nat.shiftLeft_add_eq_or_of_lt (by omega), Nat.shiftLeft_eq]
  omega

/-- The exponent that the loop finds. -/
theorem exponentLoop_interval (interval : UInt32) : ∃ c, exponentLoop (interval / 125 * 2) 33 0 = some c ∧
    2 * (interval.toNat / 125) < 2 ^ c.toNat ∧ (c.toNat = 0 ∨ 2 ^ (c.toNat - 1) ≤ 2 * (interval.toNat / 125)) := by
  have hlt := interval.toNat_lt
  have hu : (interval / 125 * 2).toNat = 2 * (interval.toNat / 125) := by
    rw [UInt32.toNat_mul, UInt32.toNat_div, show (125 : UInt32).toNat = 125 from rfl,
      show (2 : UInt32).toNat = 2 from rfl]
    omega
  have hspec := @exponentLoop_spec (interval / 125 * 2) (by omega) 33 0 rfl (by decide) (.inl rfl)
  rwa [hu] at hspec

theorem toNat_pred {c : UInt8} (hc : 1 ≤ c.toNat) : (c - 1).toNat = c.toNat - 1 :=
  UInt8.toNat_sub_of_le c 1 (UInt8.le_iff_toNat_le.2 hc)

theorem reltimeToMe_small {interval : UInt32} (h : interval.toNat < 125) : reltimeToMe interval = some 0x10 := by
  obtain ⟨c, hc, -, hlow⟩ := exponentLoop_interval interval
  have hzero : c.toNat = 0 := by
    refine hlow.resolve_right fun hle => ?_
    have := Nat.pow_pos (n := c.toNat - 1) (show 0 < 2 by decide)
    omega
  obtain rfl : c = 0 := UInt8.toNat_inj.1 hzero
  simp only [reltimeToMe, hc, Option.bind_eq_bind, Option.bind_some, if_pos]
  rfl

theorem reltimeToMe_large {interval : UInt32} (h : 4096000 ≤ interval.toNat) : reltimeToMe interval = some 0xff := by
  obtain ⟨c, hc, hhigh, -⟩ := exponentLoop_interval interval
  have h16 : 16 < c.toNat := by
    have : 2 ^ 16 < 2 ^ c.toNat := by omega
    exact (Nat.pow_lt_pow_iff_right (by decide)).1 this
  have hne : c ≠ 0 := by
    rintro rfl
    exact absurd h16 (by decide)
  have hgt : c - 1 > 15 := by
    rw [gt_iff_lt, UInt8.lt_iff_toNat_lt, toNat_pred (by omega), show (15 : UInt8).toNat = 15 from rfl]
    omega
  simp only [reltimeToMe, hc, Option.bind_eq_bind, Option.bind_some, if_neg hne, if_pos hgt]
  rfl

/-- Every interval between the smallest and the largest exponent is rounded down to a code. -/
theorem reltimeToMe_middle {interval : UInt32} (hlow : 125 ≤ interval.toNat) (hhigh : interval.toNat < 4096000) :
    ∃ me, reltimeToMe interval = some me ∧ 125 * meUnits me ≤ 32 * interval.toNat ∧
      32 * interval.toNat < 125 * (meUnits me + 2 ^ (me.toNat % 16)) := by
  obtain ⟨c, hc, hlt, hge⟩ := exponentLoop_interval interval
  have hc2 : 2 ≤ c.toNat := by
    by_contra hlt2
    have : 2 ^ c.toNat ≤ 2 ^ 1 := Nat.pow_le_pow_right (by decide) (by omega)
    omega
  have hc16 : c.toNat ≤ 16 := by
    by_contra hgt
    have : 2 ^ 16 ≤ 2 ^ (c.toNat - 1) := Nat.pow_le_pow_right (by decide) (by omega)
    omega
  have hb : (c - 1).toNat = c.toNat - 1 := toNat_pred (by omega)
  obtain ⟨k, hk⟩ : ∃ k, c.toNat = k + 2 := Nat.exists_eq_add_of_le' hc2
  rw [hk] at hlt hge
  have hge' := hge.resolve_left (by omega)
  rw [show k + 2 - 1 = k + 1 from rfl, Nat.pow_succ] at hge'
  rw [Nat.pow_succ, Nat.pow_succ] at hlt
  obtain ⟨a, ha, ha16, hquot⟩ := @mantissa_spec interval (c - 1) (by omega) (by omega)
    (by rw [hb, hk, show k + 2 - 1 - 1 = k from rfl]; omega)
    (by rw [hb, hk, show k + 2 - 1 = k + 1 from rfl, Nat.pow_succ]; omega)
  have hne : c ≠ 0 := by
    rintro rfl
    exact absurd hc2 (by decide)
  have hle : ¬c - 1 > 15 := by
    rw [gt_iff_lt, UInt8.lt_iff_toNat_lt, hb, show (15 : UInt8).toNat = 15 from rfl]
    omega
  have hcarry : a >>> 4 = 0 := by
    refine UInt8.toNat_inj.1 ?_
    rw [UInt8.toNat_shiftRight, show (4 : UInt8).toNat % 8 = 4 from rfl, Nat.shiftRight_eq_div_pow]
    exact Nat.div_eq_of_lt ha16
  have hmask : a &&& 0x0f = a := by
    refine UInt8.toNat_inj.1 ?_
    rw [UInt8.toNat_and, show (0x0f : UInt8).toNat = 2 ^ 4 - 1 from rfl, Nat.and_two_pow_sub_one_eq_mod]
    omega
  obtain ⟨hfst, hsnd⟩ := @fields_pack a (c - 1) ha16 (by omega)
  refine ⟨a <<< 4 ||| (c - 1) &&& 0x0f, ?_, ?_⟩
  · simp only [reltimeToMe, hc, Option.bind_eq_bind, Option.bind_some, if_neg hne, if_neg hle, ha, hcarry, hmask,
      UInt8.add_zero]
    rfl
  · unfold meUnits
    rw [hfst, hsnd, hquot]
    have hpos : 0 < 125 * 2 ^ (c - 1).toNat := by positivity
    have := Nat.div_mul_le_self (32 * interval.toNat) (125 * 2 ^ (c - 1).toNat)
    have := @Nat.lt_div_mul_add (32 * interval.toNat) _ hpos
    constructor
    · linarith
    · linarith

/-- The code of an interval in between, and what rounding takes away. -/
theorem roundsTo_reltimeToMe {interval : UInt32} (hlow : 125 ≤ interval.toNat) (hhigh : interval.toNat < 4096000) :
    ∃ me, reltimeToMe interval = some me ∧ RoundsTo meValue interval.toNat me ∧
      interval.toNat - meValue me < meValue me / 16 := by
  obtain ⟨me, hme, hle, hlt⟩ := reltimeToMe_middle hlow hhigh
  refine ⟨me, hme, roundsTo_iff.2 ⟨meValue_le_natCast.2 hle, fun me' hme' => ?_⟩, ?_⟩
  · refine lt_of_not_ge fun hge => ?_
    have hstep := Nat.mul_le_mul_left 125 (meUnits_step (meValue_lt_iff.1 hme'))
    have := meValue_le_natCast.1 hge
    omega
  · have hunit : 2 ^ (me.toNat % 16) * 16 ≤ meUnits me := by
      rw [Nat.mul_comm]
      exact Nat.mul_le_mul_right _ (by omega)
    have hlt' : (32 * interval.toNat : ℚ) < 125 * (meUnits me + 2 ^ (me.toNat % 16)) := by exact_mod_cast hlt
    have hunit' : (2 ^ (me.toNat % 16) * 16 : ℚ) ≤ meUnits me := by exact_mod_cast hunit
    rw [meValue_eq]
    linarith

theorem meUnits_le (me : UInt8) : meUnits me ≤ meUnits 0xff := by
  have hb : 2 ^ (me.toNat % 16) ≤ 2 ^ 15 := Nat.pow_le_pow_right (by decide) (by omega)
  have ha : 16 + me.toNat / 16 ≤ 31 := by
    have := me.toNat_lt
    omega
  exact Nat.mul_le_mul ha hb

theorem meValue_le (me : UInt8) : meValue me ≤ meValue 0xff :=
  le_of_not_gt fun h => absurd (meValue_lt_iff.1 h) (not_lt_of_ge (meUnits_le me))

/-- From 125 ms on, the code is at least that of 125 ms. -/
theorem meValue_ge {interval : UInt32} {me : UInt8} (hlow : 125 ≤ interval.toNat)
    (h : RoundsTo meValue (interval.toNat : ℚ) me) : 125 ≤ meValue me := by
  have hone : meValue 0x01 = 125 := by
    rw [meValue_eq, show meUnits 0x01 = 32 from rfl]
    norm_num
  rw [← hone]
  refine h.greatest 0x01 ?_
  rw [hone]
  exact_mod_cast hlow

theorem reltimeToMe_mono {interval interval' : UInt32} {me me' : UInt8} (hle : interval ≤ interval')
    (h : reltimeToMe interval = some me) (h' : reltimeToMe interval' = some me') : meValue me ≤ meValue me' := by
  have hle' : interval.toNat ≤ interval'.toNat := UInt32.le_iff_toNat_le.1 hle
  rcases Nat.lt_or_ge interval'.toNat 4096000 with hhigh | hhigh
  · rcases Nat.lt_or_ge interval.toNat 125 with hlow | hlow
    · obtain rfl : 0x10 = me := Option.some.inj ((reltimeToMe_small hlow).symm.trans h)
      rcases Nat.lt_or_ge interval'.toNat 125 with hlow' | hlow'
      · obtain rfl : 0x10 = me' := Option.some.inj ((reltimeToMe_small hlow').symm.trans h')
        exact le_refl _
      · obtain ⟨d, hd, hround, -⟩ := roundsTo_reltimeToMe hlow' hhigh
        obtain rfl := Option.some.inj (hd.symm.trans h')
        refine le_trans ?_ (meValue_ge hlow' hround)
        rw [meValue_eq, show meUnits 0x10 = 17 from rfl]
        norm_num
    · obtain ⟨c, hc, hround, -⟩ := roundsTo_reltimeToMe hlow (by omega)
      obtain ⟨d, hd, hround', -⟩ := roundsTo_reltimeToMe (by omega) hhigh
      obtain rfl := Option.some.inj (hc.symm.trans h)
      obtain rfl := Option.some.inj (hd.symm.trans h')
      exact hround.mono hround' (by exact_mod_cast hle')
  · obtain rfl : 0xff = me' := Option.some.inj ((reltimeToMe_large hhigh).symm.trans h')
    exact meValue_le me

theorem reltimeToMe_isSome (interval : UInt32) : (reltimeToMe interval).isSome = true := by
  rcases Nat.lt_or_ge interval.toNat 125 with hlow | hlow
  · rw [reltimeToMe_small hlow]
    rfl
  · rcases Nat.lt_or_ge interval.toNat 4096000 with hhigh | hhigh
    · obtain ⟨me, hme, -⟩ := roundsTo_reltimeToMe hlow hhigh
      rw [hme]
      rfl
    · rw [reltimeToMe_large hhigh]
      rfl

/-- The encoder has a result, which means that its shifts are defined, and rounds down to the nearest code; the decoder
rounds down to milliseconds. -/
theorem reltimeToMe_tight : (∀ interval, (reltimeToMe interval).isSome = true) ∧
    (∀ interval me, 125 ≤ interval.toNat → interval.toNat < 4096000 → reltimeToMe interval = some me →
      RoundsTo meValue interval.toNat me ∧ (∀ me', meValue me < meValue me' → interval.toNat < meValue me') ∧
        interval.toNat - meValue me < meValue me / 16) ∧
    (∀ interval, 4096000 ≤ interval.toNat → reltimeToMe interval = some 0xff) ∧
    (∀ interval interval' me me', interval ≤ interval' → reltimeToMe interval = some me →
      reltimeToMe interval' = some me' → meValue me ≤ meValue me') ∧
    Function.Injective meValue ∧ ∀ me, meToReltime me = ⌊meValue me⌋₊ := by
  refine ⟨reltimeToMe_isSome, fun interval me hlow hhigh hme => ?_, fun _ => reltimeToMe_large,
    fun _ _ _ _ => reltimeToMe_mono, meValue_injective, meToReltime_eq⟩
  obtain ⟨c, hc, hround, herror⟩ := roundsTo_reltimeToMe hlow hhigh
  obtain rfl := Option.some.inj (hc.symm.trans hme)
  exact ⟨hround, fun _ => hround.lt, herror⟩

/-! ## Encoding again -/

theorem toNat_meToReltime (me : UInt8) : (UInt32.ofNat (meToReltime me)).toNat = meToReltime me ∧
    meToReltime me < 4096000 := by
  have hmax : meValue 0xff = 3968000 := by
    rw [meValue_eq, show meUnits 0xff = 31 * 2 ^ 15 from rfl]
    norm_num
  have hle : (meToReltime me : ℚ) ≤ 3968000 := hmax ▸ le_trans (meToReltime_le me) (meValue_le me)
  have hle' : meToReltime me ≤ 3968000 := by exact_mod_cast hle
  exact ⟨UInt32.toNat_ofNat_of_lt' (lt_of_le_of_lt hle' (by decide)), lt_of_le_of_lt hle' (by decide)⟩

/-- A code whose value is at least 125 ms is encoded again as a code that is not larger, and as itself if nothing was
lost. -/
theorem reltimeToMe_decoded {me : UInt8} (hge : 125 ≤ meValue me) :
    ∃ me', reltimeToMe (UInt32.ofNat (meToReltime me)) = some me' ∧ meValue me' ≤ meValue me ∧
      (me' = me ↔ meValue me = meToReltime me) := by
  obtain ⟨hnat, hlt⟩ := toNat_meToReltime me
  have hlow : 125 ≤ meToReltime me := by
    rw [meToReltime_eq]
    exact Nat.le_floor (by exact_mod_cast hge)
  obtain ⟨me', hme', hround, -⟩ := @roundsTo_reltimeToMe (UInt32.ofNat (meToReltime me)) (by rw [hnat]; exact hlow)
    (by rw [hnat]; exact hlt)
  rw [hnat] at hround
  refine ⟨me', hme', le_trans hround.le (meToReltime_le me), ?_⟩
  rw [eq_comm (a := meValue me), ← hround.value_eq_iff (meToReltime_le me)]
  exact meValue_injective.eq_iff.symm

/-- From the exponent 5 on, values are whole numbers. -/
theorem meValue_whole {interval : UInt32} {me : UInt8} (hge : 2000 ≤ interval.toNat)
    (h : RoundsTo meValue (interval.toNat : ℚ) me) : meValue me = meToReltime me := by
  have h5 : 5 ≤ me.toNat % 16 := by
    by_contra hlt
    have hunits : meUnits 0x05 ≤ meUnits me := by
      refine le_of_not_gt fun hunits => absurd (h.greatest 0x05 ?_) (not_le_of_gt (meValue_lt_iff.2 hunits))
      rw [meValue_le_natCast, show meUnits 0x05 = 512 from rfl]
      omega
    exact absurd hunits (not_le_of_gt (@meUnits_lt_of_exponent 0x05 me (by
      rw [show (0x05 : UInt8).toNat % 16 = 5 from rfl]
      omega)))
  obtain ⟨k, hk⟩ := Nat.exists_eq_add_of_le h5
  have hvalue : meValue me = ((125 * ((16 + me.toNat / 16) * 2 ^ k) : ℕ) : ℚ) := by
    rw [meValue_eq, meUnits, hk, Nat.pow_add]
    push_cast
    ring
  rw [meToReltime_eq, hvalue, Nat.floor_natCast]

/-- The byte of an interval survives decoding and encoding exactly if its value is a whole number of milliseconds, and
always for intervals below 125 ms and from 2 s on; otherwise it becomes a smaller code. -/
theorem reltimeToMe_again (interval : UInt32) : ∃ me me', reltimeToMe interval = some me ∧
    reltimeToMe (UInt32.ofNat (meToReltime me)) = some me' ∧ meValue me' ≤ meValue me ∧
    (me' = me ↔ interval.toNat < 125 ∨ meValue me = meToReltime me) ∧
    (2000 ≤ interval.toNat → me' = me) := by
  rcases Nat.lt_or_ge interval.toNat 125 with hlow | hlow
  · exact ⟨0x10, 0x10, reltimeToMe_small hlow, reltimeToMe_small (by decide), le_refl _, iff_of_true rfl (.inl hlow),
      fun _ => rfl⟩
  · rcases Nat.lt_or_ge interval.toNat 4096000 with hhigh | hhigh
    · obtain ⟨me, hme, hround, -⟩ := roundsTo_reltimeToMe hlow hhigh
      obtain ⟨me', hme', hle, hiff⟩ := reltimeToMe_decoded (meValue_ge hlow hround)
      refine ⟨me, me', hme, hme', hle, ?_, fun hge => hiff.2 (meValue_whole hge hround)⟩
      rw [hiff, or_iff_right (by omega)]
    · have hwhole : meValue 0xff = meToReltime 0xff := by
        rw [meValue_eq, show meUnits 0xff = 31 * 2 ^ 15 from rfl, show meToReltime 0xff = 3968000 from rfl]
        norm_num
      exact ⟨0xff, 0xff, reltimeToMe_large hhigh, (by decide), le_refl _, iff_of_true rfl (.inr hwhole), fun _ => rfl⟩

/-- 133 ms have the code of 132.8125 ms, and 132 ms that of 125 ms. -/
theorem not_reltimeToMe_again : ¬∀ interval me, reltimeToMe interval = some me →
    reltimeToMe (UInt32.ofNat (meToReltime me)) = some me := by
  intro h
  have := h 133 0x11 (by decide)
  revert this
  decide

end Olsrd
