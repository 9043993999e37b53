/-
The internal clock of `olsr_times`: milliseconds since a first reading of the wall clock, which is moved when the wall
clock jumps so that the internal clock goes on by one millisecond.
-/
import Mathlib.Tactic

namespace Olsrd.Timers

/-! ## The readings -/

/-- `struct timeval` -/
structure Timeval where
  tvSec : Int
  tvUsec : Int
  deriving DecidableEq, Repr

namespace Timeval

/-- The microseconds of a reading are less than a second. -/
structure Normal (tv : Timeval) : Prop where
  nonneg : 0 ≤ tv.tvUsec
  lt : tv.tvUsec < 1000000

def micros (tv : Timeval) : Int := tv.tvSec * 1000000 + tv.tvUsec

end Timeval

/-- `first_tv` and `last_tv` -/
structure WallClock where
  firstTv : Timeval
  lastTv : Timeval
  deriving DecidableEq, Repr

/-- The time jumped backward or more than 60 seconds forward. -/
def timeJump (lastTv tv : Timeval) : Bool :=
  tv.tvSec < lastTv.tvSec || (tv.tvSec == lastTv.tvSec && tv.tvUsec < lastTv.tvUsec) || tv.tvSec - lastTv.tvSec > 60

/-- The milliseconds between two readings, where the division truncates. -/
def elapsed (firstTv tv : Timeval) : Int := (tv.tvSec - firstTv.tvSec) * 1000 + (tv.tvUsec - firstTv.tvUsec).tdiv 1000

/-- The new `first_tv` with which the reading shows `t`. -/
def rebase (tv : Timeval) (t : BitVec 32) : Timeval :=
  let tvSec := tv.tvSec - (t / 1000#32).toNat
  let tvUsec := tv.tvUsec - (t % 1000#32 * 1000#32).toNat
  if tvUsec < 0 then ⟨tvSec - 1, tvUsec + 1000000⟩ else ⟨tvSec, tvUsec⟩

/-- `olsr_times`, for what `gettimeofday` reads -/
def olsrTimes (c : WallClock) (tv : Timeval) : BitVec 32 × WallClock :=
  if timeJump c.lastTv tv then
    -- advance time by one millisecond
    let t := BitVec.ofInt 32 (elapsed c.firstTv c.lastTv) + 1#32
    (t, ⟨rebase tv t, tv⟩)
  else (BitVec.ofInt 32 (elapsed c.firstTv tv), ⟨c.firstTv, tv⟩)

/-- `now_times` with the clock behind it -/
structure NowTimes where
  nowTimes : BitVec 32
  clock : WallClock
  deriving DecidableEq, Repr

/-- `now_times = olsr_times()` -/
def NowTimes.read (s : NowTimes) (tv : Timeval) : NowTimes :=
  ⟨(olsrTimes s.clock tv).1, (olsrTimes s.clock tv).2⟩

/-- The initial timestamp of `olsr_init_timers`, before the first call of `olsr_times`. -/
def initTimers (tv : Timeval) : NowTimes := ⟨0#32, ⟨tv, tv⟩⟩

/-! ## One reading -/

variable {c : WallClock} {s : NowTimes} {tv : Timeval}

theorem tdiv_spec (x : Int) : (0 ≤ x → 1000 * x.tdiv 1000 ≤ x ∧ x < 1000 * x.tdiv 1000 + 1000) ∧
    (x ≤ 0 → x ≤ 1000 * x.tdiv 1000 ∧ 1000 * x.tdiv 1000 - 1000 < x) := by
  have hmod := Int.mul_tdiv_add_tmod x 1000
  constructor
  · intro hx
    have := Int.tmod_nonneg 1000 hx
    have := Int.tmod_lt_of_pos x (show 0 < 1000 by decide)
    omega
  · intro hx
    have := Int.tmod_nonneg 1000 (show 0 ≤ -x by omega)
    rw [Int.neg_tmod] at this
    have := Int.lt_tmod_of_pos x (show 0 < 1000 by decide)
    omega

theorem timeJump_iff {lastTv : Timeval} : timeJump lastTv tv = true ↔
    tv.tvSec < lastTv.tvSec ∨ tv.tvSec = lastTv.tvSec ∧ tv.tvUsec < lastTv.tvUsec ∨ 60 < tv.tvSec - lastTv.tvSec := by
  simp [timeJump, or_assoc]

/-- Without a jump the time goes on by at most 61 seconds. -/
theorem elapsed_advance {firstTv lastTv : Timeval} (hlast : lastTv.Normal) (htv : tv.Normal)
    (hjump : timeJump lastTv tv = false) :
    elapsed firstTv lastTv ≤ elapsed firstTv tv ∧ elapsed firstTv tv ≤ elapsed firstTv lastTv + 61000 := by
  rw [← Bool.not_eq_true, timeJump_iff] at hjump
  have := hlast.nonneg
  have := hlast.lt
  have := htv.nonneg
  have := htv.lt
  obtain ⟨hpos, hneg⟩ := tdiv_spec (tv.tvUsec - firstTv.tvUsec)
  obtain ⟨hpos', hneg'⟩ := tdiv_spec (lastTv.tvUsec - firstTv.tvUsec)
  unfold elapsed
  omega

/-- After a jump the reading shows the time that was handed out. -/
theorem elapsed_rebase (tv : Timeval) (t : BitVec 32) : elapsed (rebase tv t) tv = t.toNat := by
  have hsec : (t / 1000#32).toNat = t.toNat / 1000 := by rw [BitVec.toNat_udiv]; rfl
  have husec : (t % 1000#32 * 1000#32).toNat = t.toNat % 1000 * 1000 := by
    rw [BitVec.toNat_mul, BitVec.toNat_umod, show (1000#32).toNat = 1000 from rfl]
    omega
  unfold rebase elapsed
  rw [hsec, husec]
  dsimp only
  split <;> dsimp only
  · have hexact : tv.tvUsec - (tv.tvUsec - ((t.toNat % 1000 * 1000 : Nat) : Int) + 1000000) =
        1000 * ((t.toNat % 1000 : Nat) - 1000) := by
      push_cast
      ring
    rw [hexact, Int.mul_tdiv_cancel_left _ (by decide)]
    omega
  · have hexact : tv.tvUsec - (tv.tvUsec - ((t.toNat % 1000 * 1000 : Nat) : Int)) = 1000 * (t.toNat % 1000 : Nat) := by
      push_cast
      ring
    rw [hexact, Int.mul_tdiv_cancel_left _ (by decide)]
    omega

/-- `now_times` is what the clock shows at its last reading. -/
structure Shown (s : NowTimes) (last : Timeval) : Prop where
  nowTimes : s.nowTimes = BitVec.ofInt 32 (elapsed s.clock.firstTv s.clock.lastTv)
  lastTv : s.clock.lastTv = last
  normal : last.Normal

theorem shown_initTimers (htv : tv.Normal) : Shown (initTimers tv) tv := by
  refine ⟨?_, rfl, htv⟩
  simp [initTimers, elapsed]

variable {last : Timeval}

theorem olsrTimes_jump (h : Shown s last) (hjump : timeJump last tv = true) :
    (s.read tv).nowTimes = s.nowTimes + 1#32 := by
  obtain ⟨hshown, rfl, -⟩ := h
  rw [hshown, NowTimes.read, olsrTimes, if_pos hjump]

theorem Shown.read (h : Shown s last) (htv : tv.Normal) : Shown (s.read tv) tv := by
  obtain ⟨-, rfl, -⟩ := h
  unfold NowTimes.read olsrTimes
  by_cases hjump : timeJump s.clock.lastTv tv = true
  · rw [if_pos hjump]
    refine ⟨?_, rfl, htv⟩
    dsimp only
    rw [elapsed_rebase, BitVec.ofInt_natCast, BitVec.ofNat_toNat, BitVec.setWidth_eq]
  · rw [if_neg hjump]
    exact ⟨rfl, rfl, htv⟩

theorem read_again (h : Shown s tv) : (s.read tv).nowTimes = s.nowTimes := by
  have hsame : timeJump tv tv = false := by
    rw [← Bool.not_eq_true, timeJump_iff]
    omega
  obtain ⟨hshown, rfl, -⟩ := h
  rw [NowTimes.read, olsrTimes, if_neg (by rw [hsame]; decide), hshown]

/-- Without a jump what has passed is added. -/
theorem olsrTimes_steady (h : Shown s last) (hjump : timeJump last tv = false) {d : Nat}
    (hd : elapsed s.clock.firstTv last + d = elapsed s.clock.firstTv tv) :
    (s.read tv).nowTimes = s.nowTimes + BitVec.ofNat 32 d := by
  obtain ⟨hshown, rfl, -⟩ := h
  rw [NowTimes.read, olsrTimes, if_neg (by rw [hjump]; decide), hshown, ← BitVec.ofInt_natCast, ← BitVec.ofInt_add, hd]

theorem olsrTimes_advance (h : Shown s last) (htv : tv.Normal) (hjump : timeJump last tv = false) :
    ∃ d ≤ 61000, (s.read tv).nowTimes = s.nowTimes + BitVec.ofNat 32 d := by
  obtain ⟨hle, hge⟩ := @elapsed_advance tv s.clock.firstTv last h.normal htv hjump
  obtain ⟨d, hd⟩ := Int.le.dest hle
  exact ⟨d, by omega, olsrTimes_steady h hjump hd⟩

/-! ## Any readings -/

theorem shown_readings : ∀ {readings : List Timeval} {s : NowTimes} {last : Timeval}, Shown s last →
    (∀ tv ∈ readings, tv.Normal) → Shown (readings.foldl NowTimes.read s) (readings.getLastD last)
  | [], s, last, h, _ => h
  | tv :: readings, s, last, h, hall => by
    rw [List.foldl_cons, List.getLastD_cons]
    exact @shown_readings readings (s.read tv) tv (h.read (hall tv (List.mem_cons_self ..)))
      fun x hx => hall x (List.mem_cons_of_mem _ hx)

theorem timeJump_micros (hlast : last.Normal) (htv : tv.Normal) : timeJump last tv = true ↔
    tv.micros < last.micros ∨ 60 < tv.tvSec - last.tvSec := by
  have := hlast.nonneg
  have := hlast.lt
  have := htv.nonneg
  have := htv.lt
  rw [timeJump_iff]
  unfold Timeval.micros
  omega

/-- The clock after a sequence of readings. -/
def readAll (tv₀ : Timeval) (readings : List Timeval) : NowTimes := readings.foldl NowTimes.read (initTimers tv₀)

/-- After any readings, with any jumps between them, the next one takes the clock on by at most 61 seconds; by one
millisecond when it is before the last one or more than 60 seconds later by the seconds alone, and then the same reading
again shows the same time. -/
theorem readAll_advance (tv₀ : Timeval) (readings : List Timeval) (tv : Timeval) (h₀ : tv₀.Normal)
    (hall : ∀ tv ∈ readings, tv.Normal) (htv : tv.Normal) :
    ∃ d ≤ 61001, ((readAll tv₀ readings).read tv).nowTimes = (readAll tv₀ readings).nowTimes + BitVec.ofNat 32 d ∧
      (tv.micros < (readings.getLastD tv₀).micros ∨ 60 < tv.tvSec - (readings.getLastD tv₀).tvSec →
        d = 1 ∧ (((readAll tv₀ readings).read tv).read tv).nowTimes = ((readAll tv₀ readings).read tv).nowTimes) := by
  have hshown : Shown (readAll tv₀ readings) (readings.getLastD tv₀) := shown_readings (shown_initTimers h₀) hall
  rw [← timeJump_micros hshown.normal htv]
  cases hjump : timeJump (readings.getLastD tv₀) tv with
  | true => exact ⟨1, by decide, olsrTimes_jump hshown hjump, fun _ => ⟨rfl, read_again (hshown.read htv)⟩⟩
  | false =>
    obtain ⟨d, hd, hadvance⟩ := olsrTimes_advance hshown htv hjump
    exact ⟨d, by omega, hadvance, fun hfalse => by cases hfalse⟩

/-- The reading is more than 60 seconds later, but the seconds alone differ by 60 only. -/
def JustOver (last tv : Timeval) : Prop := tv.tvSec - last.tvSec = 60 ∧ last.tvUsec < tv.tvUsec

instance (last tv : Timeval) : Decidable (JustOver last tv) := inferInstanceAs (Decidable (_ ∧ _))

theorem later_iff (hlast : last.Normal) (htv : tv.Normal) :
    last.micros + 60000000 < tv.micros ↔ 60 < tv.tvSec - last.tvSec ∨ JustOver last tv := by
  have := hlast.nonneg
  have := hlast.lt
  have := htv.nonneg
  have := htv.lt
  unfold Timeval.micros JustOver
  omega

/-- Such a reading is no jump, and a minute is counted. -/
theorem JustOver.advance (hover : JustOver last tv) (h : Shown s last) (htv : tv.Normal) :
    ∃ d, 60000 ≤ d ∧ d ≤ 61000 ∧ (s.read tv).nowTimes = s.nowTimes + BitVec.ofNat 32 d := by
  obtain ⟨hsec, husec⟩ := hover
  have hjump : timeJump last tv = false := by
    rw [← Bool.not_eq_true, timeJump_iff]
    omega
  obtain ⟨hle, hge⟩ := @elapsed_advance tv s.clock.firstTv last h.normal htv hjump
  have hminute : elapsed s.clock.firstTv last + 60000 ≤ elapsed s.clock.firstTv tv := by
    obtain ⟨hpos, hneg⟩ := tdiv_spec (tv.tvUsec - s.clock.firstTv.tvUsec)
    obtain ⟨hpos', hneg'⟩ := tdiv_spec (last.tvUsec - s.clock.firstTv.tvUsec)
    unfold elapsed
    omega
  obtain ⟨d, hd⟩ := Int.le.dest hle
  exact ⟨d, by omega, by omega, olsrTimes_steady h hjump hd⟩

/-- After any readings the next one takes the clock on as it should, unless it is just over 60 seconds later. -/
theorem readAll_advance_iff (tv₀ : Timeval) (readings : List Timeval) (tv : Timeval) (h₀ : tv₀.Normal)
    (hall : ∀ tv ∈ readings, tv.Normal) (htv : tv.Normal) :
    (∃ d ≤ 61001, ((readAll tv₀ readings).read tv).nowTimes = (readAll tv₀ readings).nowTimes + BitVec.ofNat 32 d ∧
      (tv.micros < (readings.getLastD tv₀).micros ∨ (readings.getLastD tv₀).micros + 60000000 < tv.micros →
        d = 1 ∧ (((readAll tv₀ readings).read tv).read tv).nowTimes = ((readAll tv₀ readings).read tv).nowTimes)) ↔
      ¬JustOver (readings.getLastD tv₀) tv := by
  have hshown : Shown (readAll tv₀ readings) (readings.getLastD tv₀) := shown_readings (shown_initTimers h₀) hall
  have hlater := later_iff hshown.normal htv
  constructor
  · rintro ⟨d, -, hadvance, hone⟩ hover
    obtain ⟨rfl, -⟩ := hone (.inr (hlater.2 (.inr hover)))
    obtain ⟨d, hmin, hmax, hminute⟩ := hover.advance hshown htv
    have heq := congrArg BitVec.toNat ((BitVec.add_right_inj _).1 (hadvance.symm.trans hminute))
    rw [BitVec.toNat_ofNat, BitVec.toNat_ofNat, Nat.mod_eq_of_lt (by decide), Nat.mod_eq_of_lt (by omega)] at heq
    omega
  · intro hover
    obtain ⟨d, hd, hadvance, hone⟩ := readAll_advance tv₀ readings tv h₀ hall htv
    exact ⟨d, hd, hadvance, fun hjump => hone (hjump.imp_right fun hlate => (hlater.1 hlate).resolve_right hover)⟩

/-- The wall clock goes back by an hour, and on by a day. -/
theorem readAll_advance_iff_jumps : ∃ d ≤ 61001,
    ((readAll ⟨3600, 999999⟩ [⟨3601, 5⟩, ⟨1, 0⟩]).read ⟨86401, 7⟩).nowTimes =
        (readAll ⟨3600, 999999⟩ [⟨3601, 5⟩, ⟨1, 0⟩]).nowTimes + BitVec.ofNat 32 d ∧
      d = 1 := by
  have hall : ∀ tv ∈ ([⟨3601, 5⟩, ⟨1, 0⟩] : List Timeval), tv.Normal := by
    intro tv htv
    rcases List.mem_pair.1 htv with rfl | rfl <;> exact ⟨by decide, by decide⟩
  obtain ⟨d, hd, hadvance, hone⟩ := (readAll_advance_iff ⟨3600, 999999⟩ [⟨3601, 5⟩, ⟨1, 0⟩] ⟨86401, 7⟩
    ⟨by decide, by decide⟩ hall ⟨by decide, by decide⟩).2 (by decide)
  exact ⟨d, hd, hadvance, (hone (.inr (by decide))).1⟩

/-- A reading 60.5 seconds later is taken for the time that has passed. -/
theorem not_readAll_advance : ¬∀ (tv₀ : Timeval) (readings : List Timeval) (tv : Timeval), tv₀.Normal →
    (∀ tv ∈ readings, tv.Normal) → tv.Normal →
    ∃ d ≤ 61001, ((readAll tv₀ readings).read tv).nowTimes = (readAll tv₀ readings).nowTimes + BitVec.ofNat 32 d ∧
      (tv.micros < (readings.getLastD tv₀).micros ∨ (readings.getLastD tv₀).micros + 60000000 < tv.micros → d = 1) := by
  intro h
  obtain ⟨d, -, hadvance, hone⟩ := h ⟨0, 0⟩ [] ⟨60, 500000⟩ ⟨by decide, by decide⟩ (by simp) ⟨by decide, by decide⟩
  obtain rfl := hone (.inr (by decide))
  revert hadvance
  decide

end Olsrd.Timers
