/-
The life of a link on the 32 bit clock (`link_set.c`): the validity time of a HELLO message sets the time until which
the link is asymmetric, its symmetry timer and its expiry timer, and only the latter gets jitter.
-/
import Olsrd.Timers.Clock
import Olsrd.Timers.TimeDue
import Olsrd.Neighbor.LinkSet
import Olsrd.Packet.Cursor

namespace Olsrd.Timers

open Neighbor

/-! ## Links -/

/-- A timer as the one who has set it sees it: when it fires, and the random number of its jitter. -/
structure RunningTimer where
  timerClock : BitVec 32
  timerRandom : BitVec 31
  deriving DecidableEq, Repr

/-- What `olsr_set_timer` makes of a timer; one that is started draws `random`. -/
def setTimer (nowTimes : BitVec 32) (timer : Option RunningTimer) (relTime : BitVec 32) (jitterPct : BitVec 8)
    (random : BitVec 31) : Option RunningTimer :=
  if relTime = 0#32 then none
  else
    let timerRandom := (timer.map RunningTimer.timerRandom).getD random
    some ⟨calcJitter nowTimes relTime jitterPct (timerRandom.setWidth 32), timerRandom⟩

/-- The timer that a pointer into the scheduler points to. -/
def Shows (s : Scheduler) (timerPtr : Option Block) (timer : Option RunningTimer) : Prop :=
  timerPtr.map (fun b => ((s.mem b).timerClock, (s.mem b).timerRandom)) =
    timer.map fun t => (t.timerClock, t.timerRandom.setWidth 32)

theorem mem_olsrCookieMalloc (s : Scheduler) (ptr : Block) :
    (olsrCookieMalloc s ptr).2.mem (olsrCookieMalloc s ptr).1 = {} := by
  unfold olsrCookieMalloc
  cases s.ciFreeList <;> simp

theorem nowTimes_olsrCookieMalloc (s : Scheduler) (ptr : Block) : (olsrCookieMalloc s ptr).2.nowTimes = s.nowTimes := by
  unfold olsrCookieMalloc
  cases s.ciFreeList <;> rfl

theorem Shows.olsrSetTimer {s : Scheduler} {timerPtr : Option Block} {timer : Option RunningTimer}
    (h : Shows s timerPtr timer) (relTime : BitVec 32) (jitterPct : BitVec 8) (periodical : Bool) (random : BitVec 31)
    (ptr : Block) :
    Shows (Timers.olsrSetTimer s timerPtr relTime jitterPct periodical random ptr).2
      (Timers.olsrSetTimer s timerPtr relTime jitterPct periodical random ptr).1
      (setTimer s.nowTimes timer relTime jitterPct random) := by
  unfold Timers.olsrSetTimer setTimer
  by_cases hrel : relTime = 0#32
  · rw [if_pos hrel, if_pos hrel]
    rfl
  · rw [if_neg hrel, if_neg hrel]
    cases timerPtr with
    | none =>
      cases timer with
      | some t => cases h
      | none =>
        have hmem := mem_olsrCookieMalloc s ptr
        have hnow := nowTimes_olsrCookieMalloc s ptr
        simp [Shows, olsrStartTimer, hmem, hnow]
    | some b =>
      cases timer with
      | none => cases h
      | some t =>
        obtain ⟨-, hrandom⟩ := Prod.mk.inj (Option.some.inj h)
        simp [Shows, olsrChangeTimer, hrandom]

/-- The times of a `struct link_entry`. -/
structure LinkTimes where
  linkTimer : Option RunningTimer
  linkSymTimer : Option RunningTimer
  asymTime : BitVec 32
  deriving DecidableEq, Repr

/-- `olsr_set_link_timer` -/
def olsrSetLinkTimer (nowTimes : BitVec 32) (random : BitVec 31) (link : LinkTimes) (relTimer : BitVec 32) :
    LinkTimes :=
  { link with linkTimer := setTimer nowTimes link.linkTimer relTimer 5#8 random }

/-- A link that `add_link_entry` has just allocated. -/
def newLinkTimes (nowTimes : BitVec 32) (random : BitVec 31) (vtime : BitVec 32) : LinkTimes :=
  olsrSetLinkTimer nowTimes random ⟨none, none, 0#32⟩ vtime

/-- The part of `update_link_entry` that depends on what the message says about the link. -/
def senseLink (nowTimes : BitVec 32) (random symRandom : BitVec 31) (vtime : BitVec 32) (entry : LinkTimes) :
    LinkStatus → LinkTimes
  | .lost => { entry with linkSymTimer := none }
  -- L_SYM_time = current time + validity time, L_time = L_SYM_time + NEIGHB_HOLD_TIME
  | .sym | .asym => olsrSetLinkTimer nowTimes random
      { entry with linkSymTimer := setTimer nowTimes entry.linkSymTimer vtime 0#8 symRandom } (vtime + 20000#32)
  | .unspec | .hide => entry

/-- L_time = max(L_time, L_ASYM_time) -/
def maxTime (nowTimes : BitVec 32) (random : BitVec 31) (entry : LinkTimes) : LinkTimes :=
  match entry.linkTimer with
  | some t =>
    if t.timerClock < entry.asymTime then
      olsrSetLinkTimer nowTimes random entry (olsrGetTimeDue nowTimes entry.asymTime)
    else entry
  | none => entry

/-- What `update_link_entry` does to the times of a link, or of a new one if there is none; `random` and `symRandom` are
what its timers draw if it starts them. -/
def updateLinkEntry (nowTimes : BitVec 32) (random symRandom : BitVec 31) (message : Neighbor.HelloMessage)
    (inIf : Interface) (tmpLinkSet : Option LinkTimes) : LinkTimes :=
  let vtime := BitVec.ofNat 32 message.vtime
  let entry := tmpLinkSet.getD (newLinkTimes nowTimes random vtime)
  let entry := { entry with asymTime := olsrGetTimestamp nowTimes vtime }
  maxTime nowTimes random
    (senseLink nowTimes random symRandom vtime entry (checkLinkStatus inIf .unspec message.neighbors))

/-! ## Clocks -/

section Offsets

variable {nowTimes : BitVec 32} {x y : Nat}

theorem add_ofNat (nowTimes : BitVec 32) (x : Nat) :
    nowTimes + BitVec.ofNat 32 x = BitVec.ofNat 32 (nowTimes.toNat + x) := by
  rw [BitVec.ofNat_add, BitVec.ofNat_toNat, BitVec.setWidth_eq]

/-- In the order of `olsr_isTimedOut` the wrap makes no difference. -/
theorem olsrIsTimedOut_add (hx : x < 2147483648) (hy : y < 2147483648) :
    olsrIsTimedOut (nowTimes + BitVec.ofNat 32 x) (nowTimes + BitVec.ofNat 32 y) = true ↔ y ≤ x := by
  rw [add_ofNat, @olsrIsTimedOut_iff _ _ (nowTimes.toNat + y)]
  · exact Nat.add_le_add_iff_left
  · exact ⟨add_ofNat nowTimes y, by omega, by omega⟩

theorem add_lt_add_iff : nowTimes + BitVec.ofNat 32 x < nowTimes + BitVec.ofNat 32 y ↔
    (nowTimes.toNat + x) % 4294967296 < (nowTimes.toNat + y) % 4294967296 := by
  rw [add_ofNat, add_ofNat, BitVec.lt_def, BitVec.toNat_ofNat, BitVec.toNat_ofNat]

/-- The time that is left is short of a millisecond if it ends behind the wrap. -/
theorem olsrGetTimeDue_add (hpos : 0 < x) (hx : x < 2147483648) :
    olsrGetTimeDue nowTimes (nowTimes + BitVec.ofNat 32 x) =
    BitVec.ofNat 32 (if nowTimes.toNat + x < 4294967296 then x else x - 1) := by
  have hnow := nowTimes.isLt
  have hdiff : nowTimes + BitVec.ofNat 32 x - nowTimes = BitVec.ofNat 32 x := by
    rw [BitVec.add_comm, BitVec.add_sub_cancel]
  have hnat : (nowTimes + BitVec.ofNat 32 x).toNat = (nowTimes.toNat + x) % 4294967296 := by
    rw [add_ofNat, BitVec.toNat_ofNat]
  rw [olsrGetTimeDue_eq, hnat, hdiff, if_neg (by omega)]
  by_cases h : nowTimes.toNat + x < 4294967296
  · rw [if_pos h, if_neg (by omega)]
  · rw [if_neg h, if_pos (by omega)]
    apply BitVec.eq_of_toNat_eq
    rw [BitVec.toNat_sub, BitVec.toNat_ofNat, BitVec.toNat_ofNat, BitVec.toNat_ofNat]
    omega

end Offsets

/-! ## Jitter -/

/-- What the jitter of an expiry timer takes away. -/
def linkJitter (relTime : Nat) (random : BitVec 31) : Nat := jitterTime relTime 5 random.toNat

theorem linkJitter_lt {relTime : Nat} (hpos : 0 < relTime) (random : BitVec 31) :
    linkJitter relTime random < relTime := by
  have hrandom : random.toNat < 2147483648 := random.isLt
  unfold linkJitter jitterTime
  exact jitterTime_lt hpos (by decide) hrandom

/-- The random number of a timer that may have to be started. -/
def randomOf (timer : Option RunningTimer) (random : BitVec 31) : BitVec 31 :=
  (timer.map RunningTimer.timerRandom).getD random

theorem toNat_ofNat_of_le {relTime : Nat} (hmax : relTime ≤ 16777216) : (BitVec.ofNat 32 relTime).toNat = relTime := by
  rw [BitVec.toNat_ofNat]
  omega

theorem setTimer_eq {relTime : Nat} (hpos : 0 < relTime) (hmax : relTime ≤ 16777216) (nowTimes : BitVec 32)
    (timer : Option RunningTimer) (jitterPct : BitVec 8) (random : BitVec 31) :
    setTimer nowTimes timer (BitVec.ofNat 32 relTime) jitterPct random =
      some ⟨calcJitter nowTimes (BitVec.ofNat 32 relTime) jitterPct ((randomOf timer random).setWidth 32),
        randomOf timer random⟩ := by
  have hne : BitVec.ofNat 32 relTime ≠ 0#32 := by
    intro h
    have hrel := toNat_ofNat_of_le hmax
    rw [h] at hrel
    exact hpos.ne hrel
  unfold setTimer
  rw [if_neg hne]
  rfl

theorem setTimer_jitter {relTime : Nat} (hpos : 0 < relTime) (hmax : relTime ≤ 16777216) (nowTimes : BitVec 32)
    (timer : Option RunningTimer) (random : BitVec 31) :
    setTimer nowTimes timer (BitVec.ofNat 32 relTime) 5#8 random =
      some ⟨nowTimes + BitVec.ofNat 32 (relTime - linkJitter relTime (randomOf timer random)),
        randomOf timer random⟩ := by
  have hrel := toNat_ofNat_of_le hmax
  have hrandom : ((randomOf timer random).setWidth 32).toNat = (randomOf timer random).toNat :=
    BitVec.toNat_setWidth_of_le (by decide)
  have hlt : (randomOf timer random).toNat < 2147483648 := (randomOf timer random).isLt
  have hpct : (5#8).toNat = 5 := by decide
  rw [setTimer_eq hpos hmax, calcJitter_of_pct (by rw [hrel]; exact hpos) (by rw [hrel]; exact hmax) (by decide)
    (by decide) (by rw [hrandom]; exact hlt), hrel, hrandom, hpct, linkJitter]

theorem setTimer_exact {relTime : Nat} (hpos : 0 < relTime) (hmax : relTime ≤ 16777216) (nowTimes : BitVec 32)
    (timer : Option RunningTimer) (random : BitVec 31) : setTimer nowTimes timer (BitVec.ofNat 32 relTime) 0#8 random =
      some ⟨nowTimes + BitVec.ofNat 32 relTime, randomOf timer random⟩ := by
  rw [setTimer_eq hpos hmax]
  unfold calcJitter
  rw [if_pos (.inl rfl)]
  rfl

/-! ## The order of the times -/

/-- When the expiry timer fires, the time until which the link is asymmetric is over, and the symmetry timer is due. -/
structure Outlives (link : LinkTimes) (t : RunningTimer) : Prop where
  running : link.linkTimer = some t
  asym : olsrIsTimedOut t.timerClock link.asymTime = true
  sym : ∀ s, link.linkSymTimer = some s → olsrIsTimedOut t.timerClock s.timerClock = true

variable {nowTimes : BitVec 32} {random symRandom : BitVec 31} {vtime : Nat} {entry : LinkTimes} {t : RunningTimer}

/-- When the expiry timer has fired, the link is not asymmetric any more, and its symmetry timer has fired or is about
to. -/
theorem Outlives.ended {link : LinkTimes} (h : Outlives link t) {c v later : Nat}
    (hclock : t.timerClock = nowTimes + BitVec.ofNat 32 c) (hasym : link.asymTime = nowTimes + BitVec.ofNat 32 v)
    (hc : c < 2147483648) (hv : v < 2147483648) (hlater : later < 2147483648)
    (hfires : olsrIsTimedOut (nowTimes + BitVec.ofNat 32 later) t.timerClock = true) :
    olsrIsTimedOut (nowTimes + BitVec.ofNat 32 later) link.asymTime = true ∧
      ∀ s x, link.linkSymTimer = some s → s.timerClock = nowTimes + BitVec.ofNat 32 x → x < 2147483648 →
        olsrIsTimedOut (nowTimes + BitVec.ofNat 32 later) s.timerClock = true := by
  rw [hclock, olsrIsTimedOut_add hlater hc] at hfires
  constructor
  · have hle := h.asym
    rw [hclock, hasym, olsrIsTimedOut_add hc hv] at hle
    rw [hasym, olsrIsTimedOut_add hlater hv]
    exact hle.trans hfires
  · intro s x hs hx hlt
    have hle := h.sym s hs
    rw [hclock, hx, olsrIsTimedOut_add hc hlt] at hle
    rw [hx, olsrIsTimedOut_add hlater hlt]
    exact hle.trans hfires

theorem exists_outlives_iff {link : LinkTimes} (ht : link.linkTimer = some t) : (∃ t, Outlives link t) ↔
    olsrIsTimedOut t.timerClock link.asymTime = true ∧
      ∀ s, link.linkSymTimer = some s → olsrIsTimedOut t.timerClock s.timerClock = true := by
  constructor
  · rintro ⟨t', h⟩
    obtain rfl := Option.some.inj (ht.symm.trans h.running)
    exact ⟨h.asym, h.sym⟩
  · rintro ⟨hasym, hsym⟩
    exact ⟨t, ht, hasym, hsym⟩

/-- An expiry timer that is moved to the end of the validity time has to do without jitter, and before the wrap. -/
theorem exists_outlives_maxTime (hpos : 1 < vtime) (hmax : vtime ≤ 16777216) (ht : entry.linkTimer = some t)
    (hasym : entry.asymTime = nowTimes + BitVec.ofNat 32 vtime) : (∃ t, Outlives (maxTime nowTimes random entry) t) ↔
      if t.timerClock < nowTimes + BitVec.ofNat 32 vtime then
        (linkJitter vtime t.timerRandom = 0 ∧ nowTimes.toNat + vtime < 4294967296) ∧ ∀ s, entry.linkSymTimer = some s →
          olsrIsTimedOut (nowTimes + BitVec.ofNat 32 vtime) s.timerClock = true
      else
        olsrIsTimedOut t.timerClock (nowTimes + BitVec.ofNat 32 vtime) = true ∧ ∀ s, entry.linkSymTimer = some s →
          olsrIsTimedOut t.timerClock s.timerClock = true := by
  unfold maxTime
  rw [ht, hasym]
  dsimp only
  split
  · obtain ⟨due, hdue⟩ : ∃ due, due = if nowTimes.toNat + vtime < 4294967296 then vtime else vtime - 1 := ⟨_, rfl⟩
    have hle : 0 < due ∧ due ≤ vtime := by
      rw [hdue]
      split <;> omega
    have hlt := linkJitter_lt hle.1 t.timerRandom
    have htimer : (olsrSetLinkTimer nowTimes random entry
        (olsrGetTimeDue nowTimes (nowTimes + BitVec.ofNat 32 vtime))).linkTimer =
          some ⟨nowTimes + BitVec.ofNat 32 (due - linkJitter due t.timerRandom), t.timerRandom⟩ := by
      unfold olsrSetLinkTimer
      rw [olsrGetTimeDue_add (by omega) (by omega), ← hdue, ht]
      exact setTimer_jitter hle.1 (hle.2.trans hmax) nowTimes (some t) random
    rw [exists_outlives_iff htimer]
    change olsrIsTimedOut _ entry.asymTime = true ∧ (∀ s, entry.linkSymTimer = some s → _) ↔ _
    rw [hasym, olsrIsTimedOut_add (by omega) (by omega)]
    -- the timer is set to the full time exactly if nothing is taken away
    have hfull : vtime ≤ due - linkJitter due t.timerRandom ↔
        linkJitter vtime t.timerRandom = 0 ∧ nowTimes.toNat + vtime < 4294967296 := by
      by_cases hwrap : nowTimes.toNat + vtime < 4294967296
      · rw [if_pos hwrap] at hdue
        subst hdue
        omega
      · rw [if_neg hwrap] at hdue
        omega
    rw [hfull]
    refine and_congr_right fun h => ?_
    rw [if_pos h.2] at hdue
    rw [hdue, h.1, Nat.sub_zero]
  · rw [exists_outlives_iff ht, hasym]

/-! ## HELLO messages -/

/-- The message lists the link: the jitter leaves the validity time in the holding time, and the wrap is not in what is
left of it; or the validity time itself gets no jitter, and ends before the wrap. -/
def ListedInTime (nowTimes : BitVec 32) (random : BitVec 31) (vtime : Nat) : Prop :=
  (linkJitter (vtime + 20000) random ≤ 20000 ∧ ¬(nowTimes.toNat + vtime < 4294967296 ∧
    4294967296 ≤ nowTimes.toNat + (vtime + 20000 - linkJitter (vtime + 20000) random))) ∨
  (linkJitter vtime random = 0 ∧ nowTimes.toNat + vtime < 4294967296)

/-- The message leaves the expiry timer alone, and what it has left is enough, or it is moved without jitter. -/
def RunningInTime (nowTimes : BitVec 32) (vtime : Nat) (linkTimer linkSymTimer : Option RunningTimer) : Prop :=
  ∃ t, linkTimer = some t ∧
    if t.timerClock < nowTimes + BitVec.ofNat 32 vtime then
      (linkJitter vtime t.timerRandom = 0 ∧ nowTimes.toNat + vtime < 4294967296) ∧ ∀ s, linkSymTimer = some s →
        olsrIsTimedOut (nowTimes + BitVec.ofNat 32 vtime) s.timerClock = true
    else
      olsrIsTimedOut t.timerClock (nowTimes + BitVec.ofNat 32 vtime) = true ∧ ∀ s, linkSymTimer = some s →
        olsrIsTimedOut t.timerClock s.timerClock = true

/-- The link lives for its validity time, and for as long as it is symmetric. -/
def InTime (nowTimes : BitVec 32) (random : BitVec 31) (vtime : Nat) : LinkStatus → Option LinkTimes → Prop
  | .sym, link | .asym, link => ListedInTime nowTimes (randomOf (link.bind LinkTimes.linkTimer) random) vtime
  | .lost, none | .unspec, none | .hide, none => linkJitter vtime random = 0
  | .lost, some link => RunningInTime nowTimes vtime link.linkTimer none
  | .unspec, some link | .hide, some link => RunningInTime nowTimes vtime link.linkTimer link.linkSymTimer

theorem exists_outlives_listed (hpos : 1 < vtime) (hmax : vtime + 20000 ≤ 16777216)
    (hasym : entry.asymTime = nowTimes + BitVec.ofNat 32 vtime) {status : LinkStatus}
    (hstatus : status = .sym ∨ status = .asym) :
    (∃ t, Outlives (maxTime nowTimes random
      (senseLink nowTimes random symRandom (BitVec.ofNat 32 vtime) entry status)) t) ↔
      ListedInTime nowTimes (randomOf entry.linkTimer random) vtime := by
  obtain ⟨d, hd⟩ : ∃ d, d = vtime + 20000 - linkJitter (vtime + 20000) (randomOf entry.linkTimer random) := ⟨_, rfl⟩
  have hlt := linkJitter_lt (show 0 < vtime + 20000 by omega) (randomOf entry.linkTimer random)
  have hsense : senseLink nowTimes random symRandom (BitVec.ofNat 32 vtime) entry status =
      ⟨some ⟨nowTimes + BitVec.ofNat 32 d, randomOf entry.linkTimer random⟩,
        some ⟨nowTimes + BitVec.ofNat 32 vtime, randomOf entry.linkSymTimer symRandom⟩, entry.asymTime⟩ := by
    have hsum : BitVec.ofNat 32 vtime + 20000#32 = BitVec.ofNat 32 (vtime + 20000) := (BitVec.ofNat_add ..).symm
    have hlink := setTimer_jitter (by omega) hmax nowTimes entry.linkTimer random
    have hsym := setTimer_exact (show 0 < vtime by omega) (by omega) nowTimes entry.linkSymTimer symRandom
    rw [← hd, ← hsum] at hlink
    rcases hstatus with rfl | rfl
    · simp only [senseLink, olsrSetLinkTimer, hlink, hsym]
    · simp only [senseLink, olsrSetLinkTimer, hlink, hsym]
  rw [hsense, hasym]
  refine (exists_outlives_maxTime hpos (by omega) rfl rfl).trans ?_
  have hself : olsrIsTimedOut (nowTimes + BitVec.ofNat 32 vtime) (nowTimes + BitVec.ofNat 32 vtime) = true :=
    (olsrIsTimedOut_add (by omega) (by omega)).2 (le_refl _)
  have hbehind : olsrIsTimedOut (nowTimes + BitVec.ofNat 32 d) (nowTimes + BitVec.ofNat 32 vtime) = true ↔ vtime ≤ d :=
    olsrIsTimedOut_add (by omega) (by omega)
  have hnow := nowTimes.isLt
  simp only [add_lt_add_iff, Option.some.injEq, forall_eq', hself, hbehind, and_true, and_self]
  unfold ListedInTime
  rw [← hd]
  have hleft : linkJitter (vtime + 20000) (randomOf entry.linkTimer random) ≤ 20000 ↔ vtime ≤ d := by omega
  rw [hleft]
  split
  · next h =>
    constructor
    · exact .inr
    · rintro (⟨hle, hwrap⟩ | hexact)
      · omega
      · exact hexact
  · next h =>
    constructor
    · intro hle
      exact .inl ⟨hle, by omega⟩
    · rintro (⟨hle, -⟩ | ⟨-, hwrap⟩)
      · exact hle
      · omega

theorem exists_outlives_new (hpos : 1 < vtime) (hmax : vtime ≤ 16777216)
    (hentry : entry = ⟨some ⟨nowTimes + BitVec.ofNat 32 (vtime - linkJitter vtime random), random⟩, none,
      nowTimes + BitVec.ofNat 32 vtime⟩) :
    (∃ t, Outlives (maxTime nowTimes random entry) t) ↔ linkJitter vtime random = 0 := by
  have hlt := linkJitter_lt (show 0 < vtime by omega) random
  rw [exists_outlives_maxTime hpos hmax (by rw [hentry]) (by rw [hentry]), hentry]
  have hbehind : olsrIsTimedOut (nowTimes + BitVec.ofNat 32 (vtime - linkJitter vtime random))
      (nowTimes + BitVec.ofNat 32 vtime) = true ↔ vtime ≤ vtime - linkJitter vtime random :=
    olsrIsTimedOut_add (by omega) (by omega)
  simp only [add_lt_add_iff, hbehind, reduceCtorEq, false_imp_iff, implies_true, and_true]
  split <;> omega

theorem exists_outlives_running (hpos : 1 < vtime) (hmax : vtime ≤ 16777216)
    (hasym : entry.asymTime = nowTimes + BitVec.ofNat 32 vtime) :
    (∃ t, Outlives (maxTime nowTimes random entry) t) ↔
      RunningInTime nowTimes vtime entry.linkTimer entry.linkSymTimer := by
  cases ht : entry.linkTimer with
  | none =>
    have hmaxTime : maxTime nowTimes random entry = entry := by
      unfold maxTime
      rw [ht]
    rw [hmaxTime]
    apply iff_of_false
    · rintro ⟨t, h⟩
      cases ht.symm.trans h.running
    · rintro ⟨t, h, -⟩
      cases h
  | some t =>
    rw [exists_outlives_maxTime hpos hmax ht hasym]
    unfold RunningInTime
    simp only [Option.some.injEq, exists_eq_left']

theorem meToReltime_bounds (me : UInt8) : 62 ≤ meToReltime me ∧ meToReltime me ≤ 3968000 := by
  have hme := me.toNat_lt
  obtain ⟨a, ha⟩ : ∃ a, a = me.toNat / 16 := ⟨_, rfl⟩
  obtain ⟨b, hb⟩ : ∃ b, b = me.toNat % 16 := ⟨_, rfl⟩
  have ha16 : a < 16 := by omega
  have hb16 : b < 16 := by omega
  unfold meToReltime
  rw [← ha, ← hb]
  clear ha hb
  interval_cases b <;> simp only [ge_iff_le] <;> norm_num <;> omega

theorem outlives_updateLinkEntry {message : Neighbor.HelloMessage} {me : UInt8}
    (hvtime : message.vtime = meToReltime me)
    (nowTimes : BitVec 32) (random symRandom : BitVec 31) (inIf : Interface) (tmpLinkSet : Option LinkTimes) :
    (∃ t, Outlives (updateLinkEntry nowTimes random symRandom message inIf tmpLinkSet) t) ↔
      InTime nowTimes random message.vtime (checkLinkStatus inIf .unspec message.neighbors) tmpLinkSet := by
  have hbounds := meToReltime_bounds me
  rw [← hvtime] at hbounds
  obtain ⟨vtime, hv⟩ : ∃ vtime, vtime = message.vtime := ⟨_, rfl⟩
  rw [← hv] at hbounds
  have hpos : 1 < vtime := by omega
  have hmax : vtime ≤ 16777216 := by omega
  unfold updateLinkEntry
  rw [← hv]
  dsimp only
  cases tmpLinkSet with
  | none =>
    have hnew : newLinkTimes nowTimes random (BitVec.ofNat 32 vtime) =
        ⟨some ⟨nowTimes + BitVec.ofNat 32 (vtime - linkJitter vtime random), random⟩, none, 0#32⟩ := by
      unfold newLinkTimes olsrSetLinkTimer
      rw [setTimer_jitter (by omega) hmax]
      rfl
    simp only [Option.getD_none, hnew]
    cases checkLinkStatus inIf .unspec message.neighbors with
    | sym => exact exists_outlives_listed hpos (by omega) rfl (.inl rfl)
    | asym => exact exists_outlives_listed hpos (by omega) rfl (.inr rfl)
    | lost => exact exists_outlives_new hpos hmax rfl
    | unspec => exact exists_outlives_new hpos hmax rfl
    | hide => exact exists_outlives_new hpos hmax rfl
  | some link =>
    simp only [Option.getD_some]
    cases checkLinkStatus inIf .unspec message.neighbors with
    | sym => exact exists_outlives_listed hpos (by omega) rfl (.inl rfl)
    | asym => exact exists_outlives_listed hpos (by omega) rfl (.inr rfl)
    | lost => exact exists_outlives_running hpos hmax rfl
    | unspec => exact exists_outlives_running hpos hmax rfl
    | hide => exact exists_outlives_running hpos hmax rfl

/-- A HELLO message that is valid for 20 s and lists the given neighbours. -/
def helloValid20 (neighbors : List Neighbor.HelloNeighbor) : Neighbor.HelloMessage :=
  ⟨20000, [10, 0, 0, 2], 3, neighbors⟩

def eth0 : Interface := ⟨some "eth0", [10, 0, 0, 1], 0⟩

/-- The wrap is one second away, and the link is known. -/
theorem outlives_helloValid20 : ∃ t, Outlives (updateLinkEntry 4294966296#32 0#31 0#31
    (helloValid20 [⟨[10, 0, 0, 1], .sym, true, 0⟩]) eth0 (some ⟨some ⟨1000#32, 7#31⟩, none, 1000#32⟩)) t :=
  (outlives_updateLinkEntry (show 20000 = meToReltime 0x48 by decide) 4294966296#32 0#31 0#31 eth0 _).2
    (.inl (by decide +kernel))

/-- A new link does not live up to the time until which it is asymmetric. -/
theorem not_outlives_helloValid20 :
    ¬∃ t, Outlives (updateLinkEntry 0#32 2147483647#31 0#31 (helloValid20 []) eth0 none) t := by
  have htimes : updateLinkEntry 0#32 2147483647#31 0#31 (helloValid20 []) eth0 none =
      ⟨some ⟨19000#32, 2147483647#31⟩, none, 20000#32⟩ := by decide +kernel
  rw [htimes]
  rintro ⟨t, h⟩
  obtain rfl := Option.some.inj h.running
  exact absurd h.asym (by decide)

end Olsrd.Timers
