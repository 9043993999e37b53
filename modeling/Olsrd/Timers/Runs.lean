/-
The scheduler over whole runs: timers are started, stopped and changed, the clock moves on, and walks fire what
is due. `time` is the time that has really passed. The walk compares the last run with now as plain numbers, so
a clock that has wrapped in between makes it skip every slot.
-/
import Olsrd.Lib.Run
import Olsrd.Timers.Walk

namespace Olsrd.Timers

/-! ## Runs -/

/-- The scheduler, and the milliseconds that have passed since it was started. -/
structure State where
  sched : Scheduler
  time : Nat

inductive Event
  | op (op : TimerOp)
  | advance (ms : Nat)
  | walk (cb : Callbacks) (fuel : Nat)

def step (st : State) : Event → Option State
  | .op op => some { st with sched := op.apply st.sched }
  | .advance ms =>
    some { sched := { st.sched with nowTimes := st.sched.nowTimes + BitVec.ofNat 32 ms }, time := st.time + ms }
  | .walk cb fuel => (walkTimers cb fuel st.sched).map fun w => { st with sched := w.sched }

def Start (st : State) : Prop := st = { sched := olsrInitTimers 0, time := 0 }

/-- Relative times are positive and below `2^31`, the clock moves on by less than `2^31` at a time, and callbacks
do not alter other timers. -/
def Enabled (st : State) : Event → Prop
  | .op op => op.Valid st.sched ∧ op.Timely
  | .advance ms => ms < 2147483648
  | .walk cb _ => QuietCallbacks cb

/-- The last run is not above now, or nothing is due anyway. -/
def Scannable (s : Scheduler) : Prop :=
  s.timerLastRun ≤ s.nowTimes ∨ ∀ b, (s.mem b).running = true → olsrIsTimedOut s.nowTimes (s.mem b).timerClock = false

/-- The clock comes to less than `2^31` after the last walk, and a walk finds that it has not wrapped since then
unless nothing is due. -/
def Kept (st : State) : Event → Prop
  | .op _ => True
  | .advance ms => (st.sched.nowTimes - st.sched.timerLastRun).toNat + ms < 2147483648
  | .walk _ _ => Scannable st.sched

/-- The states of every run whose steps all keep to that. -/
abbrev Reachable : State → Prop :=
  Run.Reaches Start (fun st e => Enabled st e ∧ Kept st e) step

/-! ## What a walk should do -/

/-- The walk fires exactly the running timers whose clock has been reached, each once, and settles them. -/
structure FiresDue (time : Nat) (s : Scheduler) (w : Walk) : Prop where
  fires : ∀ b, b ∈ w.log.map Firing.timer ↔
    (s.mem b).running = true ∧ ∃ due ≤ time, Expires time (s.mem b).timerClock due
  once : (w.log.map Firing.timer).Nodup
  settled : ∀ f ∈ w.log, Settled time f

/-- The timers are where they belong, and run out after the last walk. -/
structure Inv (st : State) (last : Nat) : Prop where
  wf : Wf 0 st.sched
  noTmp : st.sched.tmpHead = []
  clocked : Clocked st.time last st.sched
  lastRun : st.sched.timerLastRun = BitVec.ofNat 32 last
  le : last ≤ st.time
  lt : st.time < last + 2147483648

theorem Inv.scanned {st : State} {last : Nat} (h : Inv st last) :
    Scanned st.time last 0 st.sched ⟨st.sched, []⟩ where
  walking := ⟨h.clocked, rfl, List.nodup_nil, by simp, fun hb => ⟨hb, by simp⟩, fun _ _ => rfl, by simp⟩
  wf := ⟨0, h.wf⟩
  noTmp := h.noTmp
  lastRun := h.lastRun
  scanned _ j hj := (Nat.not_lt_zero j hj).elim

/-- The walk of a scheduler whose slots are scanned fires what is due and leaves nothing due behind. -/
theorem Scanned.firesDue {time last i : Nat} {s : Scheduler} {w : Walk} (h : Scanned time last i s w)
    (hclocked : Clocked time last s) (htime : time < last + 2147483648) (hnone : ∀ b, ¬ Due w.sched b) :
    FiresDue time s w where
  fires b := by
    rw [← hclocked.due_iff htime]
    refine ⟨h.walking.fired b, fun hb => by_contra fun hlog => hnone b ?_⟩
    exact (due_congr h.walking.now (h.walking.kept hb.1 hlog)).2 hb
  once := h.walking.once
  settled := h.walking.settled

/-- With nothing due, every timer runs out after now. -/
theorem Clocked.later {time last : Nat} {s : Scheduler} (h : Clocked time last s) (htime : time < last + 2147483648)
    (hnone : ∀ b, ¬ Due s b) : Clocked time time s where
  now := h.now
  clock {b} hrun := by
    obtain ⟨due, -, hdue⟩ := h.expires htime hrun
    refine ⟨due, hdue.shows, ?_, hdue.ahead⟩
    by_contra hle
    exact hnone b ((h.due_iff htime).2 ⟨hrun, due, Nat.not_lt.1 hle, hdue⟩)
  period := h.period

/-- What a walk comes to, with fuel enough: it fires what is due exactly when the slots can be scanned. -/
theorem Inv.walk {st : State} {last : Nat} (h : Inv st last) {cb : Callbacks} (hcb : QuietCallbacks cb) :
    ∃ w fuel₀, (∀ fuel, fuel₀ ≤ fuel → walkTimers cb fuel st.sched = some w) ∧
      (FiresDue st.time st.sched w ↔ Scannable st.sched) ∧
      (Scannable st.sched → Inv { st with sched := w.sched } st.time) := by
  obtain ⟨w, fuel₀, hw, i, hscanned, hend⟩ := walkSlots_ok hcb h.le timerWheelSlots 0 _ h.scanned
  obtain ⟨k, hwf⟩ := hscanned.wf
  refine ⟨{ w with sched := { w.sched with timerLastRun := w.sched.nowTimes } }, fuel₀, fun fuel hfuel => ?_, ?_⟩
  · rw [walkTimers, hw fuel hfuel]
    rfl
  -- with nothing due left, the walk has fired what it should and the next one starts from now
  have hgood : (∀ b, ¬ Due w.sched b) →
      FiresDue st.time st.sched { w with sched := { w.sched with timerLastRun := w.sched.nowTimes } } ∧
        Inv { st with sched := { w.sched with timerLastRun := w.sched.nowTimes } } st.time := by
    intro hnone
    have hfires := hscanned.firesDue h.clocked h.lt hnone
    have hlater := hscanned.walking.clocked.later h.lt hnone
    refine ⟨⟨hfires.fires, hfires.once, hfires.settled⟩, { hwf.of_noTmp hscanned.noTmp with }, hscanned.noTmp,
      ⟨hlater.now, hlater.clock, hlater.period⟩, hlater.now, le_refl _, by simp⟩
  by_cases hle : st.sched.timerLastRun ≤ st.sched.nowTimes
  · have hwrap : last % 4294967296 ≤ st.time % 4294967296 := by
      rwa [h.lastRun, h.clocked.now, BitVec.le_def, BitVec.toNat_ofNat, BitVec.toNat_ofNat] at hle
    have hi : i = 1024 ∨ st.time < last + i :=
      hend.imp (fun hi => hi.trans (Nat.zero_add _)) (hscanned.past_now h.le hwrap h.lt)
    obtain ⟨hfires, hinv⟩ := hgood fun b => hscanned.none_due h.lt hi
    exact ⟨iff_of_true hfires (.inl hle), fun _ => hinv⟩
  · -- the walk gives up at once
    have hsame : w = ⟨st.sched, []⟩ := by
      have := hw fuel₀ (le_refl _)
      rw [timerWheelSlots, walkSlots, if_neg hle] at this
      exact (Option.some.inj this).symm
    subst hsame
    refine ⟨⟨fun hfires => .inr fun b hrun => ?_, fun hscan => ?_⟩, fun hscan => ?_⟩
    · by_contra hout
      have hdue : Due st.sched b := ⟨hrun, by simpa using hout⟩
      cases (hfires.fires b).2 ((h.clocked.due_iff h.lt).1 hdue)
    · have hnone : ∀ b, ¬ Due st.sched b := fun b hb => by
        cases (hscan.resolve_left hle b hb.1).symm.trans hb.2
      exact (hgood hnone).1
    · have hnone : ∀ b, ¬ Due st.sched b := fun b hb => by
        cases (hscan.resolve_left hle b hb.1).symm.trans hb.2
      exact (hgood hnone).2

/-! ## Every run -/

theorem Inv.op {st : State} {last : Nat} (h : Inv st last) {op : TimerOp} (hop : op.Valid st.sched)
    (htimely : op.Timely) : Inv { st with sched := op.apply st.sched } last := by
  have hwf := wf_apply h.wf hop
  obtain ⟨b, relTime, hrel, harmed, -⟩ | ⟨b, rfl, hstopped, -⟩ := apply_cases h.wf hop
  · obtain ⟨hpos, hlt⟩ := htimely relTime hrel
    exact ⟨hwf, by simp [harmed.tmp, h.noTmp], harmed.clocked h.clocked h.le hpos hlt,
      harmed.lastRun.trans h.lastRun, h.le, h.lt⟩
  · exact ⟨hwf, by simp [hstopped.tmp, h.noTmp], hstopped.clocked h.clocked, hstopped.lastRun.trans h.lastRun,
      h.le, h.lt⟩

theorem Inv.advance {st : State} {last : Nat} (h : Inv st last) {ms : Nat}
    (hms : (st.sched.nowTimes - st.sched.timerLastRun).toNat + ms < 2147483648) :
    Inv { sched := { st.sched with nowTimes := st.sched.nowTimes + BitVec.ofNat 32 ms }, time := st.time + ms }
      last := by
  have hle := h.le
  have hlt := h.lt
  rw [h.clocked.now, h.lastRun, BitVec.toNat_sub, BitVec.toNat_ofNat, BitVec.toNat_ofNat] at hms
  refine ⟨{ h.wf with }, h.noTmp, ⟨?_, fun hrun => ?_, h.clocked.period⟩, h.lastRun, ?_, ?_⟩
  · show st.sched.nowTimes + BitVec.ofNat 32 ms = _
    rw [h.clocked.now, BitVec.ofNat_add]
  · obtain ⟨due, hshows, hlast, hahead⟩ := h.clocked.clock hrun
    exact ⟨due, hshows, hlast, by dsimp only; omega⟩
  · dsimp only
    omega
  · dsimp only
    omega

theorem step_inv {st st' : State} {last : Nat} (h : Inv st last) {e : Event} (hok : Enabled st e ∧ Kept st e)
    (hstep : step st e = some st') : ∃ last', Inv st' last' := by
  cases e with
  | op op =>
    obtain rfl := Option.some.inj hstep
    exact ⟨last, h.op hok.1.1 hok.1.2⟩
  | advance ms =>
    obtain rfl := Option.some.inj hstep
    exact ⟨last, h.advance hok.2⟩
  | walk cb fuel =>
    obtain ⟨w, hw, rfl⟩ := Option.map_eq_some_iff.1 hstep
    obtain ⟨w', fuel₀, hw', -, hinv⟩ := h.walk hok.1
    obtain rfl : w = w' := Option.some.inj
      ((walkTimers_mono (le_max_left fuel fuel₀) hw).symm.trans (hw' _ (le_max_right fuel fuel₀)))
    exact ⟨_, hinv hok.2⟩

theorem reachable_inv {st : State} (h : Reachable st) : ∃ last, Inv st last := by
  refine Run.Reaches.invariant (P := fun st => ∃ last, Inv st last) ?_ ?_ h
  · rintro _ rfl
    refine ⟨0, wf_olsrInitTimers 0 0, rfl, ⟨rfl, ?_, ?_⟩, rfl, le_refl _, by decide⟩
    all_goals
      intro b hrun
      cases hrun
  · rintro st e st' ⟨last, hinv⟩ hok hstep
    exact step_inv hinv hok hstep

/-- In every run that keeps to the condition, each running timer is in the slot of its clock and nowhere else,
and a walk, which ends whatever the callbacks start, fires exactly what is due when the condition still holds,
and only then. -/
theorem reachable_walk_fires_due {st : State} (h : Reachable st) :
    Slotted st.sched ∧ ∀ cb, QuietCallbacks cb → ∃ w fuel₀,
      (∀ fuel, fuel₀ ≤ fuel → walkTimers cb fuel st.sched = some w) ∧ Slotted w.sched ∧
        (FiresDue st.time st.sched w ↔ Scannable st.sched) := by
  obtain ⟨last, hinv⟩ := reachable_inv h
  refine ⟨hinv.wf.slotted hinv.noTmp, fun cb hcb => ?_⟩
  obtain ⟨w, fuel₀, hw, hfires, -⟩ := hinv.walk hcb
  obtain ⟨hwf, htmp, -⟩ := walkTimers_wf hcb.valid hinv.wf hinv.noTmp (hw fuel₀ (le_refl _))
  exact ⟨w, fuel₀, hw, hwf.slotted htmp, hfires⟩

/-- Whether or not a walk skips slots, the timers stay where they belong. -/
theorem enabled_slotted {st : State} (h : Run.Reaches Start Enabled step st) : Slotted st.sched := by
  obtain ⟨hwf, htmp⟩ : Wf 0 st.sched ∧ st.sched.tmpHead = [] := by
    refine Run.Reaches.invariant (P := fun st => Wf 0 st.sched ∧ st.sched.tmpHead = []) ?_ ?_ h
    · rintro _ rfl
      exact ⟨wf_olsrInitTimers 0 0, rfl⟩
    · rintro st e st' ⟨hwf, htmp⟩ hok hstep
      cases e with
      | op op =>
        obtain rfl := Option.some.inj hstep
        refine ⟨wf_apply hwf hok.1, ?_⟩
        obtain ⟨b, relTime, -, harmed, -⟩ | ⟨b, -, hstopped, -⟩ := apply_cases hwf hok.1
        · simp [harmed.tmp, htmp]
        · simp [hstopped.tmp, htmp]
      | advance ms =>
        obtain rfl := Option.some.inj hstep
        exact ⟨{ hwf with }, htmp⟩
      | walk cb fuel =>
        obtain ⟨w, hw, rfl⟩ := Option.map_eq_some_iff.1 hstep
        obtain ⟨hwf', htmp', -⟩ := walkTimers_wf hok.valid hwf htmp hw
        exact ⟨hwf', htmp'⟩
  exact hwf.slotted htmp

/-- Callbacks that have nothing to do with timers. -/
def idleCallbacks : Callbacks := fun _ _ _ => { ops := [], random := 0 }

theorem idleCallbacks_quiet : QuietCallbacks idleCallbacks :=
  fun _ _ _ _ => ⟨trivial, by simp [idleCallbacks], by simp [idleCallbacks]⟩

/-- A periodic timer and one that is not, and the clock when both are due. -/
def twoTimers : List Event :=
  [.op (.start 100 0 true 7 0), .op (.start 60 0 false 7 1), .advance 100]

theorem reachable_walk_fires_due_twoTimers :
    ∃ st, Run.forEach step twoTimers { sched := olsrInitTimers 0, time := 0 } = some st ∧ Slotted st.sched ∧
      ∃ w fuel₀, (∀ fuel, fuel₀ ≤ fuel → walkTimers idleCallbacks fuel st.sched = some w) ∧
        FiresDue st.time st.sched w := by
  obtain ⟨st, hst⟩ : ∃ st, Run.forEach step twoTimers { sched := olsrInitTimers 0, time := 0 } = some st := ⟨_, rfl⟩
  have hreach : Reachable st := by
    refine Run.reaches_forEach (.init rfl) ?_ hst
    refine ⟨⟨⟨rfl, ?_⟩, trivial⟩, fun _ h₁ => ?_⟩
    · rintro _ ⟨⟩
      decide
    obtain rfl := Option.some.inj h₁
    refine ⟨⟨⟨rfl, ?_⟩, trivial⟩, fun _ h₂ => ?_⟩
    · rintro _ ⟨⟩
      decide
    obtain rfl := Option.some.inj h₂
    refine ⟨⟨show 100 < 2147483648 by decide, ?_⟩, fun _ _ => trivial⟩
    show (0#32 - 0#32).toNat + 100 < 2147483648
    decide
  obtain ⟨hslotted, hwalk⟩ := reachable_walk_fires_due hreach
  obtain ⟨w, fuel₀, hw, -, hfires⟩ := hwalk idleCallbacks idleCallbacks_quiet
  refine ⟨st, hst, hslotted, w, fuel₀, hw, hfires.2 (.inl ?_)⟩
  obtain rfl := Option.some.inj hst
  decide

/-- A walk through slots that hold no timer changes nothing but the last run. -/
theorem walkSlots_empty (cb : Callbacks) (fuel : Nat) : ∀ (slots : Nat) (w : Walk),
    (∀ k, w.sched.timerWheel k = []) → w.sched.tmpHead = [] →
    ∃ last, walkSlots cb (fuel + 1) slots w = some { w with sched := { w.sched with timerLastRun := last } }
  | 0, w, _, _ => ⟨w.sched.timerLastRun, rfl⟩
  | slots + 1, w, hwheel, htmp => by
    unfold walkSlots
    split
    · have hslot : walkSlot cb (wheelSlot w.sched.timerLastRun) (fuel + 1) w = some w := by
        rw [walkSlot, hwheel]
      have hmerge : listMerge w.sched (wheelSlot w.sched.timerLastRun) = w.sched := by
        rw [listMerge, htmp]
        rfl
      obtain ⟨last, hlast⟩ := walkSlots_empty cb fuel slots
        { w with sched := { w.sched with timerLastRun := w.sched.timerLastRun + 1#32 } } hwheel htmp
      exact ⟨last, by simp only [hslot, Option.bind_some, hmerge, hlast]⟩
    · exact ⟨w.sched.timerLastRun, rfl⟩

theorem walkTimers_empty {cb : Callbacks} {fuel : Nat} {s : Scheduler} (hwheel : ∀ k, s.timerWheel k = [])
    (htmp : s.tmpHead = []) : walkTimers cb (fuel + 1) s = some ⟨{ s with timerLastRun := s.nowTimes }, []⟩ := by
  obtain ⟨last, hlast⟩ := walkSlots_empty cb fuel timerWheelSlots ⟨s, []⟩ hwheel htmp
  rw [walkTimers, hlast]
  rfl

/-- The scheduler without timers, when it has just walked. -/
def idleAt (n last : BitVec 32) (time : Nat) : State :=
  { sched := { olsrInitTimers n with timerLastRun := last }, time }

theorem step_advance_idleAt (n last : BitVec 32) (time ms : Nat) :
    step (idleAt n last time) (.advance ms) = some (idleAt (n + BitVec.ofNat 32 ms) last (time + ms)) := rfl

theorem step_walk_idleAt (cb : Callbacks) (fuel : Nat) (n last : BitVec 32) (time : Nat) :
    step (idleAt n last time) (.walk cb (fuel + 1)) = some (idleAt n n time) := by
  rw [step, walkTimers_empty (fun _ => rfl) rfl]
  rfl


/-- Two walks bring the last run close to the wrap. -/
def nearTheWrap : List Event :=
  [.advance 2147483647, .walk idleCallbacks 1, .advance 2147483647, .walk idleCallbacks 1]

theorem forEach_nearTheWrap :
    Run.forEach step nearTheWrap (idleAt 0 0 0) = some (idleAt 4294967294 4294967294 4294967294) := by
  have hclock : (0 : BitVec 32) + 2147483647#32 + 2147483647#32 = 4294967294 := by decide
  have htime : 0 + 2147483647 + 2147483647 = 4294967294 := by norm_num
  rw [nearTheWrap, Run.forEach, step_advance_idleAt, Option.bind_some, Run.forEach, step_walk_idleAt, Option.bind_some,
    Run.forEach, step_advance_idleAt, Option.bind_some, Run.forEach, step_walk_idleAt, Option.bind_some, hclock, htime]
  rfl

/-- A timer is started there and runs out after the wrap. The clock then wraps before the next walk, which fires
nothing although the timer is due. -/
theorem wrapped_walk_misses :
    ∃ st, Run.Reaches Start Enabled step st ∧ QuietCallbacks idleCallbacks ∧
      ∃ w, walkTimers idleCallbacks 1 st.sched = some w ∧ ¬ FiresDue st.time st.sched w := by
  obtain ⟨st₁, hst₁⟩ : ∃ st₁, st₁ = idleAt 4294967294 4294967294 4294967294 := ⟨_, rfl⟩
  have hidle : (st₁.sched.mem 0).running = false := by rw [hst₁]; rfl
  have hrun : ((step st₁ (.op (.start 4 0 false 7 0))).bind (step · (.advance 5))).any (fun st =>
      st.time = 4294967299 ∧ (st.sched.mem 0).running = true ∧ (st.sched.mem 0).timerClock = 2#32 ∧
      (walkTimers idleCallbacks 1 st.sched).any (fun w => w.log.length = 0)) = true := by
    rw [hst₁]
    decide +kernel
  obtain ⟨st, hst, hrun⟩ := (Option.any_eq_true _ _).1 hrun
  obtain ⟨htime, hrunning, hclock, hwalk⟩ := of_decide_eq_true hrun
  obtain ⟨w, hw, hlog⟩ := (Option.any_eq_true _ _).1 hwalk
  have hadvance : ∀ ms, ms = 2147483647 ∨ ms = 5 → ∀ st', Enabled st' (.advance ms) := by
    rintro ms (rfl | rfl) st'
    · exact show 2147483647 < 2147483648 by decide
    · exact show 5 < 2147483648 by decide
  have hreach₁ : Run.Reaches Start Enabled step st₁ := by
    refine Run.reaches_forEach (.init rfl) ?_ (hst₁ ▸ forEach_nearTheWrap)
    exact ⟨hadvance _ (.inl rfl) _, fun _ _ => ⟨idleCallbacks_quiet, fun _ _ => ⟨hadvance _ (.inl rfl) _,
      fun _ _ => ⟨idleCallbacks_quiet, fun _ _ => trivial⟩⟩⟩⟩
  have htimely : (TimerOp.start 4 0 false 7 0).Timely := by
    rintro _ ⟨⟩
    decide
  have hreach : Run.Reaches Start Enabled step st :=
    .step (.advance 5) (.step (.op (.start 4 0 false 7 0)) hreach₁ ⟨hidle, htimely⟩ rfl) (hadvance _ (.inr rfl) _) hst
  refine ⟨st, hreach, idleCallbacks_quiet, w, hw, fun hfires => ?_⟩
  have hdue : ∃ due ≤ st.time, Expires st.time (st.sched.mem 0).timerClock due :=
    ⟨4294967298, by omega, by rw [hclock]; rfl, by omega, by omega⟩
  have hmem := (hfires.fires 0).2 ⟨hrunning, hdue⟩
  rw [List.length_eq_zero_iff.1 (of_decide_eq_true hlog)] at hmem
  cases hmem

end Olsrd.Timers
