/-
The timers of `scheduler.c`: the wheel of 1024 slots, the entries that hang off it with their 32 bit clocks,
and the walk over the slots since the last walk. The entries live in blocks that `olsr_cookie.c` keeps on a
free list and hands out again, so a pointer to a timer may come to point to another one.
-/
import Mathlib.Data.BitVec
import Mathlib.Tactic

namespace Olsrd.Timers

/-! ## The clock -/

/-- `olsr_getTimestamp` -/
def olsrGetTimestamp (nowTimes s : BitVec 32) : BitVec 32 :=
  nowTimes + s

/-- `olsr_isTimedOut` -/
def olsrIsTimedOut (nowTimes s : BitVec 32) : Bool :=
  if s > nowTimes then s - nowTimes > 2147483648#32 else nowTimes - s ≤ 2147483648#32

def randMax : BitVec 32 := 2147483647#32

/-- `calc_jitter` -/
def calcJitter (nowTimes relTime : BitVec 32) (jitterPct : BitVec 8) (randomVal : BitVec 32) : BitVec 32 :=
  if jitterPct = 0#8 ∨ jitterPct > 99#8 ∨ relTime > 16777216#32 then olsrGetTimestamp nowTimes relTime
  else
    let jitterTime := jitterPct.setWidth 32 * relTime / 100#32
    let jitterTime := randomVal / (1#32 + randMax / (jitterTime + 1#32))
    olsrGetTimestamp nowTimes (relTime - jitterTime)

/-! ## Entries and their blocks -/

/-- The address of a block of memory. -/
abbrev Block := Nat

/-- `struct timer_entry` without the links of its list; the callback is an input of the walk. -/
structure TimerEntry where
  timerClock : BitVec 32 := 0#32
  timerPeriod : BitVec 32 := 0#32
  timerJitterPct : BitVec 8 := 0#8
  /-- `OLSR_TIMER_RUNNING` of `timer_flags` -/
  running : Bool := false
  timerRandom : BitVec 32 := 0#32
  deriving DecidableEq, Repr

def timerWheelSlots : Nat := 1024

/-- `timer_clock & TIMER_WHEEL_MASK` -/
def wheelSlot (clock : BitVec 32) : Nat := (clock &&& 1023#32).toNat

/-- The globals of the scheduler, and those of the cookie its entries are allocated from. The circular lists
are lists of blocks, `ci_free_list_usage` is the length of the free list. -/
structure Scheduler where
  nowTimes : BitVec 32
  timerLastRun : BitVec 32
  timerWheel : Nat → List Block
  /-- `tmp_head_node`, which is empty outside of a walk -/
  tmpHead : List Block
  mem : Block → TimerEntry
  ciFreeList : List Block
  ciUsage : Nat

namespace Scheduler

variable (s : Scheduler)

@[simps]
def setEntry (b : Block) (e : TimerEntry) : Scheduler :=
  { s with mem := Function.update s.mem b e }

/-- `list_remove` of a timer's node; a running timer hangs off a slot or off the list of the walk. -/
@[simps]
def listRemove (b : Block) : Scheduler :=
  { s with timerWheel := fun k => (s.timerWheel k).erase b, tmpHead := s.tmpHead.erase b }

/-- `list_add_before` of a timer's node to the head of a slot. -/
@[simps]
def listAddBefore (k : Nat) (b : Block) : Scheduler :=
  { s with timerWheel := Function.update s.timerWheel k (s.timerWheel k ++ [b]) }

end Scheduler

/-- `COOKIE_FREE_LIST_THRESHOLD` -/
def cookieFreeListThreshold : Nat := 10

/-- `olsr_cookie_malloc`: the oldest block of the free list, or `ptr` of `calloc`; cleared either way. -/
def olsrCookieMalloc (s : Scheduler) (ptr : Block) : Block × Scheduler :=
  match s.ciFreeList with
  | [] => (ptr, { s.setEntry ptr {} with ciUsage := s.ciUsage + 1 })
  | b :: free => (b, { s.setEntry b {} with ciFreeList := free, ciUsage := s.ciUsage + 1 })

/-- `olsr_cookie_free`; the contents of the block stay as they are. -/
def olsrCookieFree (s : Scheduler) (ptr : Block) : Scheduler :=
  if s.ciFreeList.length < cookieFreeListThreshold ∨
      s.ciFreeList.length < s.ciUsage / cookieFreeListThreshold then
    { s with ciFreeList := s.ciFreeList ++ [ptr], ciUsage := s.ciUsage - 1 }
  else { s with ciUsage := s.ciUsage - 1 }

/-! ## Starting, stopping and changing -/

/-- `olsr_start_timer`; `random` is what `random()` gives and `ptr` what `calloc` gives. -/
def olsrStartTimer (s : Scheduler) (relTime : BitVec 32) (jitterPct : BitVec 8) (periodical : Bool)
    (random : BitVec 31) (ptr : Block) : Block × Scheduler :=
  let (timer, s) := olsrCookieMalloc s ptr
  let timerRandom := if (s.mem timer).timerRandom = 0#32 then random.setWidth 32 else (s.mem timer).timerRandom
  let clock := calcJitter s.nowTimes relTime jitterPct timerRandom
  let s := s.setEntry timer
    { timerClock := clock, timerPeriod := if periodical then relTime else 0#32, timerJitterPct := jitterPct,
      running := true, timerRandom }
  (timer, s.listAddBefore (wheelSlot clock) timer)

/-- `olsr_stop_timer` of a timer that is there. -/
def olsrStopTimer (s : Scheduler) (timer : Block) : Scheduler :=
  let s := s.listRemove timer
  olsrCookieFree (s.setEntry timer { s.mem timer with running := false }) timer

/-- `olsr_change_timer` of a timer that is there. -/
def olsrChangeTimer (s : Scheduler) (timer : Block) (relTime : BitVec 32) (jitterPct : BitVec 8)
    (periodical : Bool) : Scheduler :=
  let clock := calcJitter s.nowTimes relTime jitterPct (s.mem timer).timerRandom
  let s := s.setEntry timer
    { s.mem timer with
      timerPeriod := if periodical then relTime else 0#32, timerClock := clock, timerJitterPct := jitterPct }
  (s.listRemove timer).listAddBefore (wheelSlot clock) timer

/-- What a piece of the daemon does to timers through the interface of the scheduler. -/
inductive TimerOp
  | start (relTime : BitVec 32) (jitterPct : BitVec 8) (periodical : Bool) (random : BitVec 31) (ptr : Block)
  | stop (timer : Block)
  | change (timer : Block) (relTime : BitVec 32) (jitterPct : BitVec 8) (periodical : Bool)
  deriving DecidableEq, Repr

def TimerOp.apply (s : Scheduler) : TimerOp → Scheduler
  | .start relTime jitterPct periodical random ptr =>
    (olsrStartTimer s relTime jitterPct periodical random ptr).2
  | .stop timer => olsrStopTimer s timer
  | .change timer relTime jitterPct periodical => olsrChangeTimer s timer relTime jitterPct periodical

/-- `olsr_set_timer`, as what it asks of the interface and the pointer it leaves behind. -/
def olsrSetTimer (s : Scheduler) (timerPtr : Option Block) (relTime : BitVec 32) (jitterPct : BitVec 8)
    (periodical : Bool) (random : BitVec 31) (ptr : Block) : Option Block × Scheduler :=
  if relTime = 0#32 then (none, timerPtr.elim s (olsrStopTimer s))
  else match timerPtr with
    | none => (olsrStartTimer s relTime jitterPct periodical random ptr).map some id
    | some timer => (some timer, olsrChangeTimer s timer relTime jitterPct periodical)

/-! ## The walk -/

/-- What a callback does: the timers it starts, stops and changes, in order, and the number that `random()`
gives when the walk re-arms the timer afterwards. -/
structure Callback where
  ops : List TimerOp
  random : BitVec 31

/-- What the walk does to the block of the timer it fired, once the callback is back. -/
inductive Outcome
  | left
  | rearmed
  | stopped
  deriving DecidableEq, Repr

/-- The part of `walk_timers` that follows the callback. -/
def afterCallback (random : BitVec 31) (s : Scheduler) (timer : Block) : Outcome × Scheduler :=
  if (s.mem timer).running then
    if (s.mem timer).timerPeriod ≠ 0#32 then
      let s := s.setEntry timer { s.mem timer with timerRandom := random.setWidth 32 }
      (.rearmed,
        olsrChangeTimer s timer (s.mem timer).timerPeriod (s.mem timer).timerJitterPct true)
    else (.stopped, olsrStopTimer s timer)
  else (.left, s)

/-- A timer that fired: when its callback was called, when it came back, and what the walk then did. -/
structure Firing where
  timer : Block
  ops : List TimerOp
  called : Scheduler
  returned : Scheduler
  outcome : Outcome
  after : Scheduler

def fire (cb : Callback) (s : Scheduler) (timer : Block) : Firing :=
  let returned := cb.ops.foldl TimerOp.apply s
  let done := afterCallback cb.random returned timer
  { timer, ops := cb.ops, called := s, returned, outcome := done.1, after := done.2 }

/-- A walk on its way, with the timers that it fired so far. -/
structure Walk where
  sched : Scheduler
  log : List Firing

/-- The callbacks of a walk, by the number of timers that fired before, the state and the timer. -/
abbrev Callbacks := Nat → Scheduler → Block → Callback

/-- `list_remove` of the first timer of a slot and `list_add_after` to the temporary list. -/
def dequeue (s : Scheduler) (k : Nat) (timer : Block) (rest : List Block) : Scheduler :=
  { s with timerWheel := Function.update s.timerWheel k rest, tmpHead := timer :: s.tmpHead }

/-- The inner loop of `walk_timers`. It runs on fuel, since a callback can go on starting timers that are due. -/
def walkSlot (cb : Callbacks) (k : Nat) : Nat → Walk → Option Walk
  | 0, _ => none
  | fuel + 1, w =>
    match w.sched.timerWheel k with
    | [] => some w
    | timer :: rest =>
      let s := dequeue w.sched k timer rest
      if olsrIsTimedOut s.nowTimes (s.mem timer).timerClock then
        let fired := fire (cb w.log.length s timer) s timer
        walkSlot cb k fuel ⟨fired.after, w.log ++ [fired]⟩
      else walkSlot cb k fuel ⟨s, w.log⟩

/-- `list_merge` of the temporary list into a slot. -/
def listMerge (s : Scheduler) (k : Nat) : Scheduler :=
  if s.tmpHead.isEmpty then s
  else { s with timerWheel := Function.update s.timerWheel k (s.tmpHead ++ s.timerWheel k), tmpHead := [] }

/-- The outer loop of `walk_timers`, with the number of slots it may still walk. -/
def walkSlots (cb : Callbacks) (fuel : Nat) : Nat → Walk → Option Walk
  | 0, w => some w
  | slots + 1, w =>
    if w.sched.timerLastRun ≤ w.sched.nowTimes then
      let k := wheelSlot w.sched.timerLastRun
      (walkSlot cb k fuel w).bind fun w =>
        let s := listMerge w.sched k
        walkSlots cb fuel slots ⟨{ s with timerLastRun := s.timerLastRun + 1#32 }, w.log⟩
    else some w

/-- `walk_timers` -/
def walkTimers (cb : Callbacks) (fuel : Nat) (s : Scheduler) : Option Walk :=
  (walkSlots cb fuel timerWheelSlots ⟨s, []⟩).map fun w =>
    { w with sched := { w.sched with timerLastRun := w.sched.nowTimes } }

/-- `olsr_init_timers` -/
def olsrInitTimers (nowTimes : BitVec 32) : Scheduler where
  nowTimes
  timerLastRun := nowTimes
  timerWheel _ := []
  tmpHead := []
  mem _ := {}
  ciFreeList := []
  ciUsage := 0

end Olsrd.Timers
