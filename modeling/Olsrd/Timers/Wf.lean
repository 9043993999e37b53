/-
Where the timers are: every running timer hangs off the slot of its clock, or off the temporary list while
that slot is walked, and off nothing else; no block on the free list is running. What the interface of the
scheduler does to a block is said once (`Armed`, `Stopped`), and keeps this.
-/
import Olsrd.Timers.Scheduler

namespace Olsrd.Timers

/-! ## The invariant -/

/-- The scheduler while slot `cur` is walked; the temporary list then holds timers of that slot. -/
structure Wf (cur : Nat) (s : Scheduler) : Prop where
  wheel : ∀ {k b}, b ∈ s.timerWheel k → (s.mem b).running = true ∧ wheelSlot (s.mem b).timerClock = k
  tmp : ∀ {b}, b ∈ s.tmpHead → (s.mem b).running = true ∧ wheelSlot (s.mem b).timerClock = cur
  on : ∀ {b}, (s.mem b).running = true →
    b ∈ s.timerWheel (wheelSlot (s.mem b).timerClock) ∨ b ∈ s.tmpHead
  apart : ∀ {k b}, b ∈ s.tmpHead → b ∉ s.timerWheel k
  wheelNodup : ∀ k, (s.timerWheel k).Nodup
  tmpNodup : s.tmpHead.Nodup
  free : ∀ {b}, b ∈ s.ciFreeList → (s.mem b).running = false
  freeNodup : s.ciFreeList.Nodup
  random : ∀ {b}, (s.mem b).running = true → (s.mem b).timerRandom.toNat < 2147483648

/-- Every running timer is in the slot of its clock, once, and nowhere else. -/
structure Slotted (s : Scheduler) : Prop where
  inSlot : ∀ b k, b ∈ s.timerWheel k ↔ (s.mem b).running = true ∧ wheelSlot (s.mem b).timerClock = k
  once : ∀ k, (s.timerWheel k).Nodup
  noTmp : s.tmpHead = []
  notFree : ∀ b ∈ s.ciFreeList, (s.mem b).running = false

theorem Wf.slotted {cur : Nat} {s : Scheduler} (h : Wf cur s) (htmp : s.tmpHead = []) : Slotted s where
  inSlot b k := by
    refine ⟨fun hb => h.wheel hb, fun ⟨hrun, hk⟩ => ?_⟩
    obtain hon | hon := h.on hrun
    · rwa [hk] at hon
    · rw [htmp] at hon
      cases hon
  once := h.wheelNodup
  noTmp := htmp
  notFree _ hb := h.free hb

theorem Wf.of_noTmp {cur cur' : Nat} {s : Scheduler} (h : Wf cur s) (htmp : s.tmpHead = []) : Wf cur' s :=
  { h with tmp := fun hb => by rw [htmp] at hb; cases hb }

theorem wf_olsrInitTimers (cur : Nat) (now : BitVec 32) : Wf cur (olsrInitTimers now) := by
  constructor <;> simp [olsrInitTimers]

/-! ## What happens to a block -/

/-- Block `b` has come to hold a timer that runs out `relTime` from now, less the jitter. -/
structure Armed (s s' : Scheduler) (b : Block) (relTime : BitVec 32) : Prop where
  now : s'.nowTimes = s.nowTimes
  lastRun : s'.timerLastRun = s.timerLastRun
  others : ∀ {c}, c ≠ b → s'.mem c = s.mem c
  running : (s'.mem b).running = true
  clock : (s'.mem b).timerClock =
    calcJitter s.nowTimes relTime (s'.mem b).timerJitterPct (s'.mem b).timerRandom
  random : (s'.mem b).timerRandom.toNat < 2147483648
  period : (s'.mem b).timerPeriod = relTime ∨ (s'.mem b).timerPeriod = 0#32
  wheel : ∀ k, s'.timerWheel k =
    (s.timerWheel k).erase b ++ if k = wheelSlot (s'.mem b).timerClock then [b] else []
  tmp : s'.tmpHead = s.tmpHead.erase b
  free : s'.ciFreeList.Sublist s.ciFreeList
  notFree : b ∉ s'.ciFreeList

/-- The timer of block `b` has been stopped. -/
structure Stopped (s s' : Scheduler) (b : Block) : Prop where
  now : s'.nowTimes = s.nowTimes
  lastRun : s'.timerLastRun = s.timerLastRun
  others : ∀ {c}, c ≠ b → s'.mem c = s.mem c
  entry : s'.mem b = { s.mem b with running := false }
  wheel : ∀ k, s'.timerWheel k = (s.timerWheel k).erase b
  tmp : s'.tmpHead = s.tmpHead.erase b
  free : s'.ciFreeList = s.ciFreeList ++ [b] ∨ s'.ciFreeList = s.ciFreeList

theorem setWidth_random (random : BitVec 31) : (random.setWidth 32).toNat < 2147483648 := by
  have := random.isLt
  rw [BitVec.toNat_setWidth]
  omega

theorem olsrCookieFree_cases (s : Scheduler) (b : Block) :
    ∃ usage, olsrCookieFree s b = { s with ciFreeList := s.ciFreeList ++ [b], ciUsage := usage } ∨
      olsrCookieFree s b = { s with ciUsage := usage } := by
  unfold olsrCookieFree
  split
  · exact ⟨_, .inl rfl⟩
  · exact ⟨_, .inr rfl⟩

theorem olsrStopTimer_stopped (s : Scheduler) (b : Block) : Stopped s (olsrStopTimer s b) b := by
  have hs := olsrCookieFree_cases ((s.listRemove b).setEntry b { s.mem b with running := false }) b
  obtain ⟨usage, hs | hs⟩ : ∃ usage, olsrStopTimer s b = _ ∨ olsrStopTimer s b = _ := hs
  · rw [hs]
    exact ⟨rfl, rfl, fun hc => by simp [hc], by simp, fun _ => rfl, rfl, .inl rfl⟩
  · rw [hs]
    exact ⟨rfl, rfl, fun hc => by simp [hc], by simp, fun _ => rfl, rfl, .inr rfl⟩

theorem wheel_listAddBefore (s : Scheduler) (j k : Nat) (b : Block) :
    (s.listAddBefore j b).timerWheel k = s.timerWheel k ++ if k = j then [b] else [] := by
  rw [Scheduler.listAddBefore_timerWheel, Function.update_apply]
  split
  · next hk => rw [hk]
  · rw [List.append_nil]

theorem olsrChangeTimer_armed {s : Scheduler} {b : Block} (hrun : (s.mem b).running = true)
    (hrandom : (s.mem b).timerRandom.toNat < 2147483648) (hfree : b ∉ s.ciFreeList) (relTime : BitVec 32)
    (jitterPct : BitVec 8) (periodical : Bool) :
    Armed s (olsrChangeTimer s b relTime jitterPct periodical) b relTime where
  now := rfl
  lastRun := rfl
  others hc := by simp [olsrChangeTimer, hc]
  running := by simp [olsrChangeTimer, hrun]
  clock := by simp [olsrChangeTimer]
  random := by simpa [olsrChangeTimer] using hrandom
  period := by cases periodical <;> simp [olsrChangeTimer]
  wheel k := by
    simp only [olsrChangeTimer, wheel_listAddBefore]
    simp
  tmp := rfl
  free := List.Sublist.refl _
  notFree := hfree

/-- What `olsr_cookie_malloc` hands out is not in use, and is cleared. -/
structure Allocated (s s' : Scheduler) (b : Block) : Prop where
  now : s'.nowTimes = s.nowTimes
  lastRun : s'.timerLastRun = s.timerLastRun
  wheel : s'.timerWheel = s.timerWheel
  tmp : s'.tmpHead = s.tmpHead
  others : ∀ {c}, c ≠ b → s'.mem c = s.mem c
  cleared : s'.mem b = {}
  idle : (s.mem b).running = false
  free : s'.ciFreeList.Sublist s.ciFreeList
  notFree : b ∉ s'.ciFreeList

theorem olsrCookieMalloc_allocated {cur : Nat} {s : Scheduler} (hwf : Wf cur s) {ptr : Block}
    (hptr : (s.mem ptr).running = false) :
    Allocated s (olsrCookieMalloc s ptr).2 (olsrCookieMalloc s ptr).1 := by
  unfold olsrCookieMalloc
  cases hfree : s.ciFreeList with
  | nil =>
    exact ⟨rfl, rfl, rfl, rfl, fun hc => by simp [hc], by simp, hptr, by simp [hfree], by simp [hfree]⟩
  | cons b free =>
    have hnodup := hwf.freeNodup
    rw [hfree, List.nodup_cons] at hnodup
    have hb : (s.mem b).running = false := hwf.free (by rw [hfree]; exact List.mem_cons_self ..)
    exact ⟨rfl, rfl, rfl, rfl, fun hc => by simp [hc], by simp, hb, by simp [hfree], hnodup.1⟩

theorem Wf.idle {cur : Nat} {s : Scheduler} (h : Wf cur s) {b : Block} (hb : (s.mem b).running = false) :
    (∀ k, b ∉ s.timerWheel k) ∧ b ∉ s.tmpHead := by
  refine ⟨fun k hk => ?_, fun htmp => ?_⟩
  · rw [(h.wheel hk).1] at hb
    cases hb
  · rw [(h.tmp htmp).1] at hb
    cases hb

theorem olsrStartTimer_armed {cur : Nat} {s : Scheduler} (hwf : Wf cur s) {ptr : Block}
    (hptr : (s.mem ptr).running = false) (relTime : BitVec 32) (jitterPct : BitVec 8) (periodical : Bool)
    (random : BitVec 31) :
    let r := olsrStartTimer s relTime jitterPct periodical random ptr
    Armed s r.2 r.1 relTime ∧ (s.mem r.1).running = false := by
  have halloc := olsrCookieMalloc_allocated hwf hptr
  obtain ⟨hwheel, htmp⟩ := hwf.idle halloc.idle
  have hrandom : (olsrCookieMalloc s ptr).2.mem (olsrCookieMalloc s ptr).1 = {} := halloc.cleared
  refine ⟨⟨halloc.now, halloc.lastRun, fun {c} hc => ?_, ?_, ?_, ?_, ?_, fun k => ?_, ?_, halloc.free, halloc.notFree⟩,
    halloc.idle⟩
  · have hc' : c ≠ (olsrCookieMalloc s ptr).1 := hc
    simp [olsrStartTimer, Function.update_of_ne hc', halloc.others hc']
  · simp [olsrStartTimer]
  · simp [olsrStartTimer, halloc.now]
  · simp only [olsrStartTimer, hrandom]
    simpa using setWidth_random random
  · cases periodical <;> simp [olsrStartTimer]
  · simp only [olsrStartTimer, wheel_listAddBefore]
    rw [List.erase_of_not_mem (hwheel k)]
    simp [halloc.wheel, halloc.now]
  · exact halloc.tmp.trans (List.erase_of_not_mem htmp).symm

/-! ## The invariant is kept -/

theorem Armed.mem_wheel {cur : Nat} {s s' : Scheduler} {b : Block} {relTime : BitVec 32}
    (h : Armed s s' b relTime) (hwf : Wf cur s) {c k} :
    c ∈ s'.timerWheel k ↔
      c ≠ b ∧ c ∈ s.timerWheel k ∨ c = b ∧ k = wheelSlot (s'.mem b).timerClock := by
  rw [h.wheel k, List.mem_append, (hwf.wheelNodup k).mem_erase_iff]
  split <;> simp [*]

theorem Armed.mem_tmp {cur : Nat} {s s' : Scheduler} {b : Block} {relTime : BitVec 32}
    (h : Armed s s' b relTime) (hwf : Wf cur s) {c} : c ∈ s'.tmpHead ↔ c ≠ b ∧ c ∈ s.tmpHead := by
  rw [h.tmp, hwf.tmpNodup.mem_erase_iff]

theorem Armed.wf {cur : Nat} {s s' : Scheduler} {b : Block} {relTime : BitVec 32} (h : Armed s s' b relTime)
    (hwf : Wf cur s) : Wf cur s' where
  wheel {k c} hc := by
    obtain ⟨hne, hc⟩ | ⟨rfl, rfl⟩ := (h.mem_wheel hwf).1 hc
    · rw [h.others hne]
      exact hwf.wheel hc
    · exact ⟨h.running, rfl⟩
  tmp {c} hc := by
    obtain ⟨hne, hc⟩ := (h.mem_tmp hwf).1 hc
    rw [h.others hne]
    exact hwf.tmp hc
  on {c} hrun := by
    by_cases hc : c = b
    · subst hc
      exact .inl ((h.mem_wheel hwf).2 (.inr ⟨rfl, rfl⟩))
    · rw [h.others hc] at hrun ⊢
      obtain hon | hon := hwf.on hrun
      · exact .inl ((h.mem_wheel hwf).2 (.inl ⟨hc, hon⟩))
      · exact .inr ((h.mem_tmp hwf).2 ⟨hc, hon⟩)
  apart {k c} hc hk := by
    obtain ⟨hne, hc⟩ := (h.mem_tmp hwf).1 hc
    obtain ⟨-, hk⟩ | ⟨rfl, -⟩ := (h.mem_wheel hwf).1 hk
    · exact hwf.apart hc hk
    · exact hne rfl
  wheelNodup k := by
    have herase := (hwf.wheelNodup k).erase b
    rw [h.wheel k]
    split
    · refine herase.append (List.nodup_singleton b) fun c hc hb => ?_
      obtain rfl := List.mem_singleton.1 hb
      exact (hwf.wheelNodup k).not_mem_erase hc
    · rwa [List.append_nil]
  tmpNodup := by
    rw [h.tmp]
    exact hwf.tmpNodup.erase b
  free {c} hc := by
    have hne : c ≠ b := fun he => h.notFree (he ▸ hc)
    rw [h.others hne]
    exact hwf.free (h.free.subset hc)
  freeNodup := hwf.freeNodup.sublist h.free
  random {c} hrun := by
    by_cases hc : c = b
    · subst hc
      exact h.random
    · rw [h.others hc] at hrun ⊢
      exact hwf.random hrun

theorem Stopped.wf {cur : Nat} {s s' : Scheduler} {b : Block} (h : Stopped s s' b) (hwf : Wf cur s)
    (hrun : (s.mem b).running = true) : Wf cur s' where
  wheel {k c} hc := by
    obtain ⟨hne, hc⟩ : c ≠ b ∧ c ∈ s.timerWheel k := by
      rwa [h.wheel, (hwf.wheelNodup k).mem_erase_iff] at hc
    rw [h.others hne]
    exact hwf.wheel hc
  tmp {c} hc := by
    obtain ⟨hne, hc⟩ : c ≠ b ∧ c ∈ s.tmpHead := by rwa [h.tmp, hwf.tmpNodup.mem_erase_iff] at hc
    rw [h.others hne]
    exact hwf.tmp hc
  on {c} hc := by
    have hne : c ≠ b := fun he => by
      rw [he, h.entry] at hc
      cases hc
    rw [h.others hne] at hc ⊢
    rw [h.wheel, h.tmp, (hwf.wheelNodup _).mem_erase_iff, hwf.tmpNodup.mem_erase_iff]
    exact (hwf.on hc).imp (fun hon => ⟨hne, hon⟩) (fun hon => ⟨hne, hon⟩)
  apart {k c} hc hk := by
    rw [h.tmp] at hc
    rw [h.wheel] at hk
    exact hwf.apart (List.mem_of_mem_erase hc) (List.mem_of_mem_erase hk)
  wheelNodup k := by
    rw [h.wheel]
    exact (hwf.wheelNodup k).erase b
  tmpNodup := by
    rw [h.tmp]
    exact hwf.tmpNodup.erase b
  free {c} hc := by
    by_cases hne : c = b
    · rw [hne, h.entry]
    · rw [h.others hne]
      obtain hfree | hfree := h.free
      · rw [hfree, List.mem_append, List.mem_singleton] at hc
        exact hwf.free (hc.resolve_right hne)
      · rw [hfree] at hc
        exact hwf.free hc
  freeNodup := by
    obtain hfree | hfree := h.free
    · rw [hfree]
      refine hwf.freeNodup.append (List.nodup_singleton b) fun c hc hb => ?_
      obtain rfl := List.mem_singleton.1 hb
      rw [hwf.free hc] at hrun
      cases hrun
    · rw [hfree]
      exact hwf.freeNodup
  random {c} hc := by
    have hne : c ≠ b := fun he => by
      rw [he, h.entry] at hc
      cases hc
    rw [h.others hne] at hc ⊢
    exact hwf.random hc

/-! ## Whole callbacks -/

/-- What the interface asks for: the timer is there, and `calloc` gives no block that is in use. -/
def TimerOp.Valid (s : Scheduler) : TimerOp → Prop
  | .start _ _ _ _ ptr => (s.mem ptr).running = false
  | .stop timer => (s.mem timer).running = true
  | .change timer _ _ _ => (s.mem timer).running = true

def ValidOps : List TimerOp → Scheduler → Prop
  | [], _ => True
  | op :: ops, s => op.Valid s ∧ ValidOps ops (op.apply s)

/-- The time that a timer is started or changed with. -/
def TimerOp.relTime : TimerOp → Option (BitVec 32)
  | .start relTime _ _ _ _ => some relTime
  | .stop _ => none
  | .change _ relTime _ _ => some relTime

/-- The timer that is stopped or changed. -/
def TimerOp.target : TimerOp → Option Block
  | .start _ _ _ _ _ => none
  | .stop timer => some timer
  | .change timer _ _ _ => some timer

/-- What a call of the interface does to the one block it works on. -/
theorem apply_cases {cur : Nat} {s : Scheduler} (hwf : Wf cur s) {op : TimerOp} (hop : op.Valid s) :
    (∃ b relTime, op.relTime = some relTime ∧ Armed s (op.apply s) b relTime ∧
      (op.target = some b ∨ (s.mem b).running = false)) ∨
    (∃ b, op = .stop b ∧ Stopped s (op.apply s) b ∧ (s.mem b).running = true) := by
  cases op with
  | start relTime jitterPct periodical random ptr =>
    obtain ⟨harmed, hidle⟩ := olsrStartTimer_armed hwf hop relTime jitterPct periodical random
    exact .inl ⟨_, _, rfl, harmed, .inr hidle⟩
  | stop b => exact .inr ⟨b, rfl, olsrStopTimer_stopped s b, hop⟩
  | change b relTime jitterPct periodical =>
    have hfree : b ∉ s.ciFreeList := fun hb => by
      rw [TimerOp.Valid, hwf.free hb] at hop
      cases hop
    exact .inl ⟨b, _, rfl, olsrChangeTimer_armed hop (hwf.random hop) hfree .., .inl rfl⟩

theorem wf_apply {cur : Nat} {s : Scheduler} (hwf : Wf cur s) {op : TimerOp} (hop : op.Valid s) :
    Wf cur (op.apply s) := by
  obtain ⟨b, relTime, -, harmed, -⟩ | ⟨b, -, hstopped, hrun⟩ := apply_cases hwf hop
  · exact harmed.wf hwf
  · exact hstopped.wf hwf hrun

theorem wf_ops {cur : Nat} : ∀ (ops : List TimerOp) (s : Scheduler), Wf cur s → ValidOps ops s →
    Wf cur (ops.foldl TimerOp.apply s)
  | [], _, hwf, _ => hwf
  | op :: ops, s, hwf, hops => wf_ops ops (op.apply s) (wf_apply hwf hops.1) hops.2

/-- What the walk does after the callback: nothing to a block that is not running, else it re-arms what is
periodic and stops what is not. -/
theorem afterCallback_cases {cur : Nat} {s : Scheduler} (hwf : Wf cur s) (random : BitVec 31) (b : Block) :
    (s.mem b).running = false ∧ afterCallback random s b = (.left, s) ∨
    (s.mem b).running = true ∧ (s.mem b).timerPeriod ≠ 0#32 ∧ (afterCallback random s b).1 = .rearmed ∧
      Armed s (afterCallback random s b).2 b (s.mem b).timerPeriod ∧
      (afterCallback random s b).2.mem b =
        { s.mem b with
          timerRandom := random.setWidth 32
          timerClock := calcJitter s.nowTimes (s.mem b).timerPeriod (s.mem b).timerJitterPct
            (random.setWidth 32) } ∨
    (s.mem b).running = true ∧ (s.mem b).timerPeriod = 0#32 ∧
      afterCallback random s b = (.stopped, olsrStopTimer s b) := by
  cases hrun : (s.mem b).running with
  | false => exact .inl ⟨rfl, by simp [afterCallback, hrun]⟩
  | true =>
    by_cases hperiod : (s.mem b).timerPeriod = 0#32
    · exact .inr (.inr ⟨rfl, hperiod, by simp [afterCallback, hrun, hperiod]⟩)
    · refine .inr (.inl ⟨rfl, hperiod, by simp [afterCallback, hrun, hperiod], ?_, ?_⟩)
      · have hfree : b ∉ s.ciFreeList := fun hb => by
          rw [hwf.free hb] at hrun
          cases hrun
        -- the new random number is in the entry before the timer is changed
        have harmed := olsrChangeTimer_armed (s := s.setEntry b { s.mem b with timerRandom := random.setWidth 32 })
          (b := b) (by simpa using hrun) (by simpa using setWidth_random random) (by simpa using hfree)
          (s.mem b).timerPeriod (s.mem b).timerJitterPct true
        have heq : (afterCallback random s b).2 = olsrChangeTimer
            (s.setEntry b { s.mem b with timerRandom := random.setWidth 32 }) b
            (s.mem b).timerPeriod (s.mem b).timerJitterPct true := by
          simp [afterCallback, hrun, hperiod]
        rw [heq]
        exact { harmed with others := fun hc => (harmed.others hc).trans (by simp [hc]) }
      · simp [afterCallback, hrun, hperiod, olsrChangeTimer]

theorem wf_afterCallback {cur : Nat} {s : Scheduler} (hwf : Wf cur s) (random : BitVec 31) (b : Block) :
    Wf cur (afterCallback random s b).2 := by
  obtain ⟨-, heq⟩ | ⟨-, -, -, harmed, -⟩ | ⟨hrun, -, heq⟩ := afterCallback_cases hwf random b
  · rw [heq]
    exact hwf
  · exact harmed.wf hwf
  · rw [heq]
    exact (olsrStopTimer_stopped s b).wf hwf hrun

/-! ## The walk -/

theorem wf_dequeue {k : Nat} {s : Scheduler} (hwf : Wf k s) {b : Block} {rest : List Block}
    (hslot : s.timerWheel k = b :: rest) : Wf k (dequeue s k b rest) := by
  have hnodup := hwf.wheelNodup k
  rw [hslot, List.nodup_cons] at hnodup
  have hb : b ∈ s.timerWheel k := by rw [hslot]; exact List.mem_cons_self ..
  have hsub : ∀ {j c}, c ∈ (dequeue s k b rest).timerWheel j → c ∈ s.timerWheel j ∧ c ≠ b := by
    intro j c hc
    simp only [dequeue, Function.update_apply] at hc
    split at hc
    · next hj =>
      rw [hj, hslot]
      exact ⟨List.mem_cons_of_mem _ hc, fun he => hnodup.1 (he ▸ hc)⟩
    · next hj =>
      refine ⟨hc, fun he => hj ?_⟩
      rw [he] at hc
      exact (hwf.wheel hc).2.symm.trans (hwf.wheel hb).2
  exact {
    wheel := fun hc => hwf.wheel (hsub hc).1
    tmp := fun {c} hc => by
      obtain rfl | hc := List.mem_cons.1 hc
      · exact hwf.wheel hb
      · exact hwf.tmp hc
    on := fun {c} hrun => by
      obtain hon | hon := hwf.on hrun
      · simp only [dequeue, Function.update_apply]
        split
        · next hk =>
          rw [hk, hslot, List.mem_cons] at hon
          exact hon.symm.imp id fun he => List.mem_cons.2 (.inl he)
        · exact .inl hon
      · exact .inr (List.mem_cons_of_mem _ hon)
    apart := fun {j c} hc hj => by
      obtain rfl | hc := List.mem_cons.1 hc
      · exact (hsub hj).2 rfl
      · exact hwf.apart hc (hsub hj).1
    wheelNodup := fun j => by
      simp only [dequeue, Function.update_apply]
      split
      · exact hnodup.2
      · exact hwf.wheelNodup j
    tmpNodup := List.nodup_cons.2 ⟨fun htmp => hwf.apart htmp hb, hwf.tmpNodup⟩
    free := hwf.free
    freeNodup := hwf.freeNodup
    random := hwf.random }

theorem tmpHead_listMerge (s : Scheduler) (k : Nat) : (listMerge s k).tmpHead = [] := by
  unfold listMerge
  split
  · next h => exact List.isEmpty_iff.1 h
  · rfl

theorem wheel_listMerge (s : Scheduler) (k : Nat) :
    (listMerge s k).timerWheel = Function.update s.timerWheel k (s.tmpHead ++ s.timerWheel k) := by
  unfold listMerge
  split
  · next h => rw [List.isEmpty_iff.1 h, List.nil_append, Function.update_eq_self]
  · rfl

theorem listMerge_rest (s : Scheduler) (k : Nat) : (listMerge s k).mem = s.mem ∧
    (listMerge s k).nowTimes = s.nowTimes ∧ (listMerge s k).timerLastRun = s.timerLastRun ∧
    (listMerge s k).ciFreeList = s.ciFreeList := by
  unfold listMerge
  split <;> exact ⟨rfl, rfl, rfl, rfl⟩

theorem wf_listMerge {k : Nat} {s : Scheduler} (hwf : Wf k s) : Wf k (listMerge s k) := by
  obtain ⟨hmem, -, -, hfree⟩ := listMerge_rest s k
  have hwheel : ∀ {j c}, c ∈ (listMerge s k).timerWheel j ↔ c ∈ s.timerWheel j ∨ j = k ∧ c ∈ s.tmpHead := by
    intro j c
    rw [wheel_listMerge, Function.update_apply]
    split
    · next hj =>
      rw [hj, List.mem_append]
      tauto
    · next hj => simp [hj]
  constructor
  · intro j c hc
    rw [hmem]
    obtain hj | ⟨hj, htmp⟩ := hwheel.1 hc
    · exact hwf.wheel hj
    · rw [hj]
      exact hwf.tmp htmp
  · intro c hc
    rw [tmpHead_listMerge] at hc
    cases hc
  · intro c hrun
    rw [hmem] at hrun ⊢
    refine .inl (hwheel.2 ((hwf.on hrun).imp id fun hon => ⟨(hwf.tmp hon).2, hon⟩))
  · intro j c hc
    rw [tmpHead_listMerge] at hc
    cases hc
  · intro j
    rw [wheel_listMerge, Function.update_apply]
    split
    · exact hwf.tmpNodup.append (hwf.wheelNodup k) fun c hc hk => hwf.apart hc hk
    · exact hwf.wheelNodup j
  · rw [tmpHead_listMerge]
    exact List.nodup_nil
  · intro c hc
    rw [hfree] at hc
    rw [hmem]
    exact hwf.free hc
  · rw [hfree]
    exact hwf.freeNodup
  · intro c hrun
    rw [hmem] at hrun ⊢
    exact hwf.random hrun

/-- Callbacks that call the interface as it asks to be called. -/
def ValidCallbacks (cb : Callbacks) : Prop :=
  ∀ n s b, (s.mem b).running = true → ValidOps (cb n s b).ops s

/-- A timer fired as the walk fires it. -/
structure Fired (cb : Callbacks) (f : Firing) : Prop where
  wf : ∃ k, Wf k f.called
  running : (f.called.mem f.timer).running = true
  due : olsrIsTimedOut f.called.nowTimes (f.called.mem f.timer).timerClock = true
  run : ∃ n, f = fire (cb n f.called f.timer) f.called f.timer

theorem wf_fire {k : Nat} {s : Scheduler} (hwf : Wf k s) {cb : Callback} (hcb : ValidOps cb.ops s) (b : Block) :
    Wf k (fire cb s b).after :=
  wf_afterCallback (wf_ops cb.ops s hwf hcb) cb.random b

theorem walkSlot_wf {cb : Callbacks} (hcb : ValidCallbacks cb) {k : Nat} : ∀ (fuel : Nat) (w : Walk) {w' : Walk},
    Wf k w.sched → walkSlot cb k fuel w = some w' →
    Wf k w'.sched ∧ ∀ f ∈ w'.log, f ∈ w.log ∨ Fired cb f
  | 0, _, _, _, h => by cases h
  | fuel + 1, w, w', hwf, h => by
    unfold walkSlot at h
    cases hslot : w.sched.timerWheel k with
    | nil =>
      rw [hslot] at h
      obtain rfl := Option.some.inj h
      exact ⟨hwf, fun f hf => .inl hf⟩
    | cons b rest =>
      rw [hslot] at h
      have hdeq := wf_dequeue hwf hslot
      have hrun := (hdeq.tmp (List.mem_cons_self ..)).1
      dsimp only at h
      split at h
      · next hdue =>
        have hfired : Fired cb (fire (cb w.log.length (dequeue w.sched k b rest) b) (dequeue w.sched k b rest) b) :=
          ⟨⟨k, hdeq⟩, hrun, hdue, _, rfl⟩
        obtain ⟨hwf', hlog⟩ := walkSlot_wf hcb fuel _ (wf_fire hdeq (hcb _ _ _ hrun) b) h
        refine ⟨hwf', fun f hf => ?_⟩
        obtain hf | hf := hlog f hf
        · obtain hf | hf := List.mem_append.1 hf
          · exact .inl hf
          · rw [List.mem_singleton.1 hf]
            exact .inr hfired
        · exact .inr hf
      · exact walkSlot_wf hcb fuel ⟨dequeue w.sched k b rest, w.log⟩ hdeq h

theorem walkSlots_wf {cb : Callbacks} (hcb : ValidCallbacks cb) {fuel : Nat} : ∀ (slots : Nat) (w : Walk) {w' : Walk}
    {k : Nat}, Wf k w.sched → w.sched.tmpHead = [] → walkSlots cb fuel slots w = some w' →
    (∃ k', Wf k' w'.sched) ∧ w'.sched.tmpHead = [] ∧ ∀ f ∈ w'.log, f ∈ w.log ∨ Fired cb f
  | 0, w, w', k, hwf, htmp, h => by
    obtain rfl := Option.some.inj h
    exact ⟨⟨k, hwf⟩, htmp, fun f hf => .inl hf⟩
  | slots + 1, w, w', k, hwf, htmp, h => by
    unfold walkSlots at h
    split at h
    · obtain ⟨w₁, hw₁, h⟩ := Option.bind_eq_some_iff.1 h
      obtain ⟨hwf₁, hlog₁⟩ := walkSlot_wf hcb fuel w (hwf.of_noTmp htmp) hw₁
      have hmerge := wf_listMerge hwf₁
      obtain ⟨hwf', htmp', hlog⟩ := walkSlots_wf hcb slots _ (k := wheelSlot w.sched.timerLastRun)
        { hmerge with } (tmpHead_listMerge ..) h
      exact ⟨hwf', htmp', fun f hf => (hlog f hf).elim (hlog₁ f) .inr⟩
    · obtain rfl := Option.some.inj h
      exact ⟨⟨k, hwf⟩, htmp, fun f hf => .inl hf⟩

/-- A walk keeps the timers where they belong, and fires every timer of its log as it should. -/
theorem walkTimers_wf {cb : Callbacks} (hcb : ValidCallbacks cb) {fuel : Nat} {s : Scheduler} {w : Walk} {k : Nat}
    (hwf : Wf k s) (htmp : s.tmpHead = []) (h : walkTimers cb fuel s = some w) :
    Wf k w.sched ∧ w.sched.tmpHead = [] ∧ ∀ f ∈ w.log, Fired cb f := by
  obtain ⟨w', hw', rfl⟩ := Option.map_eq_some_iff.1 h
  obtain ⟨⟨k', hwf'⟩, htmp', hlog⟩ := walkSlots_wf hcb _ _ hwf htmp hw'
  refine ⟨?_, htmp', fun f hf => (hlog f hf).resolve_left (List.not_mem_nil)⟩
  have hslots : Wf k w'.sched := hwf'.of_noTmp htmp'
  exact { hslots with }

end Olsrd.Timers
