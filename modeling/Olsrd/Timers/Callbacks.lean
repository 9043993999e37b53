/-
What the walk does to the block of a timer once its callback is back. The walk goes by the flags in the block,
so when the callback has stopped its own timer and the free list has handed the block out again, it stops or
re-arms the timer that was started there.
-/
import Olsrd.Timers.Wf

namespace Olsrd.Timers

/-! ## What the walk may touch -/

/-- The walk works on the block of `f` only for the timer that fired, which is there as long as the callback
has not stopped it, and leaves every other timer as the callback left it: running, with its clock, in its
place. -/
structure Firing.Undisturbed (f : Firing) : Prop where
  own : f.outcome ≠ .left → .stop f.timer ∉ f.ops
  others : ∀ b, (f.returned.mem b).running = true → (b = f.timer → .stop f.timer ∈ f.ops) →
    f.after.mem b = f.returned.mem b ∧ (∀ k, b ∈ f.after.timerWheel k ↔ b ∈ f.returned.timerWheel k) ∧
      (b ∈ f.after.tmpHead ↔ b ∈ f.returned.tmpHead)

/-! ## How a block comes back -/

def TimerOp.isStart : TimerOp → Bool
  | .start .. => true
  | _ => false

/-- The address that `calloc` gives when a timer is started. -/
def TimerOp.ptr : TimerOp → Option Block
  | .start _ _ _ _ ptr => some ptr
  | _ => none

/-- `olsr_cookie_free` puts a block on the free list rather than giving it back. -/
def Keeps (s : Scheduler) : Prop :=
  s.ciFreeList.length < cookieFreeListThreshold ∨
    s.ciFreeList.length < s.ciUsage / cookieFreeListThreshold

instance (s : Scheduler) : Decidable (Keeps s) := inferInstanceAs (Decidable (_ ∨ _))

/-- Some timer gets block `b` from `calloc`, as the free list is empty when it is started. -/
def GivenByCalloc (b : Block) : List TimerOp → Scheduler → Prop
  | [], _ => False
  | op :: ops, s => s.ciFreeList = [] ∧ op.ptr = some b ∨ GivenByCalloc b ops (op.apply s)

/-- The callback stops the timer of block `b`, for the last time with `post` still to come, and then starts
more timers than the free list held; or the block was not kept and `calloc` gives it again. -/
def Recycled (s : Scheduler) (b : Block) (ops : List TimerOp) : Prop :=
  ∃ pre post, ops = pre ++ .stop b :: post ∧ .stop b ∉ post ∧
    if Keeps (pre.foldl TimerOp.apply s) then
      (pre.foldl TimerOp.apply s).ciFreeList.length < post.countP TimerOp.isStart
    else GivenByCalloc b post (olsrStopTimer (pre.foldl TimerOp.apply s) b)

theorem running_ops {k : Nat} {b : Block} : ∀ (ops : List TimerOp) (s : Scheduler), Wf k s → ValidOps ops s →
    (s.mem b).running = true → .stop b ∉ ops → ((ops.foldl TimerOp.apply s).mem b).running = true
  | [], _, _, _, hrun, _ => hrun
  | op :: ops, s, hwf, hops, hrun, hstop => by
    rw [List.mem_cons, not_or] at hstop
    refine running_ops ops (op.apply s) (wf_apply hwf hops.1) hops.2 ?_ hstop.2
    obtain ⟨c, relTime, -, harmed, -⟩ | ⟨c, rfl, hstopped, -⟩ := apply_cases hwf hops.1
    · by_cases hc : b = c
      · rw [hc]
        exact harmed.running
      · rw [harmed.others hc, hrun]
    · rw [hstopped.others fun hc => hstop.1 (by rw [hc]), hrun]

theorem olsrStartTimer_reuses {s : Scheduler} {b : Block} {free : List Block} (hfree : s.ciFreeList = b :: free)
    (relTime : BitVec 32) (jitterPct : BitVec 8) (periodical : Bool) (random : BitVec 31) (ptr : Block) :
    (olsrStartTimer s relTime jitterPct periodical random ptr).1 = b ∧
      (olsrStartTimer s relTime jitterPct periodical random ptr).2.ciFreeList = free := by
  simp [olsrStartTimer, olsrCookieMalloc, hfree]

theorem olsrStartTimer_allocates {s : Scheduler} (hfree : s.ciFreeList = []) (relTime : BitVec 32)
    (jitterPct : BitVec 8) (periodical : Bool) (random : BitVec 31) (ptr : Block) :
    (olsrStartTimer s relTime jitterPct periodical random ptr).1 = ptr ∧
      (olsrStartTimer s relTime jitterPct periodical random ptr).2.ciFreeList = [] := by
  simp [olsrStartTimer, olsrCookieMalloc, hfree]

/-- A block on the free list waits for the blocks before it, and is handed out with the start after those. -/
theorem queued_ops {k : Nat} {b : Block} : ∀ (ops : List TimerOp) (s : Scheduler) (ahead behind : List Block),
    Wf k s → ValidOps ops s → s.ciFreeList = ahead ++ b :: behind → .stop b ∉ ops →
    (((ops.foldl TimerOp.apply s).mem b).running = true ↔ ahead.length < ops.countP TimerOp.isStart)
  | [], s, ahead, behind, hwf, _, hfree, _ => by
    have hidle : (s.mem b).running = false := hwf.free (by simp [hfree])
    simp [hidle]
  | op :: ops, s, ahead, behind, hwf, hops, hfree, hstop => by
    rw [List.mem_cons, not_or] at hstop
    have hwf' := wf_apply hwf hops.1
    cases op with
    | start relTime jitterPct periodical random ptr =>
      rw [List.countP_cons_of_pos rfl]
      cases ahead with
      | nil =>
        -- the block is the oldest one, and whatever is started there runs to the end
        have hrun : (((TimerOp.start relTime jitterPct periodical random ptr).apply s).mem b).running = true := by
          have harmed := (olsrStartTimer_armed hwf hops.1 relTime jitterPct periodical random).1
          rw [(olsrStartTimer_reuses hfree relTime jitterPct periodical random ptr).1] at harmed
          exact harmed.running
        simpa using running_ops ops _ hwf' hops.2 hrun hstop.2
      | cons c ahead =>
        have hfree' := (olsrStartTimer_reuses hfree relTime jitterPct periodical random ptr).2
        simpa using queued_ops ops _ ahead behind hwf' hops.2 hfree' hstop.2
    | stop c =>
      rw [List.countP_cons_of_neg (by simp [TimerOp.isStart])]
      obtain hfree' | hfree' := (olsrStopTimer_stopped s c).free
      · exact queued_ops ops _ ahead (behind ++ [c]) hwf' hops.2 (by simp [TimerOp.apply, hfree', hfree]) hstop.2
      · exact queued_ops ops _ ahead behind hwf' hops.2 (hfree'.trans hfree) hstop.2
    | change c relTime jitterPct periodical =>
      rw [List.countP_cons_of_neg (by simp [TimerOp.isStart])]
      exact queued_ops ops _ ahead behind hwf' hops.2 hfree hstop.2

/-- A block that was given back is in use again when `calloc` gives it. -/
theorem givenBack_ops {k : Nat} {b : Block} : ∀ (ops : List TimerOp) (s : Scheduler), Wf k s → ValidOps ops s →
    (s.mem b).running = false → b ∉ s.ciFreeList → .stop b ∉ ops →
    (((ops.foldl TimerOp.apply s).mem b).running = true ↔ GivenByCalloc b ops s)
  | [], s, _, _, hidle, _, _ => by simp [hidle, GivenByCalloc]
  | op :: ops, s, hwf, hops, hidle, hfree, hstop => by
    rw [List.mem_cons, not_or] at hstop
    have hwf' := wf_apply hwf hops.1
    by_cases hgiven : s.ciFreeList = [] ∧ op.ptr = some b
    · refine iff_of_true ?_ (.inl hgiven)
      refine running_ops ops _ hwf' hops.2 ?_ hstop.2
      cases op with
      | start relTime jitterPct periodical random ptr =>
        obtain rfl : ptr = b := Option.some.inj hgiven.2
        have harmed := (olsrStartTimer_armed hwf hops.1 relTime jitterPct periodical random).1
        rw [(olsrStartTimer_allocates hgiven.1 relTime jitterPct periodical random ptr).1] at harmed
        exact harmed.running
      | stop c => cases hgiven.2
      | change c relTime jitterPct periodical => cases hgiven.2
    · -- the block stays as it is, so the rest of the callback decides
      obtain ⟨hidle', hfree'⟩ : ((op.apply s).mem b).running = false ∧ b ∉ (op.apply s).ciFreeList := by
        cases op with
        | start relTime jitterPct periodical random ptr =>
          have harmed := (olsrStartTimer_armed hwf hops.1 relTime jitterPct periodical random).1
          refine ⟨?_, fun hb => hfree (harmed.free.subset hb)⟩
          refine (congrArg TimerEntry.running (harmed.others fun hb => ?_)).trans hidle
          cases hlist : s.ciFreeList with
          | nil =>
            rw [(olsrStartTimer_allocates hlist ..).1] at hb
            exact hgiven ⟨hlist, by rw [hb]; rfl⟩
          | cons c free =>
            rw [(olsrStartTimer_reuses hlist ..).1] at hb
            exact hfree (by rw [hlist, hb]; exact List.mem_cons_self ..)
        | stop c =>
          have hne : b ≠ c := fun hb => hstop.1 (by rw [hb])
          have hstopped := olsrStopTimer_stopped s c
          refine ⟨(congrArg TimerEntry.running (hstopped.others hne)).trans hidle, fun hb => ?_⟩
          obtain hlist | hlist := hstopped.free
          · rw [TimerOp.apply, hlist, List.mem_append, List.mem_singleton] at hb
            exact hb.elim hfree hne
          · rw [TimerOp.apply, hlist] at hb
            exact hfree hb
        | change c relTime jitterPct periodical =>
          have hne : b ≠ c := fun hb => by
            have hrun : (s.mem c).running = true := hops.1
            rw [← hb, hidle] at hrun
            cases hrun
          refine ⟨?_, hfree⟩
          simp [TimerOp.apply, olsrChangeTimer, hne, hidle]
      rw [List.foldl_cons, givenBack_ops ops _ hwf' hops.2 hidle' hfree' hstop.2]
      exact (or_iff_right hgiven).symm

theorem validOps_append : ∀ {pre post : List TimerOp} {s : Scheduler}, ValidOps (pre ++ post) s →
    ValidOps pre s ∧ ValidOps post (pre.foldl TimerOp.apply s)
  | [], _, _, h => ⟨trivial, h⟩
  | _ :: _, _, _, h => ⟨⟨h.1, (validOps_append h.2).1⟩, (validOps_append h.2).2⟩

theorem exists_last_stop {b : Block} : ∀ {ops : List TimerOp}, .stop b ∈ ops →
    ∃ pre post, ops = pre ++ .stop b :: post ∧ .stop b ∉ post
  | op :: ops, h => by
    by_cases hops : .stop b ∈ ops
    · obtain ⟨pre, post, rfl, hpost⟩ := exists_last_stop hops
      exact ⟨op :: pre, post, rfl, hpost⟩
    · obtain rfl := (List.mem_cons.1 h).resolve_right hops
      exact ⟨[], ops, rfl, hops⟩

theorem olsrCookieFree_free (s : Scheduler) (b : Block) :
    (olsrCookieFree s b).ciFreeList = if Keeps s then s.ciFreeList ++ [b] else s.ciFreeList := by
  by_cases hkeeps : Keeps s
  · rw [if_pos hkeeps]
    unfold Keeps at hkeeps
    rw [olsrCookieFree, if_pos hkeeps]
  · rw [if_neg hkeeps]
    unfold Keeps at hkeeps
    rw [olsrCookieFree, if_neg hkeeps]

theorem olsrStopTimer_free (s : Scheduler) (b : Block) :
    (olsrStopTimer s b).ciFreeList = if Keeps s then s.ciFreeList ++ [b] else s.ciFreeList :=
  olsrCookieFree_free ((s.listRemove b).setEntry b { s.mem b with running := false }) b

/-- With the last stop of `b` known, the block is running when the callback is back exactly when the free list
or `calloc` has handed it out since. -/
theorem running_after_last_stop {k : Nat} {s : Scheduler} (hwf : Wf k s) {b : Block} {pre post : List TimerOp}
    (hops : ValidOps (pre ++ .stop b :: post) s) (hpost : .stop b ∉ post) :
    (((pre ++ .stop b :: post).foldl TimerOp.apply s).mem b).running = true ↔
      if Keeps (pre.foldl TimerOp.apply s) then
        (pre.foldl TimerOp.apply s).ciFreeList.length < post.countP TimerOp.isStart
      else GivenByCalloc b post (olsrStopTimer (pre.foldl TimerOp.apply s) b) := by
  obtain ⟨hpre, hstop, hvalid⟩ := validOps_append hops
  have hwf₁ := wf_ops pre s hwf hpre
  have hwf₂ := wf_apply hwf₁ hstop
  rw [List.foldl_append, List.foldl_cons]
  have hfree := olsrStopTimer_free (pre.foldl TimerOp.apply s) b
  split
  · next hkeeps =>
    rw [if_pos hkeeps] at hfree
    exact queued_ops post _ _ [] hwf₂ hvalid hfree hpost
  · next hkeeps =>
    rw [if_neg hkeeps] at hfree
    have hrun : ((pre.foldl TimerOp.apply s).mem b).running = true := hstop
    refine givenBack_ops post _ hwf₂ hvalid ?_ (fun hb => ?_) hpost
    · exact congrArg TimerEntry.running (olsrStopTimer_stopped _ b).entry
    · rw [hwf₁.free (hfree ▸ hb)] at hrun
      cases hrun

theorem recycled_iff {k : Nat} {s : Scheduler} (hwf : Wf k s) {b : Block} {ops : List TimerOp}
    (hops : ValidOps ops s) :
    Recycled s b ops ↔ .stop b ∈ ops ∧ ((ops.foldl TimerOp.apply s).mem b).running = true := by
  constructor
  · rintro ⟨pre, post, rfl, hpost, h⟩
    exact ⟨by simp, (running_after_last_stop hwf hops hpost).2 h⟩
  · rintro ⟨hstop, hrun⟩
    obtain ⟨pre, post, rfl, hpost⟩ := exists_last_stop hstop
    exact ⟨pre, post, rfl, hpost, (running_after_last_stop hwf hops hpost).1 hrun⟩

/-! ## The walk and other timers -/

theorem Armed.kept {s s' : Scheduler} {b c : Block} {relTime : BitVec 32} (h : Armed s s' b relTime)
    (hc : c ≠ b) : s'.mem c = s.mem c ∧ (∀ k, c ∈ s'.timerWheel k ↔ c ∈ s.timerWheel k) ∧
      (c ∈ s'.tmpHead ↔ c ∈ s.tmpHead) := by
  refine ⟨h.others hc, fun k => ?_, ?_⟩
  · rw [h.wheel, List.mem_append, List.mem_erase_of_ne hc]
    split <;> simp [hc]
  · rw [h.tmp, List.mem_erase_of_ne hc]

theorem Stopped.kept {s s' : Scheduler} {b c : Block} (h : Stopped s s' b) (hc : c ≠ b) :
    s'.mem c = s.mem c ∧ (∀ k, c ∈ s'.timerWheel k ↔ c ∈ s.timerWheel k) ∧
      (c ∈ s'.tmpHead ↔ c ∈ s.tmpHead) := by
  refine ⟨h.others hc, fun k => ?_, ?_⟩
  · rw [h.wheel, List.mem_erase_of_ne hc]
  · rw [h.tmp, List.mem_erase_of_ne hc]

theorem fire_undisturbed_iff {k : Nat} {s : Scheduler} (hwf : Wf k s) {cb : Callback} (hcb : ValidOps cb.ops s)
    (b : Block) : (fire cb s b).Undisturbed ↔ ¬ Recycled s b cb.ops := by
  have hret := wf_ops cb.ops s hwf hcb
  rw [recycled_iff hwf hcb, not_and]
  constructor
  · intro h hstop hrun
    refine h.own ?_ hstop
    obtain ⟨hidle, -⟩ | ⟨-, -, hout, -⟩ | ⟨-, -, heq⟩ := afterCallback_cases hret cb.random b
    · rw [hrun] at hidle
      cases hidle
    · exact fun hleft => by cases hout.symm.trans hleft
    · exact fun hleft => by cases (congrArg Prod.fst heq).symm.trans hleft
  · intro h
    obtain ⟨hidle, heq⟩ | ⟨hrun, -, hout, harmed, -⟩ | ⟨hrun, -, heq⟩ := afterCallback_cases hret cb.random b
    · refine ⟨fun hleft => (hleft (congrArg Prod.fst heq)).elim, fun c _ _ => ?_⟩
      have hafter : (fire cb s b).after = (fire cb s b).returned := congrArg Prod.snd heq
      rw [hafter]
      exact ⟨rfl, fun _ => Iff.rfl, Iff.rfl⟩
    · have hstop : .stop b ∉ cb.ops := fun hstop => h hstop hrun
      exact ⟨fun _ => hstop, fun c _ hc => harmed.kept fun hcb => hstop (hc hcb)⟩
    · have hstop : .stop b ∉ cb.ops := fun hstop => h hstop hrun
      refine ⟨fun _ => hstop, fun c _ hc => ?_⟩
      have hafter : (fire cb s b).after = olsrStopTimer (fire cb s b).returned b := congrArg Prod.snd heq
      rw [hafter]
      exact (olsrStopTimer_stopped _ b).kept fun hcb => hstop (hc hcb)

/-- In every walk, from any timers and with any callbacks, a timer that fires leaves the other timers alone
exactly when its callback has not had its own block recycled. -/
theorem walkTimers_undisturbed_iff {cb : Callbacks} (hcb : ValidCallbacks cb) {fuel : Nat} {s : Scheduler} {w : Walk}
    {k : Nat} (hwf : Wf k s) (htmp : s.tmpHead = []) (h : walkTimers cb fuel s = some w) :
    ∀ f ∈ w.log, f.Undisturbed ↔ ¬ Recycled f.called f.timer f.ops := by
  intro f hf
  obtain ⟨⟨k, hcalled⟩, hrun, -, n, hfire⟩ := (walkTimers_wf hcb hwf htmp h).2.2 f hf
  have hiff := fire_undisturbed_iff hcalled (hcb n _ _ hrun) f.timer
  have hops : f.ops = (cb n f.called f.timer).ops := congrArg Firing.ops hfire
  rw [hops]
  rwa [← hfire] at hiff

/-- A callback that stops its own timer and starts another one. -/
def stopAndStart : Callbacks := fun _ _ b =>
  { ops := [.stop b, .start 5000 0 false 1 b], random := 2 }

theorem stopAndStart_valid : ValidCallbacks stopAndStart := by
  intro n s b hrun
  exact ⟨hrun, congrArg TimerEntry.running (olsrStopTimer_stopped s b).entry, trivial⟩

/-- Timers that were started and stopped when the clock showed 0, with the clock now at `now`. -/
def startedAt (now : BitVec 32) (ops : List TimerOp) : Scheduler :=
  { ops.foldl TimerOp.apply (olsrInitTimers 0) with nowTimes := now }

theorem wf_startedAt (now : BitVec 32) {ops : List TimerOp} (hops : ValidOps ops (olsrInitTimers 0)) :
    Wf 0 (startedAt now ops) :=
  { wf_ops ops _ (wf_olsrInitTimers 0 0) hops with }

theorem walkTimers_undisturbed_iff_sparePtr :
    ∃ w, walkTimers stopAndStart 3 (startedAt 5 [.start 5 0 false 1 0, .start 9 0 false 1 1, .stop 1]) = some w ∧
      w.log.map Firing.timer = [0] ∧ ∀ f ∈ w.log, f.Undisturbed ↔ ¬ Recycled f.called f.timer f.ops := by
  have hlog : (walkTimers stopAndStart 3 (startedAt 5 [.start 5 0 false 1 0, .start 9 0 false 1 1, .stop 1])).any
      (fun w => w.log.map Firing.timer = [0]) = true := by decide +kernel
  obtain ⟨w, hw, hlog⟩ := (Option.any_eq_true _ _).1 hlog
  refine ⟨w, hw, of_decide_eq_true hlog, ?_⟩
  refine walkTimers_undisturbed_iff stopAndStart_valid (wf_startedAt 5 ?_) ?_ hw
  · exact ⟨rfl, rfl, rfl, trivial⟩
  · rfl

/-- With nothing on the free list, the timer that the callback starts gets the block of the one it stopped, and
the walk stops it. -/
theorem recycled_stopped :
    ∃ w, Wf 0 (startedAt 5 [.start 5 0 false 1 0]) ∧ ValidCallbacks stopAndStart ∧
      walkTimers stopAndStart 3 (startedAt 5 [.start 5 0 false 1 0]) = some w ∧
      ∃ f ∈ w.log, ¬ f.Undisturbed ∧ (f.returned.mem 0).running = true ∧ (f.returned.mem 0).timerClock = 5005 ∧
        (f.after.mem 0).running = false := by
  have hlog : (walkTimers stopAndStart 3 (startedAt 5 [.start 5 0 false 1 0])).any
      (fun w => w.log.any fun f => f.timer = 0 ∧ f.ops = [.stop 0, .start 5000 0 false 1 0] ∧
        f.outcome = .stopped ∧ (f.returned.mem 0).running = true ∧ (f.returned.mem 0).timerClock = 5005 ∧
        (f.after.mem 0).running = false) = true := by decide +kernel
  obtain ⟨w, hw, hlog⟩ := (Option.any_eq_true _ _).1 hlog
  obtain ⟨f, hf, hlog⟩ := List.any_eq_true.1 hlog
  obtain ⟨htimer, hops, hout, hrun, hclock, hstopped⟩ := of_decide_eq_true hlog
  refine ⟨w, wf_startedAt 5 ⟨rfl, trivial⟩, stopAndStart_valid, hw, f, hf, fun h => ?_, hrun, hclock, hstopped⟩
  refine h.own (by rw [hout]; decide) ?_
  rw [htimer, hops]
  exact List.mem_cons_self ..

end Olsrd.Timers
