/-
Which timers a walk fires. While the clock does not wrap between two walks, the slots since the last walk hold
every timer that has become due, so the walk fires these, each once, and re-arms or stops them; callbacks may
start timers of their own meanwhile.
-/
import Olsrd.Timers.Clock

namespace Olsrd.Timers

/-! ## Clocks in a run -/

/-- A timer that runs and whose clock has been reached, as the walk sees it. -/
def Due (s : Scheduler) (b : Block) : Prop :=
  (s.mem b).running = true ∧ olsrIsTimedOut s.nowTimes (s.mem b).timerClock = true

instance (s : Scheduler) (b : Block) : Decidable (Due s b) := inferInstanceAs (Decidable (_ ∧ _))

/-- At `time`, every timer runs out after `last`, and less than half a turn of the clock from now. -/
structure Clocked (time last : Nat) (s : Scheduler) : Prop where
  now : s.nowTimes = BitVec.ofNat 32 time
  clock : ∀ {b}, (s.mem b).running = true →
    ∃ due, (s.mem b).timerClock = BitVec.ofNat 32 due ∧ last < due ∧ due < time + 2147483648
  period : ∀ {b}, (s.mem b).running = true → (s.mem b).timerPeriod.toNat < 2147483648

section

variable {time last : Nat} {s s' : Scheduler} {b c : Block} {relTime : BitVec 32}

theorem Clocked.expires (h : Clocked time last s) (htime : time < last + 2147483648)
    (hrun : (s.mem b).running = true) : ∃ due, last < due ∧ Expires time (s.mem b).timerClock due := by
  obtain ⟨due, hshows, hlast, hahead⟩ := h.clock hrun
  exact ⟨due, hlast, hshows, hahead, by omega⟩

theorem Clocked.due_iff (h : Clocked time last s) (htime : time < last + 2147483648) :
    Due s b ↔ (s.mem b).running = true ∧ ∃ due ≤ time, Expires time (s.mem b).timerClock due := by
  refine and_congr_right fun hrun => ?_
  obtain ⟨due, -, hdue⟩ := h.expires htime hrun
  rw [h.now, olsrIsTimedOut_iff hdue]
  refine ⟨fun hle => ⟨due, hle, hdue⟩, ?_⟩
  rintro ⟨due', hle, hdue'⟩
  rwa [hdue.unique hdue']

/-- What is armed runs out later than now. -/
theorem Armed.expires (h : Armed s s' b relTime) (hnow : s.nowTimes = BitVec.ofNat 32 time)
    (hpos : 0 < relTime.toNat) (hlt : relTime.toNat < 2147483648) :
    ∃ due, time < due ∧ Expires time (s'.mem b).timerClock due := by
  obtain ⟨delay, hdelay, hle, heq⟩ :=
    calcJitter_eq hpos h.random s.nowTimes (s'.mem b).timerJitterPct
  refine ⟨time + delay, by omega, ?_, by omega, by omega⟩
  rw [h.clock, heq, hnow, BitVec.ofNat_add]

theorem Armed.not_due (h : Armed s s' b relTime) (hnow : s.nowTimes = BitVec.ofNat 32 time)
    (hpos : 0 < relTime.toNat) (hlt : relTime.toNat < 2147483648) : ¬ Due s' b := by
  obtain ⟨due, hlater, hdue⟩ := h.expires hnow hpos hlt
  rintro ⟨-, hout⟩
  rw [h.now, hnow, olsrIsTimedOut_iff hdue] at hout
  omega

theorem Armed.clocked (h : Armed s s' b relTime) (hclocked : Clocked time last s) (hlast : last ≤ time)
    (hpos : 0 < relTime.toNat) (hlt : relTime.toNat < 2147483648) : Clocked time last s' where
  now := h.now.trans hclocked.now
  clock {c} hrun := by
    by_cases hc : c = b
    · obtain ⟨due, hlater, hdue⟩ := h.expires hclocked.now hpos hlt
      subst hc
      exact ⟨due, hdue.shows, by omega, hdue.ahead⟩
    · rw [h.others hc] at hrun ⊢
      exact hclocked.clock hrun
  period {c} hrun := by
    by_cases hc : c = b
    · subst hc
      obtain hperiod | hperiod := h.period
      · rwa [hperiod]
      · rw [hperiod]
        decide
    · rw [h.others hc] at hrun ⊢
      exact hclocked.period hrun

theorem Stopped.clocked (h : Stopped s s' b) (hclocked : Clocked time last s) : Clocked time last s' where
  now := h.now.trans hclocked.now
  clock {c} hrun := by
    have hc : c ≠ b := fun hc => by
      rw [hc, h.entry] at hrun
      cases hrun
    rw [h.others hc] at hrun ⊢
    exact hclocked.clock hrun
  period {c} hrun := by
    have hc : c ≠ b := fun hc => by
      rw [hc, h.entry] at hrun
      cases hrun
    rw [h.others hc] at hrun ⊢
    exact hclocked.period hrun

theorem due_congr (hnow : s'.nowTimes = s.nowTimes) (hmem : s'.mem c = s.mem c) : Due s' c ↔ Due s c := by
  rw [Due, Due, hnow, hmem]

theorem Stopped.not_due (h : Stopped s s' b) : ¬ Due s' b := by
  rintro ⟨hrun, -⟩
  rw [h.entry] at hrun
  cases hrun

end

/-! ## Callbacks that leave other timers alone -/

/-- The relative time of a timer is positive and below `2^31`. -/
def TimerOp.Timely (op : TimerOp) : Prop :=
  ∀ relTime, op.relTime = some relTime → 0 < relTime.toNat ∧ relTime.toNat < 2147483648

/-- The callback of `b` neither stops nor changes another timer that is running when it is called. -/
structure Quiet (s : Scheduler) (b : Block) (ops : List TimerOp) : Prop where
  valid : ValidOps ops s
  timely : ∀ op ∈ ops, op.Timely
  others : ∀ op ∈ ops, ∀ c, op.target = some c → c = b ∨ (s.mem c).running = false

def QuietCallbacks (cb : Callbacks) : Prop :=
  ∀ n s b, (s.mem b).running = true → Quiet s b (cb n s b).ops

theorem QuietCallbacks.valid {cb : Callbacks} (h : QuietCallbacks cb) : ValidCallbacks cb :=
  fun n s b hrun => (h n s b hrun).valid

/-- From `called` on nothing but the timer of `b` was touched, and no further timer has become due. -/
structure LeftAlone (time last : Nat) (called : Scheduler) (b : Block) (s : Scheduler) : Prop where
  clocked : Clocked time last s
  now : s.nowTimes = called.nowTimes
  lastRun : s.timerLastRun = called.timerLastRun
  kept : ∀ {c}, c ≠ b → (called.mem c).running = true → s.mem c = called.mem c
  due : ∀ {c}, Due s c → Due called c
  tmp : s.tmpHead ⊆ called.tmpHead

section

variable {time last k : Nat} {called s : Scheduler} {b : Block}

/-- A block that the callback may touch: its own, or one that holds no timer of the others. -/
theorem LeftAlone.ne_of_running (h : LeftAlone time last called b s) {c d : Block}
    (hc : c = b ∨ (called.mem c).running = false ∨ (s.mem c).running = false) (hd : d ≠ b)
    (hrun : (called.mem d).running = true) : d ≠ c := by
  rintro rfl
  obtain hdb | hidle | hidle := hc
  · exact hd hdb
  · cases hidle.symm.trans hrun
  · rw [h.kept hd hrun] at hidle
    cases hidle.symm.trans hrun

theorem LeftAlone.armed (h : LeftAlone time last called b s) (hlast : last ≤ time) {s' : Scheduler} {c : Block}
    {relTime : BitVec 32} (harmed : Armed s s' c relTime) (hpos : 0 < relTime.toNat)
    (hlt : relTime.toNat < 2147483648)
    (hc : c = b ∨ (called.mem c).running = false ∨ (s.mem c).running = false) :
    LeftAlone time last called b s' := by
  refine ⟨harmed.clocked h.clocked hlast hpos hlt, harmed.now.trans h.now, harmed.lastRun.trans h.lastRun,
    fun hd hrun => ?_, fun {d} hdue => ?_, ?_⟩
  · exact (harmed.others (h.ne_of_running hc hd hrun)).trans (h.kept hd hrun)
  · have hdc : d ≠ c := fun hdc => harmed.not_due h.clocked.now hpos hlt (hdc ▸ hdue)
    exact h.due ((due_congr harmed.now (harmed.others hdc)).1 hdue)
  · rw [harmed.tmp]
    exact List.Subset.trans List.erase_subset h.tmp

theorem LeftAlone.stopped (h : LeftAlone time last called b s) {s' : Scheduler} {c : Block}
    (hstopped : Stopped s s' c) (hc : c = b ∨ (called.mem c).running = false) : LeftAlone time last called b s' := by
  refine ⟨hstopped.clocked h.clocked, hstopped.now.trans h.now, hstopped.lastRun.trans h.lastRun,
    fun hd hrun => ?_, fun {d} hdue => ?_, ?_⟩
  · exact (hstopped.others (h.ne_of_running (hc.imp_right .inl) hd hrun)).trans (h.kept hd hrun)
  · have hdc : d ≠ c := fun hdc => hstopped.not_due (hdc ▸ hdue)
    exact h.due ((due_congr hstopped.now (hstopped.others hdc)).1 hdue)
  · rw [hstopped.tmp]
    exact List.Subset.trans List.erase_subset h.tmp

theorem leftAlone_apply (hlast : last ≤ time) (h : LeftAlone time last called b s) (hwf : Wf k s) {op : TimerOp}
    (hop : op.Valid s) (htimely : op.Timely)
    (hothers : ∀ c, op.target = some c → c = b ∨ (called.mem c).running = false) :
    LeftAlone time last called b (op.apply s) := by
  obtain ⟨c, relTime, hrel, harmed, hc⟩ | ⟨c, rfl, hstopped, -⟩ := apply_cases hwf hop
  · obtain ⟨hpos, hlt⟩ := htimely relTime hrel
    refine h.armed hlast harmed hpos hlt ?_
    obtain htarget | hidle := hc
    · exact (hothers c htarget).imp_right .inl
    · exact .inr (.inr hidle)
  · exact h.stopped hstopped (hothers c rfl)

theorem leftAlone_ops (hlast : last ≤ time) : ∀ (ops : List TimerOp) (s : Scheduler),
    LeftAlone time last called b s → Wf k s → ValidOps ops s → (∀ op ∈ ops, op.Timely) →
    (∀ op ∈ ops, ∀ c, op.target = some c → c = b ∨ (called.mem c).running = false) →
    LeftAlone time last called b (ops.foldl TimerOp.apply s)
  | [], _, h, _, _, _, _ => h
  | op :: ops, s, h, hwf, hops, htimely, hothers =>
    leftAlone_ops hlast ops (op.apply s)
      (leftAlone_apply hlast h hwf hops.1 (htimely op (List.mem_cons_self ..)) (hothers op (List.mem_cons_self ..)))
      (wf_apply hwf hops.1) hops.2 (fun o ho => htimely o (List.mem_cons_of_mem _ ho))
      (fun o ho => hothers o (List.mem_cons_of_mem _ ho))

/-- What becomes of a timer that fired: unless its callback stopped it, it is back on the wheel with a clock to
come if it is periodic, and gone if it is not. -/
structure Settled (time : Nat) (f : Firing) : Prop where
  periodic : (f.returned.mem f.timer).running = true → (f.returned.mem f.timer).timerPeriod ≠ 0#32 →
    f.outcome = .rearmed ∧ (f.after.mem f.timer).running = true ∧
      (∃ random, (f.after.mem f.timer).timerClock = calcJitter f.after.nowTimes
        (f.returned.mem f.timer).timerPeriod (f.returned.mem f.timer).timerJitterPct random) ∧
      (∃ due, time < due ∧ Expires time (f.after.mem f.timer).timerClock due) ∧
      (∀ k, f.timer ∈ f.after.timerWheel k ↔ k = wheelSlot (f.after.mem f.timer).timerClock) ∧
      f.timer ∉ f.after.tmpHead
  oneShot : (f.returned.mem f.timer).running = true → (f.returned.mem f.timer).timerPeriod = 0#32 →
    f.outcome = .stopped ∧ (f.after.mem f.timer).running = false ∧
      (∀ k, f.timer ∉ f.after.timerWheel k) ∧ f.timer ∉ f.after.tmpHead
  stopped : (f.returned.mem f.timer).running = false → f.outcome = .left

theorem settled_left {f : Firing} (hidle : (f.returned.mem f.timer).running = false) (hout : f.outcome = .left) :
    Settled time f := by
  refine ⟨fun hrun => ?_, fun hrun => ?_, fun _ => hout⟩
  all_goals cases hidle.symm.trans hrun

theorem settled_rearmed {f : Firing} (hwf : Wf k f.returned) (hnow : f.returned.nowTimes = BitVec.ofNat 32 time)
    (hrun : (f.returned.mem f.timer).running = true) (hperiod : (f.returned.mem f.timer).timerPeriod ≠ 0#32)
    (hpos : 0 < (f.returned.mem f.timer).timerPeriod.toNat)
    (hlt : (f.returned.mem f.timer).timerPeriod.toNat < 2147483648) (hout : f.outcome = .rearmed)
    (harmed : Armed f.returned f.after f.timer (f.returned.mem f.timer).timerPeriod)
    (hpct : (f.after.mem f.timer).timerJitterPct = (f.returned.mem f.timer).timerJitterPct) : Settled time f := by
  refine ⟨fun _ _ => ⟨hout, harmed.running, ⟨(f.after.mem f.timer).timerRandom, ?_⟩,
    harmed.expires hnow hpos hlt, fun j => ?_, fun htmp => ?_⟩, fun _ hzero => (hperiod hzero).elim, fun hidle => ?_⟩
  · rw [harmed.clock, harmed.now, hpct]
  · rw [harmed.mem_wheel hwf]
    simp
  · exact ((harmed.mem_tmp hwf).1 htmp).1 rfl
  · cases hidle.symm.trans hrun

theorem settled_stopped {f : Firing} (hwf : Wf k f.returned) (hrun : (f.returned.mem f.timer).running = true)
    (hperiod : (f.returned.mem f.timer).timerPeriod = 0#32) (hout : f.outcome = .stopped)
    (hstopped : Stopped f.returned f.after f.timer) : Settled time f := by
  refine ⟨fun _ hne => (hne hperiod).elim, fun _ _ => ⟨hout, ?_, fun j hj => ?_, fun htmp => ?_⟩, fun hidle => ?_⟩
  · exact congrArg TimerEntry.running hstopped.entry
  · rw [hstopped.wheel] at hj
    exact (hwf.wheelNodup j).not_mem_erase hj
  · rw [hstopped.tmp] at htmp
    exact hwf.tmpNodup.not_mem_erase htmp
  · cases hidle.symm.trans hrun

/-- A timer fires, its callback leaving the others alone: afterwards it is settled and no longer due. -/
theorem fire_quiet (hlast : last ≤ time) (hwf : Wf k s) (hclocked : Clocked time last s) {cb : Callback}
    (hcb : Quiet s b cb.ops) {f : Firing} (hf : f = fire cb s b) :
    LeftAlone time last s b f.after ∧ ¬ Due f.after b ∧ Settled time f := by
  have hret : LeftAlone time last s b f.returned := by
    rw [hf]
    exact leftAlone_ops hlast cb.ops s ⟨hclocked, rfl, rfl, fun _ _ => rfl, id, List.Subset.refl _⟩ hwf hcb.valid
      hcb.timely hcb.others
  have hwfret : Wf k f.returned := by
    rw [hf]
    exact wf_ops cb.ops s hwf hcb.valid
  have htimer : f.timer = b := by rw [hf]; rfl
  have hdone : (f.outcome, f.after) = afterCallback cb.random f.returned b := by rw [hf]; rfl
  have hcases := afterCallback_cases hwfret cb.random b
  rw [← hdone] at hcases
  obtain ⟨hidle, heq⟩ | ⟨hrun, hperiod, hout, harmed, hentry⟩ | ⟨hrun, hperiod, heq⟩ := hcases
  · obtain ⟨hout, hafter⟩ := Prod.mk.inj heq
    rw [hafter]
    refine ⟨hret, fun hdue => ?_, settled_left (by rwa [htimer]) hout⟩
    cases hidle.symm.trans hdue.1
  · have hpos : 0 < (f.returned.mem b).timerPeriod.toNat :=
      Nat.pos_of_ne_zero fun hzero => hperiod (BitVec.eq_of_toNat_eq hzero)
    have hlt := hret.clocked.period hrun
    refine ⟨hret.armed hlast harmed hpos hlt (.inl rfl), harmed.not_due hret.clocked.now hpos hlt, ?_⟩
    subst htimer
    exact settled_rearmed hwfret hret.clocked.now hrun hperiod hpos hlt hout harmed
      (by simpa using congrArg TimerEntry.timerJitterPct hentry)
  · obtain ⟨hout, hafter⟩ := Prod.mk.inj heq
    have hstopped : Stopped f.returned f.after b := by
      rw [hafter]
      exact olsrStopTimer_stopped f.returned b
    refine ⟨hret.stopped hstopped (.inl rfl), hstopped.not_due, ?_⟩
    subst htimer
    exact settled_stopped hwfret hrun hperiod hout hstopped

end

/-! ## One slot -/

/-- The walk that began at `s₀`, with the timers `log` fired so far: every timer that was due then and has not
fired is still due, no other is, and the timers that did not fire are as they were. -/
structure Walking (time last : Nat) (s₀ : Scheduler) (w : Walk) : Prop where
  clocked : Clocked time last w.sched
  now : w.sched.nowTimes = s₀.nowTimes
  once : (w.log.map Firing.timer).Nodup
  fired : ∀ b ∈ w.log.map Firing.timer, Due s₀ b
  due : ∀ {b}, Due w.sched b → Due s₀ b ∧ b ∉ w.log.map Firing.timer
  kept : ∀ {b}, (s₀.mem b).running = true → b ∉ w.log.map Firing.timer → w.sched.mem b = s₀.mem b
  settled : ∀ f ∈ w.log, Settled time f

/-- The walk within slot `k`, with nothing due on the temporary list. -/
structure WalkingSlot (time last k : Nat) (s₀ : Scheduler) (lastRun : BitVec 32) (w : Walk) : Prop where
  walking : Walking time last s₀ w
  wf : Wf k w.sched
  tmp : ∀ b ∈ w.sched.tmpHead, ¬ Due w.sched b
  lastRun : w.sched.timerLastRun = lastRun

section

variable {time last k : Nat} {s₀ : Scheduler} {lastRun : BitVec 32} {w : Walk} {b : Block} {rest : List Block}

theorem Walking.dequeue (h : Walking time last s₀ w) :
    Walking time last s₀ ⟨dequeue w.sched k b rest, w.log⟩ :=
  ⟨⟨h.clocked.now, h.clocked.clock, h.clocked.period⟩, h.now, h.once, h.fired, h.due, h.kept, h.settled⟩

/-- A timer fires in the middle of a walk. -/
theorem Walking.fire {s : Scheduler} {log : List Firing} (h : Walking time last s₀ ⟨s, log⟩) (hdue : Due s b)
    {f : Firing} (htimer : f.timer = b) (hleft : LeftAlone time last s b f.after) (hnot : ¬ Due f.after b)
    (hsettled : Settled time f) : Walking time last s₀ ⟨f.after, log ++ [f]⟩ := by
  obtain ⟨hdue₀, hnew⟩ := h.due hdue
  have hmap : (log ++ [f]).map Firing.timer = log.map Firing.timer ++ [b] := by simp [htimer]
  refine ⟨hleft.clocked, hleft.now.trans h.now, ?_, ?_, fun {c} hc => ?_, fun {c} hrun hc => ?_, ?_⟩
  · rw [hmap]
    refine h.once.append (List.nodup_singleton b) fun c hc hb => ?_
    obtain rfl := List.mem_singleton.1 hb
    exact hnew hc
  · intro c hc
    rw [hmap, List.mem_append, List.mem_singleton] at hc
    obtain hc | rfl := hc
    · exact h.fired c hc
    · exact hdue₀
  · obtain ⟨hc₀, hlog⟩ := h.due (hleft.due hc)
    refine ⟨hc₀, ?_⟩
    rw [hmap, List.mem_append, List.mem_singleton, not_or]
    exact ⟨hlog, fun hcb => hnot (hcb ▸ hc)⟩
  · rw [hmap, List.mem_append, List.mem_singleton, not_or] at hc
    have hkept : s.mem c = s₀.mem c := h.kept hrun hc.1
    exact (hleft.kept hc.2 (by rwa [hkept])).trans hkept
  · intro g hg
    obtain hg | hg := List.mem_append.1 hg
    · exact h.settled g hg
    · rw [List.mem_singleton.1 hg]
      exact hsettled

theorem WalkingSlot.skip (h : WalkingSlot time last k s₀ lastRun w) (hslot : w.sched.timerWheel k = b :: rest)
    (hdue : ¬ Due w.sched b) : WalkingSlot time last k s₀ lastRun ⟨dequeue w.sched k b rest, w.log⟩ := by
  refine ⟨h.walking.dequeue, wf_dequeue h.wf hslot, fun c hc => ?_, h.lastRun⟩
  obtain rfl | hc := List.mem_cons.1 hc
  · exact hdue
  · exact h.tmp c hc

/-- The timers of slot `k` that are due and have not been looked at. -/
def dueIn (s : Scheduler) (k : Nat) : List Block := (s.timerWheel k).filter fun b => decide (Due s b)

/-- The timer at the top of the slot fires; what is left to fire in the slot is less. -/
theorem WalkingSlot.fire (h : WalkingSlot time last k s₀ lastRun w) (hlast : last ≤ time)
    (hslot : w.sched.timerWheel k = b :: rest) (hdue : Due w.sched b) {cb : Callback}
    (hcb : Quiet (dequeue w.sched k b rest) b cb.ops) {f : Firing}
    (hf : f = Timers.fire cb (dequeue w.sched k b rest) b) :
    WalkingSlot time last k s₀ lastRun ⟨f.after, w.log ++ [f]⟩ ∧
      (dueIn f.after k).length < (dueIn w.sched k).length := by
  have hdeq := wf_dequeue h.wf hslot
  have hwalking : Walking time last s₀ ⟨dequeue w.sched k b rest, w.log⟩ := h.walking.dequeue
  obtain ⟨hleft, hnot, hsettled⟩ := fire_quiet hlast hdeq hwalking.clocked hcb hf
  have hwf : Wf k f.after := by
    rw [hf]
    exact wf_fire hdeq hcb.valid b
  have htmp : ∀ c ∈ f.after.tmpHead, ¬ Due f.after c := by
    intro c hc hcdue
    obtain rfl | hc := List.mem_cons.1 (hleft.tmp hc)
    · exact hnot hcdue
    · exact h.tmp c hc (hleft.due hcdue)
  refine ⟨⟨hwalking.fire hdue (by rw [hf]; rfl) hleft hnot hsettled, hwf, htmp, hleft.lastRun.trans h.lastRun⟩, ?_⟩
  -- a timer that is still due was due before, in the same place
  have hsub : dueIn f.after k ⊆ rest.filter fun c => decide (Due w.sched c) := by
    intro c hc
    obtain ⟨hck, hcdue⟩ := List.mem_filter.1 hc
    have hcdue := of_decide_eq_true hcdue
    have hcalled : Due w.sched c := hleft.due hcdue
    have hcb : c ≠ b := fun hcb => hnot (hcb ▸ hcdue)
    refine List.mem_filter.2 ⟨?_, decide_eq_true hcalled⟩
    have hclock := (hwf.wheel hck).2
    rw [hleft.kept hcb hcalled.1] at hclock
    obtain hon | hon := hdeq.on hcalled.1
    · rw [hclock] at hon
      simpa [Timers.dequeue] using hon
    · exact (h.tmp c ((List.mem_cons.1 hon).resolve_left hcb) hcalled).elim
  have hnodup : (dueIn f.after k).Nodup := (hwf.wheelNodup k).filter _
  have hle := (hnodup.subperm hsub).length_le
  have hcount : dueIn w.sched k = b :: rest.filter fun c => decide (Due w.sched c) := by
    rw [dueIn, hslot, List.filter_cons_of_pos (by simpa using hdue)]
  rw [hcount, List.length_cons]
  omega

theorem dueIn_skip (hslot : w.sched.timerWheel k = b :: rest) (hdue : ¬ Due w.sched b) :
    dueIn (dequeue w.sched k b rest) k = dueIn w.sched k := by
  rw [dueIn, dueIn, hslot, List.filter_cons_of_neg (by simpa using hdue)]
  simp only [dequeue, Function.update_self]
  rfl

/-- With fuel enough the walk gets through the slot, and nothing in it is due any more. -/
theorem walkSlot_ok {cb : Callbacks} (hcb : QuietCallbacks cb) (hlast : last ≤ time) (w : Walk)
    (h : WalkingSlot time last k s₀ lastRun w) :
    ∃ w' fuel₀, (∀ fuel, fuel₀ ≤ fuel → walkSlot cb k fuel w = some w') ∧
      WalkingSlot time last k s₀ lastRun w' ∧ w'.sched.timerWheel k = [] := by
  cases hslot : w.sched.timerWheel k with
  | nil =>
    refine ⟨w, 1, fun fuel hfuel => ?_, h, hslot⟩
    obtain ⟨fuel, rfl⟩ := Nat.exists_eq_add_of_le' hfuel
    rw [walkSlot, hslot]
  | cons b rest =>
    have hrun : (w.sched.mem b).running = true := (h.wf.wheel (by rw [hslot]; exact List.mem_cons_self ..)).1
    by_cases hdue : Due w.sched b
    · obtain ⟨hnext, hless⟩ := h.fire hlast hslot hdue (hcb w.log.length _ b hrun) rfl
      obtain ⟨w', fuel₀, hw', hdone⟩ := walkSlot_ok hcb hlast _ hnext
      refine ⟨w', fuel₀ + 1, fun fuel hfuel => ?_, hdone⟩
      obtain ⟨fuel, rfl⟩ := Nat.exists_eq_add_of_le' (Nat.le_of_add_left_le hfuel)
      rw [walkSlot, hslot]
      exact (if_pos hdue.2).trans (hw' fuel (by omega))
    · have hnext := h.skip hslot hdue
      have hsame := dueIn_skip hslot hdue
      obtain ⟨w', fuel₀, hw', hdone⟩ := walkSlot_ok hcb hlast _ hnext
      refine ⟨w', fuel₀ + 1, fun fuel hfuel => ?_, hdone⟩
      obtain ⟨fuel, rfl⟩ := Nat.exists_eq_add_of_le' (Nat.le_of_add_left_le hfuel)
      rw [walkSlot, hslot]
      exact (if_neg fun hout => hdue ⟨hrun, hout⟩).trans (hw' fuel (by omega))
termination_by ((dueIn w.sched k).length, (w.sched.timerWheel k).length)
decreasing_by
  · exact Prod.Lex.left _ _ hless
  · rw [hsame, hslot]
    refine Prod.Lex.right _ ?_
    simp [dequeue]

end

/-! ## All slots -/

/-- The walk between two slots, when it has been through `i` of them. -/
structure Scanned (time last i : Nat) (s₀ : Scheduler) (w : Walk) : Prop where
  walking : Walking time last s₀ w
  wf : ∃ k, Wf k w.sched
  noTmp : w.sched.tmpHead = []
  lastRun : w.sched.timerLastRun = BitVec.ofNat 32 (last + i)
  scanned : ∀ {b}, Due w.sched b → ∀ j < i, wheelSlot (w.sched.mem b).timerClock ≠ (last + j) % 1024

section

variable {time last : Nat} {s₀ : Scheduler}

theorem Scanned.walkingSlot {i : Nat} {w : Walk} (h : Scanned time last i s₀ w) :
    WalkingSlot time last (wheelSlot w.sched.timerLastRun) s₀ w.sched.timerLastRun w := by
  obtain ⟨k, hwf⟩ := h.wf
  refine ⟨h.walking, hwf.of_noTmp h.noTmp, fun b hb => ?_, rfl⟩
  rw [h.noTmp] at hb
  cases hb

/-- The slot has been walked, and the timers that stay in it are back. -/
theorem Scanned.next {i k : Nat} {w w' : Walk} (h : Scanned time last i s₀ w)
    (hk : k = wheelSlot w.sched.timerLastRun)
    (hslot : WalkingSlot time last k s₀ w.sched.timerLastRun w') (hempty : w'.sched.timerWheel k = [])
    (hold : ∀ {b}, Due w'.sched b → Due w.sched b ∧ w'.sched.mem b = w.sched.mem b) :
    Scanned time last (i + 1) s₀
      ⟨{ listMerge w'.sched k with timerLastRun := (listMerge w'.sched k).timerLastRun + 1#32 }, w'.log⟩ := by
  obtain ⟨hmem, hnow, hrun, -⟩ := listMerge_rest w'.sched k
  have hwalk := hslot.walking
  have hdue : ∀ {b}, Due { listMerge w'.sched k with timerLastRun := (listMerge w'.sched k).timerLastRun + 1#32 } b →
      Due w'.sched b := fun hb => (due_congr hnow (congrFun hmem _)).1 hb
  refine ⟨⟨⟨hnow.trans hwalk.clocked.now, ?_, ?_⟩, hnow.trans hwalk.now, hwalk.once, hwalk.fired,
    fun hb => hwalk.due (hdue hb), fun hb hlog => (congrFun hmem _).trans (hwalk.kept hb hlog), hwalk.settled⟩,
    ⟨k, { wf_listMerge hslot.wf with }⟩, tmpHead_listMerge .., ?_, fun {b} hb j hj => ?_⟩
  · intro b
    exact (congrFun hmem b).symm ▸ hwalk.clocked.clock
  · intro b
    exact (congrFun hmem b).symm ▸ hwalk.clocked.period
  · show (listMerge w'.sched k).timerLastRun + 1#32 = _
    rw [hrun, hslot.lastRun, h.lastRun, ← BitVec.ofNat_add]
    rfl
  · show wheelSlot ((listMerge w'.sched k).mem b).timerClock ≠ _
    have hb' := hdue hb
    obtain ⟨hb₀, hsame⟩ := hold hb'
    rw [hmem]
    obtain hj | rfl := Nat.lt_succ_iff_lt_or_eq.1 hj
    · rw [hsame]
      exact h.scanned hb₀ j hj
    · -- what is due is on the slot of its clock, and this one is empty
      rw [← wheelSlot_ofNat, ← h.lastRun, ← hk]
      intro heq
      obtain hon | hon := hslot.wf.on hb'.1
      · rw [heq, hempty] at hon
        cases hon
      · exact hslot.tmp b hon hb'

/-- The timers that are due after a slot has been walked were due before, and are as they were. -/
theorem WalkingSlot.old {i k : Nat} {w w' : Walk} (h : Scanned time last i s₀ w) {lastRun : BitVec 32}
    (hslot : WalkingSlot time last k s₀ lastRun w') (hlog : ∀ f ∈ w.log, f ∈ w'.log) {b : Block}
    (hb : Due w'.sched b) : Due w.sched b ∧ w'.sched.mem b = w.sched.mem b := by
  obtain ⟨hb₀, hnot⟩ := hslot.walking.due hb
  have hnot' : b ∉ w.log.map Firing.timer := fun hmem => by
    obtain ⟨f, hf, htimer⟩ := List.mem_map.1 hmem
    exact hnot (List.mem_map.2 ⟨f, hlog f hf, htimer⟩)
  have heq := hslot.walking.kept hb₀.1 hnot
  have heq' := h.walking.kept hb₀.1 hnot'
  exact ⟨(due_congr h.walking.now heq').2 hb₀, heq.trans heq'.symm⟩

theorem log_walkSlot {cb : Callbacks} {k : Nat} : ∀ (fuel : Nat) (w : Walk) {w' : Walk},
    walkSlot cb k fuel w = some w' → ∀ f ∈ w.log, f ∈ w'.log
  | 0, _, _, h => by cases h
  | fuel + 1, w, w', h => by
    unfold walkSlot at h
    split at h
    · obtain rfl := Option.some.inj h
      exact fun f hf => hf
    · dsimp only at h
      split at h
      · exact fun f hf => log_walkSlot fuel _ h f (List.mem_append_left _ hf)
      · exact fun f hf => log_walkSlot fuel _ h f hf

theorem walkSlots_ok {cb : Callbacks} (hcb : QuietCallbacks cb) (hlast : last ≤ time) : ∀ (slots i : Nat) (w : Walk),
    Scanned time last i s₀ w → ∃ w' fuel₀, (∀ fuel, fuel₀ ≤ fuel → walkSlots cb fuel slots w = some w') ∧
      ∃ i', Scanned time last i' s₀ w' ∧ (i' = i + slots ∨ ¬ w'.sched.timerLastRun ≤ w'.sched.nowTimes)
  | 0, i, w, h => ⟨w, 0, fun _ _ => rfl, i, h, .inl rfl⟩
  | slots + 1, i, w, h => by
    by_cases hle : w.sched.timerLastRun ≤ w.sched.nowTimes
    · obtain ⟨w₁, fuel₁, hw₁, hslot, hempty⟩ := walkSlot_ok hcb hlast w h.walkingSlot
      have hnext := h.next rfl hslot hempty (fun hb => hslot.old h (log_walkSlot _ _ (hw₁ fuel₁ (le_refl _))) hb)
      obtain ⟨w', fuel₂, hw', i', hscanned, hend⟩ := walkSlots_ok hcb hlast slots (i + 1) _ hnext
      refine ⟨w', max fuel₁ fuel₂, fun fuel hfuel => ?_, i', hscanned, hend.imp_left (by omega)⟩
      rw [walkSlots, if_pos hle]
      exact Option.bind_eq_some_iff.2 ⟨w₁, hw₁ fuel (by omega), hw' fuel (by omega)⟩
    · exact ⟨w, 0, fun _ _ => by rw [walkSlots, if_neg hle], i, h, .inr hle⟩

theorem walkSlot_mono {cb : Callbacks} {k : Nat} : ∀ {fuel fuel' : Nat} {w w' : Walk}, fuel ≤ fuel' →
    walkSlot cb k fuel w = some w' → walkSlot cb k fuel' w = some w'
  | 0, _, _, _, _, h => by cases h
  | fuel + 1, 0, _, _, hle, _ => (Nat.not_succ_le_zero _ hle).elim
  | fuel + 1, fuel' + 1, w, w', hle, h => by
    have hle := Nat.le_of_succ_le_succ hle
    unfold walkSlot at h ⊢
    split at h
    · exact h
    · dsimp only at h ⊢
      split at h
      · next hdue =>
        rw [if_pos hdue]
        exact walkSlot_mono hle h
      · next hdue =>
        rw [if_neg hdue]
        exact walkSlot_mono hle h

theorem walkSlots_mono {cb : Callbacks} {fuel fuel' : Nat} (hle : fuel ≤ fuel') :
    ∀ (slots : Nat) (w : Walk) {w' : Walk}, walkSlots cb fuel slots w = some w' → walkSlots cb fuel' slots w = some w'
  | 0, _, _, h => h
  | slots + 1, w, w', h => by
    unfold walkSlots at h ⊢
    split at h
    · next hrun =>
      obtain ⟨w₁, hw₁, h⟩ := Option.bind_eq_some_iff.1 h
      rw [if_pos hrun]
      exact Option.bind_eq_some_iff.2 ⟨w₁, walkSlot_mono hle hw₁, walkSlots_mono hle slots _ h⟩
    · next hrun =>
      rw [if_neg hrun]
      exact h

/-- More fuel does not change what a walk does. -/
theorem walkTimers_mono {cb : Callbacks} {fuel fuel' : Nat} (hle : fuel ≤ fuel') {s : Scheduler} {w : Walk}
    (h : walkTimers cb fuel s = some w) : walkTimers cb fuel' s = some w := by
  obtain ⟨w', hw', rfl⟩ := Option.map_eq_some_iff.1 h
  exact Option.map_eq_some_iff.2 ⟨w', walkSlots_mono hle _ _ hw', rfl⟩

/-- The slots since the last walk hold every timer that is due: after `min (time - last + 1) 1024` of them
none is left. -/
theorem Scanned.none_due {i : Nat} {w : Walk} (h : Scanned time last i s₀ w) (htime : time < last + 2147483648)
    (hi : i = 1024 ∨ time < last + i) {b : Block} : ¬ Due w.sched b := by
  intro hb
  obtain ⟨hrun, due, hle, hdue⟩ := (h.walking.clocked.due_iff htime).1 hb
  obtain ⟨due', hlt, hdue'⟩ := h.walking.clocked.expires htime hrun
  rw [← hdue.unique hdue'] at hlt
  refine h.scanned hb ((due - last) % 1024) (by omega) ?_
  rw [hdue.shows, wheelSlot_ofNat]
  omega

/-- A walk that gets past the slot of now has been through all the slots it has to. -/
theorem Scanned.past_now {i : Nat} {w : Walk} (h : Scanned time last i s₀ w) (hlast : last ≤ time)
    (hwrap : last % 4294967296 ≤ time % 4294967296) (htime : time < last + 2147483648)
    (hend : ¬ w.sched.timerLastRun ≤ w.sched.nowTimes) : time < last + i := by
  rw [h.lastRun, h.walking.clocked.now, BitVec.le_def, BitVec.toNat_ofNat, BitVec.toNat_ofNat] at hend
  omega

end

end Olsrd.Timers
