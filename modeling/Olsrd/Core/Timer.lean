/-
Timers of `scheduler.c`. Times are milliseconds without the wrap of the 32 bit clock, and a timer is
there as long as it runs.
-/
import Mathlib.Tactic

namespace Olsrd

/-- `struct timer_entry`: when it fires, and the random number of its jitter. -/
structure Timer where
  clock : Nat
  random : Nat
  deriving DecidableEq, Repr

def randMax : Nat := 2147483647

def calcJitter (now relTime jitterPct randomVal : Nat) : Nat :=
  if jitterPct = 0 ∨ jitterPct > 99 ∨ relTime > 2 ^ 24 then now + relTime
  else
    let jitterTime := jitterPct * relTime / 100
    let jitterTime := randomVal / (1 + randMax / (jitterTime + 1))
    now + (relTime - jitterTime)

theorem calcJitter_le (now relTime jitterPct randomVal : Nat) :
    calcJitter now relTime jitterPct randomVal ≤ now + relTime := by
  unfold calcJitter
  split
  · exact le_refl _
  · exact Nat.add_le_add_left (Nat.sub_le _ _) _

/-- `olsr_change_timer` -/
def olsrChangeTimer (now : Nat) (timer : Option Timer) (relTime jitterPct : Nat) : Option Timer :=
  timer.map fun t => { t with clock := calcJitter now relTime jitterPct t.random }

/-- `olsr_set_timer`; a timer that is started draws `random`. -/
def olsrSetTimer (now random : Nat) (timer : Option Timer) (relTime jitterPct : Nat) : Option Timer :=
  if relTime = 0 then none
  else match timer with
    | none => some ⟨calcJitter now relTime jitterPct random, random⟩
    | some _ => olsrChangeTimer now timer relTime jitterPct

theorem olsrSetTimer_eq_none_iff {now random : Nat} {timer : Option Timer} {relTime jitterPct : Nat} :
    olsrSetTimer now random timer relTime jitterPct = none ↔ relTime = 0 := by
  unfold olsrSetTimer olsrChangeTimer
  split
  · simp [*]
  · cases timer <;> simp [*]

theorem clock_olsrSetTimer {now random : Nat} {timer : Option Timer} {relTime jitterPct : Nat} {t : Timer}
    (h : olsrSetTimer now random timer relTime jitterPct = some t) : t.clock ≤ now + relTime := by
  unfold olsrSetTimer olsrChangeTimer at h
  split at h
  · cases h
  · cases timer with
    | none => obtain rfl := Option.some.inj h; exact calcJitter_le ..
    | some t₀ => obtain rfl := Option.some.inj h; exact calcJitter_le ..

end Olsrd
