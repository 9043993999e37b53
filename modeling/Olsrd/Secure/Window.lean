/-
The adaptive time difference of `check_timestamp`: how far the packets of a validated peer, genuine ones and
replays, may move it away from the difference of the two clocks.
-/
import Olsrd.Lib.Run
import Olsrd.Secure.Handshake

namespace Olsrd.Secure

open Timers (olsrGetTimestamp)

/-! ## Packets of the peer -/

/-- A number that an `int` holds. -/
def FitsInt (x : Int) : Prop := -2147483648 ≤ x ∧ x < 2147483648

theorem toInt_of_fits {x : Int} (h : FitsInt x) : toInt x = x := by
  have := h.1
  have := h.2
  exact Int.bmod_eq_of_le_mul_two (by omega) (by omega)

/-- `SLACK` -/
def slackAllowed : Int := 3

/-- A packet that the peer signed at our time `sent`, when it arrives. A genuine packet arrives as it is sent. -/
structure Arrival where
  clock : Clock
  draw : Draw
  sent : Int

/-- The time stamp of a packet of a peer whose clock shows `d0` seconds less than ours. -/
def Arrival.tstamp (d0 : Int) (p : Arrival) : Int := p.sent - d0

/-- The seconds a packet was kept back. -/
def Arrival.delay (p : Arrival) : Int := p.clock.now - p.sent

/-- A packet is sent before it arrives, and the times lie so close that an `int` holds their difference. -/
structure Arrives (d0 : Int) (p : Arrival) : Prop where
  past : 0 ≤ p.delay
  recent : p.delay < 2147483648
  age : FitsInt (p.delay + d0)

section Peer

variable (scheme : Scheme) (host : Host) (peer : IpAddr) (d0 : Int)

def receive (stamps : List Stamp) (p : Arrival) : Outcome :=
  checkTimestamp scheme host p.clock p.draw peer (p.tstamp d0) stamps

/-- A handshake that found the difference of the clocks. -/
def Shaken (stamps : List Stamp) : Prop :=
  FitsInt d0 ∧ ∃ entry, lookupTimestampEntry peer stamps = some entry ∧ entry.validated ≠ 0 ∧ entry.diff = d0

/-- What the window of accepted time stamps is for. -/
structure WindowKept (stamps : List Stamp) : Prop where
  genuine : ∀ p, Arrives d0 p → p.delay = 0 → (receive scheme host peer d0 stamps p).ok = true
  bounded : ∀ p, Arrives d0 p → (receive scheme host peer d0 stamps p).ok = true → p.delay ≤ upperDiff - lowerDiff
  drift : ∀ entry, lookupTimestampEntry peer stamps = some entry → |entry.diff - d0| ≤ slackAllowed

/-- A packet that was kept back for so long can be in the window and drag it on, 5 or 6 seconds. A negative mean is
rounded up, which lets 4 seconds do. -/
def Late (delay : Int) : Prop := (if d0 < -slackAllowed then 3 else 4) < delay ∧ delay ≤ 2 * slackAllowed

instance (delay : Int) : Decidable (Late d0 delay) := inferInstanceAs (Decidable (_ ∧ _))

/-- The states that the packets of the peer lead to, if all of them meet `ok`. -/
def Received (ok : Arrival → Prop) : List Stamp → Prop :=
  Run.Reaches (Shaken peer d0) (fun _ p => Arrives d0 p ∧ ok p)
    (fun stamps p => some (receive scheme host peer d0 stamps p).stamps)

end Peer

/-! ## One packet -/

variable {scheme : Scheme} {host : Host} {peer : IpAddr} {d0 : Int} {stamps : List Stamp} {p : Arrival} {entry : Stamp}

/-- The difference is that of the clocks or more, by what the drift is bounded by. -/
structure Drift (peer : IpAddr) (d0 bound : Int) (stamps : List Stamp) (entry : Stamp) : Prop where
  clocks : FitsInt d0
  found : lookupTimestampEntry peer stamps = some entry
  validated : entry.validated ≠ 0
  above : d0 ≤ entry.diff
  below : entry.diff ≤ d0 + bound
  fits : FitsInt entry.diff

theorem age_eq (d0 : Int) (p : Arrival) : p.clock.now - p.tstamp d0 = p.delay + d0 := by
  unfold Arrival.tstamp Arrival.delay; omega

theorem Drift.slack (h : Drift peer d0 slackAllowed stamps entry) (hp : Arrives d0 p) :
    toInt (entry.diff - (p.clock.now - p.tstamp d0)) = entry.diff - (p.delay + d0) := by
  have := h.above
  have := h.below
  have := hp.past
  have := hp.recent
  rw [age_eq]
  refine toInt_of_fits ⟨?_, ?_⟩
  · omega
  · unfold slackAllowed at *; omega

/-- A packet is accepted if its age is in the window around the difference. -/
theorem Drift.ok_iff (h : Drift peer d0 slackAllowed stamps entry) (hp : Arrives d0 p) :
    (receive scheme host peer d0 stamps p).ok = true ↔ |entry.diff - (p.delay + d0)| ≤ slackAllowed := by
  unfold receive checkTimestamp
  simp only [h.found, if_neg h.validated, h.slack hp]
  split
  · next hout =>
    refine iff_of_false (by simp [Outcome.fail]) fun hle => ?_
    have := abs_le.1 hle
    unfold upperDiff lowerDiff at hout
    unfold slackAllowed at this
    omega
  · next hin =>
    refine iff_of_true rfl (abs_le.2 ?_)
    unfold upperDiff lowerDiff at hin
    unfold slackAllowed
    omega

/-- C rounds half a number towards zero. -/
theorem tdiv_two (a : Int) : (0 ≤ a → a.tdiv 2 = a / 2) ∧ (a < 0 → a.tdiv 2 = (a + 1) / 2) := by
  refine ⟨Int.tdiv_eq_ediv_of_nonneg, fun h => ?_⟩
  have hneg : a.tdiv 2 = -((-a) / 2) := by rw [← Int.tdiv_eq_ediv_of_nonneg (by omega), Int.neg_tdiv, Int.neg_neg]
  omega

/-- The mean of two numbers, as C divides it, lies between them. -/
theorem tdiv_two_bounds (lo hi : Int) {a b : Int} (ha : lo ≤ a ∧ a ≤ hi) (hb : lo ≤ b ∧ b ≤ hi) :
    lo ≤ (a + b).tdiv 2 ∧ (a + b).tdiv 2 ≤ hi := by
  obtain ⟨hpos, hneg⟩ := tdiv_two (a + b)
  omega

theorem newDiff_eq {age diff : Int} (h : FitsInt ((age + diff).tdiv 2)) : newDiff age diff = (age + diff).tdiv 2 := by
  unfold newDiff
  split
  · exact toInt_of_fits h
  · next h0 =>
    rw [not_not] at h0
    rw [h0]; decide

variable (scheme host)

/-- An accepted packet takes the difference to the mean. -/
theorem Drift.accepted (h : Drift peer d0 slackAllowed stamps entry) (hp : Arrives d0 p)
    (hok : |entry.diff - (p.delay + d0)| ≤ slackAllowed) :
    ∃ entry', Drift peer d0 (2 * slackAllowed) (receive scheme host peer d0 stamps p).stamps entry' ∧
      entry'.diff = (p.delay + d0 + entry.diff).tdiv 2 := by
  have hin := abs_le.1 hok
  obtain ⟨hlow, hhigh⟩ := hp.age
  have habove := h.above
  have hbelow := h.below
  have hmean := tdiv_two_bounds d0 (d0 + 2 * slackAllowed) (a := p.delay + d0) (b := entry.diff)
    ⟨by have := hp.past; omega, by omega⟩ ⟨habove, by unfold slackAllowed at *; omega⟩
  have hint := tdiv_two_bounds (-2147483648) 2147483647 (a := p.delay + d0) (b := entry.diff)
    ⟨hlow, by omega⟩ ⟨h.fits.1, by have := h.fits.2; omega⟩
  have hdiff : newDiff (p.clock.now - p.tstamp d0) entry.diff = (p.delay + d0 + entry.diff).tdiv 2 := by
    rw [age_eq]
    exact newDiff_eq ⟨hint.1, by omega⟩
  have hwindow : ¬(entry.diff - (p.delay + d0) > upperDiff ∨ entry.diff - (p.delay + d0) < lowerDiff) := by
    unfold upperDiff lowerDiff
    unfold slackAllowed at hin
    omega
  have hlookup : lookupTimestampEntry peer (receive scheme host peer d0 stamps p).stamps =
      some (adapt p.clock (p.tstamp d0) entry) := by
    unfold receive checkTimestamp
    simp only [h.found, if_neg h.validated, h.slack hp, if_neg hwindow]
    rw [lookup_modifyEntry (addr_adapt _ _), if_pos rfl, h.found, Option.map_some]
  rw [← hdiff] at hmean hint
  exact ⟨_, ⟨h.clocks, hlookup, h.validated, hmean.1, hmean.2, hint.1, Int.lt_add_one_of_le hint.2⟩, hdiff⟩

/-- A packet outside of the window leaves the table alone. -/
theorem Drift.refused (h : Drift peer d0 slackAllowed stamps entry) (hp : Arrives d0 p)
    (hok : ¬|entry.diff - (p.delay + d0)| ≤ slackAllowed) : (receive scheme host peer d0 stamps p).stamps = stamps := by
  have hout : entry.diff - (p.delay + d0) > upperDiff ∨ entry.diff - (p.delay + d0) < lowerDiff := by
    rw [abs_le] at hok
    unfold upperDiff lowerDiff
    unfold slackAllowed at hok
    omega
  unfold receive checkTimestamp
  simp only [h.found, if_neg h.validated, h.slack hp, if_pos hout]
  rfl

/-! ## Runs -/

theorem Shaken.drift (h : Shaken peer d0 stamps) : ∃ entry, Drift peer d0 slackAllowed stamps entry := by
  obtain ⟨hfits, entry, hfound, hvalidated, hdiff⟩ := h
  exact ⟨entry, hfits, hfound, hvalidated, hdiff.ge, by rw [hdiff]; unfold slackAllowed; omega, hdiff ▸ hfits⟩

/-- The mean with a packet that is not late stays in the window. -/
theorem mean_le {x y : Int} (hx : 0 ≤ x ∧ x ≤ slackAllowed) (hy : ¬Late d0 y) (hin : |x - y| ≤ slackAllowed) :
    (y + d0 + (d0 + x)).tdiv 2 ≤ d0 + slackAllowed := by
  have habs := abs_le.1 hin
  obtain ⟨hpos, hneg⟩ := tdiv_two (y + d0 + (d0 + x))
  unfold Late at hy
  unfold slackAllowed at *
  split at hy <;> omega

/-- An accepted packet that is not late leaves the difference in the window. -/
theorem Drift.next (h : Drift peer d0 slackAllowed stamps entry) (hp : Arrives d0 p) (hlate : ¬Late d0 p.delay)
    (hok : |entry.diff - (p.delay + d0)| ≤ slackAllowed) :
    ∃ entry', Drift peer d0 slackAllowed (receive scheme host peer d0 stamps p).stamps entry' ∧
      entry'.diff = (p.delay + d0 + entry.diff).tdiv 2 := by
  obtain ⟨entry', hentry', hmean⟩ := h.accepted scheme host hp hok
  have hle := @mean_le d0 (entry.diff - d0) p.delay ⟨Int.sub_nonneg.2 h.above, Int.sub_left_le_of_le_add h.below⟩ hlate
    (by rwa [Int.sub_sub, Int.add_comm d0])
  rw [add_sub_cancel] at hle
  exact ⟨entry', ⟨h.clocks, hentry'.found, hentry'.validated, hentry'.above, hmean.trans_le hle, hentry'.fits⟩, hmean⟩

theorem Drift.step (h : Drift peer d0 slackAllowed stamps entry) (hp : Arrives d0 p) (hlate : ¬Late d0 p.delay) :
    ∃ entry', Drift peer d0 slackAllowed (receive scheme host peer d0 stamps p).stamps entry' := by
  by_cases hok : |entry.diff - (p.delay + d0)| ≤ slackAllowed
  · obtain ⟨entry', hentry', -⟩ := h.next scheme host hp hlate hok
    exact ⟨entry', hentry'⟩
  · exact ⟨entry, (h.refused scheme host hp hok).symm ▸ h⟩

variable {scheme host}

theorem Drift.windowKept (h : Drift peer d0 slackAllowed stamps entry) : WindowKept scheme host peer d0 stamps := by
  have habove := h.above
  have hbelow := h.below
  refine ⟨fun p hp hdelay => ?_, fun p hp hok => ?_, fun entry' hfound => ?_⟩
  · rw [h.ok_iff hp, hdelay]
    exact abs_le.2 (by unfold slackAllowed at *; omega)
  · have := abs_le.1 ((h.ok_iff hp).1 hok)
    unfold upperDiff lowerDiff
    unfold slackAllowed at *
    omega
  · obtain rfl := Option.some.inj (h.found.symm.trans hfound)
    exact abs_le.2 (by unfold slackAllowed at *; omega)

theorem received_drift (h : Received scheme host peer d0 (fun p => ¬Late d0 p.delay) stamps) :
    ∃ entry, Drift peer d0 slackAllowed stamps entry := by
  refine Run.Reaches.invariant (P := fun stamps => ∃ entry, Drift peer d0 slackAllowed stamps entry)
    (fun _ hstart => hstart.drift) ?_ h
  rintro stamps p stamps' ⟨entry, hentry⟩ ⟨hp, hlate⟩ hstep
  obtain rfl := Option.some.inj hstep
  exact hentry.step scheme host hp hlate

/-! ### Late packets -/

/-- The packet, if it had been kept back for so long. -/
def Arrival.keptBackFor (p : Arrival) (delay : Int) : Arrival := { p with sent := p.clock.now - delay }

@[simp] theorem keptBackFor_delay (p : Arrival) (delay : Int) : (p.keptBackFor delay).delay = delay :=
  Int.sub_sub_self _ _

theorem Arrives.keptBackFor (hp : Arrives d0 p) (hd0 : FitsInt d0) {delay : Int} (hdelay : 0 ≤ delay)
    (hle : delay ≤ p.delay) : Arrives d0 (p.keptBackFor delay) := by
  have hrecent := hp.recent
  have hage := hp.age.2
  have hlow := hd0.1
  refine ⟨?_, ?_, ?_⟩ <;> rw [keptBackFor_delay]
  · exact hdelay
  · omega
  · exact ⟨by omega, by omega⟩

/-- One more packet that is not late and in the window moves the difference. -/
theorem Received.next (h : Received scheme host peer d0 (fun p => ¬Late d0 p.delay) stamps)
    (hdrift : Drift peer d0 slackAllowed stamps entry) (hp : Arrives d0 p) {delay : Int} (hdelay : 0 ≤ delay)
    (hle : delay ≤ p.delay) (hlate : ¬Late d0 delay) (hok : |entry.diff - (delay + d0)| ≤ slackAllowed) :
    ∃ stamps' entry', Received scheme host peer d0 (fun p => ¬Late d0 p.delay) stamps' ∧
      Drift peer d0 slackAllowed stamps' entry' ∧ entry'.diff = (delay + d0 + entry.diff).tdiv 2 := by
  have harrives := hp.keptBackFor hdrift.clocks hdelay hle
  rw [← keptBackFor_delay p delay] at hlate hok
  obtain ⟨entry', hentry', hdiff⟩ := hdrift.next scheme host harrives hlate hok
  rw [keptBackFor_delay] at hdiff
  exact ⟨_, entry', h.step (p.keptBackFor delay) ⟨harrives, hlate⟩ rfl, hentry', hdiff⟩

/-- Packets that are not late take the difference to the end of the window: one of 3 seconds, and two of 4 seconds, or
of 3 again where these are late. -/
theorem Received.dragged (h : Received scheme host peer d0 (fun p => ¬Late d0 p.delay) stamps) (hp : Arrives d0 p)
    (hlate : Late d0 p.delay) : ∃ stamps' entry, Received scheme host peer d0 (fun p => ¬Late d0 p.delay) stamps' ∧
      Drift peer d0 slackAllowed stamps' entry ∧ entry.diff = d0 + slackAllowed := by
  obtain ⟨entry, hdrift⟩ := received_drift h
  have hmin : 4 ≤ p.delay := by
    have := hlate.1
    split at this <;> omega
  -- the second and the third packet
  obtain ⟨delay, hdelay⟩ : ∃ delay : Int, delay = if d0 < -slackAllowed then 3 else 4 := ⟨_, rfl⟩
  have hle : 3 ≤ delay ∧ delay ≤ 4 := by
    rw [hdelay]
    split <;> omega
  have hearly : ¬Late d0 delay := fun h => absurd h.1 (by rw [hdelay]; exact lt_irrefl _)
  have hthree : ¬Late d0 3 := fun h => by
    have := h.1
    split at this <;> omega
  have hslack : slackAllowed = 3 := rfl
  have hround : delay = 3 ∧ d0 < -3 ∨ delay = 4 ∧ -3 ≤ d0 := by
    rw [hdelay]
    split <;> omega
  have habove := hdrift.above
  have hbelow := hdrift.below
  obtain ⟨stamps₁, entry₁, h₁, hdrift₁, hdiff₁⟩ := h.next hdrift hp (by omega) (by omega) hthree
    (abs_le.2 ⟨by omega, by omega⟩)
  have hlow₁ : d0 + 1 ≤ entry₁.diff ∧ (d0 < -3 → d0 + 2 ≤ entry₁.diff) := by
    obtain ⟨hpos, hneg⟩ := tdiv_two (3 + d0 + entry.diff)
    omega
  have hbelow₁ := hdrift₁.below
  obtain ⟨stamps₂, entry₂, h₂, hdrift₂, hdiff₂⟩ := h₁.next hdrift₁ hp (by omega) (by omega) hearly
    (abs_le.2 ⟨by omega, by omega⟩)
  have hlow₂ : d0 + 2 ≤ entry₂.diff := by
    obtain ⟨hpos, hneg⟩ := tdiv_two (delay + d0 + entry₁.diff)
    omega
  have hbelow₂ := hdrift₂.below
  obtain ⟨stamps₃, entry₃, h₃, hdrift₃, hdiff₃⟩ := h₂.next hdrift₂ hp (by omega) (by omega) hearly
    (abs_le.2 ⟨by omega, by omega⟩)
  refine ⟨stamps₃, entry₃, h₃, hdrift₃, le_antisymm hdrift₃.below ?_⟩
  obtain ⟨hpos, hneg⟩ := tdiv_two (delay + d0 + entry₂.diff)
  omega

/-- At the end of the window a late packet takes the difference out of it. -/
theorem Drift.late (h : Drift peer d0 slackAllowed stamps entry) (hdiff : entry.diff = d0 + slackAllowed)
    (hp : Arrives d0 p) (hlate : Late d0 p.delay) :
    ¬WindowKept scheme host peer d0 (receive scheme host peer d0 stamps p).stamps := by
  intro hkept
  have hslack : slackAllowed = 3 := rfl
  obtain ⟨hearliest, hlatest⟩ := hlate
  have hin : |entry.diff - (p.delay + d0)| ≤ slackAllowed := abs_le.2 (by split at hearliest <;> omega)
  obtain ⟨entry', hentry', hmean⟩ := h.accepted scheme host hp hin
  have hdrift := abs_le.1 (hkept.drift entry' hentry'.found)
  obtain ⟨hpos, hneg⟩ := tdiv_two (p.delay + d0 + entry.diff)
  split at hearliest <;> omega

/-- As long as no packet is late, genuine packets are accepted and old ones are not. After every such run, and some more
packets that are not late, any late packet breaks this. -/
theorem received_windowKept (h : Received scheme host peer d0 (fun p => ¬Late d0 p.delay) stamps) :
    WindowKept scheme host peer d0 stamps ∧
      ∀ p, Arrives d0 p → Late d0 p.delay →
        ∃ stamps', Received scheme host peer d0 (fun p => ¬Late d0 p.delay) stamps' ∧
          ¬WindowKept scheme host peer d0 (receive scheme host peer d0 stamps' p).stamps := by
  obtain ⟨entry, hentry⟩ := received_drift h
  refine ⟨hentry.windowKept, fun p hp hlate => ?_⟩
  obtain ⟨stamps', entry', h', hdrift, hdiff⟩ := h.dragged hp hlate
  exact ⟨stamps', h', hdrift.late hdiff hp hlate⟩

/-! ## One recorded packet -/

/-- A packet that was sent at second 1000, kept back for so long. -/
def keptBack (delay : Int) : Arrival :=
  ⟨⟨1000 + delay, 0⟩, ⟨0, 0, 0, ⟨[], 0, 0, 0, 0, 0⟩, []⟩, 1000⟩

/-- The table after a handshake with a peer whose clock shows our time. -/
def shakenStamps : List Stamp := [⟨[10, 0, 0, 2], 0, 0, 1, 0, 0⟩]

theorem arrives_keptBack {delay : Int} (h : 0 ≤ delay ∧ delay < 2147483648) : Arrives 0 (keptBack delay) := by
  have hdelay : (keptBack delay).delay = delay := by simp [keptBack, Arrival.delay]
  refine ⟨?_, ?_, ?_⟩ <;> rw [hdelay]
  · exact h.1
  · exact h.2
  · exact ⟨by omega, by omega⟩

theorem shaken_shakenStamps : Shaken [10, 0, 0, 2] 0 shakenStamps :=
  ⟨⟨by decide, by decide⟩, ⟨[10, 0, 0, 2], 0, 0, 1, 0, 0⟩, by decide, by decide, rfl⟩

def windowHost : Host := ⟨[10, 0, 0, 1], []⟩

/-- The table after packets that were kept back for these seconds, one after the other. -/
def afterDelays : List Int → List Stamp
  | [] => shakenStamps
  | delay :: earlier => (receive pairScheme windowHost [10, 0, 0, 2] 0 (afterDelays earlier) (keptBack delay)).stamps

theorem received_afterDelays {ok : Arrival → Prop} : ∀ (delays : List Int), (∀ delay ∈ delays, 0 ≤ delay ∧
    delay < 2147483648 ∧ ok (keptBack delay)) → Received pairScheme windowHost [10, 0, 0, 2] 0 ok (afterDelays delays)
  | [], _ => .init shaken_shakenStamps
  | delay :: earlier, h => by
    obtain ⟨hpos, hrecent, hok⟩ := h delay List.mem_cons_self
    have hearlier := received_afterDelays earlier fun d hd => h d (List.mem_cons_of_mem _ hd)
    exact hearlier.step (keptBack delay) ⟨arrives_keptBack ⟨hpos, hrecent⟩, hok⟩ rfl

/-- A packet that is played again after 3, 7, 4 and 4 seconds leaves the window, a further one after 6 seconds takes it
along. -/
theorem received_windowKept_replays :
    WindowKept pairScheme windowHost [10, 0, 0, 2] 0 (afterDelays [4, 4, 7, 3]) ∧
      ∃ stamps, Received pairScheme windowHost [10, 0, 0, 2] 0 (fun p => ¬Late 0 p.delay) stamps ∧
        ¬WindowKept pairScheme windowHost [10, 0, 0, 2] 0
          (receive pairScheme windowHost [10, 0, 0, 2] 0 stamps (keptBack 6)).stamps := by
  have hdelays : ∀ delay ∈ [4, 4, 7, 3], 0 ≤ delay ∧ delay < 2147483648 ∧ ¬Late 0 (keptBack delay).delay := by decide
  obtain ⟨hkept, hbroken⟩ := received_windowKept (received_afterDelays [4, 4, 7, 3] hdelays)
  exact ⟨hkept, hbroken (keptBack 6) (arrives_keptBack (by decide)) (by decide)⟩

/-- A packet that is played again 3, 4, 5 and 6 seconds late takes the window with it: after that a genuine packet
is refused, and one that is 7 seconds late is not. -/
theorem replays_drag_window :
    ∃ stamps, Received pairScheme windowHost [10, 0, 0, 2] 0 (fun _ => True) stamps ∧
      (receive pairScheme windowHost [10, 0, 0, 2] 0 stamps (keptBack 0)).ok = false ∧
      (receive pairScheme windowHost [10, 0, 0, 2] 0 stamps (keptBack 7)).ok = true ∧
      ¬WindowKept pairScheme windowHost [10, 0, 0, 2] 0 stamps := by
  refine ⟨afterDelays [6, 5, 4, 3],
    received_afterDelays [6, 5, 4, 3] (by decide), by decide, by decide, fun hkept => ?_⟩
  have hold := hkept.bounded (keptBack 7) (arrives_keptBack (by decide)) (by decide)
  exact absurd hold (by decide)

end Olsrd.Secure
