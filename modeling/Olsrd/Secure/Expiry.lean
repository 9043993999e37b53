/-
How long an entry of the timestamp table lasts: a node receives messages and packets and polls its table, at the times
of the scheduler's clock. Half-open exchanges are to be gone soon, and validated entries to stay.
-/
import Olsrd.Secure.Freshness
import Olsrd.Timers.Clock

namespace Olsrd.Secure

open Timers (olsrGetTimestamp olsrIsTimedOut olsrIsTimedOut_iff Expires)

/-! ## Events -/

inductive Event where
  | receive (msg : Msg)
  /-- a packet with a valid signature of `originator` -/
  | packet (originator : IpAddr) (tstamp : Int)
  | poll

/-- An event at a time in milliseconds, with the plugin's own clock. -/
structure TimedEvent where
  time : Nat
  now : Int
  draw : Draw
  event : Event

/-- When the last challenge of an exchange was sent or taken, or the last packet of a validated peer. -/
inductive Phase where
  | halfOpen (since : Nat)
  | validated (accepted : Nat)
  deriving DecidableEq

/-- A node with its table, the time of its last poll, and how far it is with its peers. -/
structure Watch where
  time : Nat
  lastPoll : Nat
  stamps : List Stamp
  phase : IpAddr → Phase

def Phase.accept (time : Nat) : Phase → Phase
  | .validated _ => .validated time
  | .halfOpen since => .halfOpen since

namespace TimedEvent

/-- The clocks as the functions read them -/
def clock (e : TimedEvent) : Clock := ⟨e.now, BitVec.ofNat 32 e.time⟩

section

variable (scheme : Scheme) (host : Host) (e : TimedEvent)

def outcome (stamps : List Stamp) : Outcome :=
  match e.event with
  | .receive msg => checkAuth scheme host e.clock e.draw msg stamps
  | .packet originator tstamp => checkTimestamp scheme host e.clock e.draw originator tstamp stamps
  | .poll => ⟨timeoutTimestamps e.clock stamps, [], true⟩

/-- How far the node is with `peer` after the event, which returned `ok`. -/
def phaseAfter (stamps : List Stamp) (ok : Bool) (peer : IpAddr) (phase : Phase) : Phase :=
  match e.event with
  | .receive (.challenge msg) =>
    if peer = msg.originator ∧ (ok = true ∨ lookupTimestampEntry peer stamps = none) then .halfOpen e.time else phase
  | .receive msg => if peer = msg.originator ∧ ok = true then .validated e.time else phase
  | .packet originator _ =>
    if peer = originator then
      if lookupTimestampEntry peer stamps = none then .halfOpen e.time
      else if ok = true then phase.accept e.time
      else phase
    else phase
  | .poll => phase

def lastPollAfter (lastPoll : Nat) : Nat :=
  match e.event with
  | .poll => e.time
  | _ => lastPoll

end

end TimedEvent

def Watch.step (scheme : Scheme) (host : Host) (s : Watch) (e : TimedEvent) : Option Watch :=
  let out := e.outcome scheme host s.stamps
  some ⟨e.time, e.lastPollAfter s.lastPoll, out.stamps, fun peer => e.phaseAfter s.stamps out.ok peer (s.phase peer)⟩

/-- There is a poll at least every `gap` milliseconds. -/
def Polled (gap : Nat) (s : Watch) (e : TimedEvent) : Prop := e.time ≤ s.lastPoll + gap

/-- A node with an empty table -/
def Watch.Start (s : Watch) : Prop := s.lastPoll = s.time ∧ s.stamps = []

/-! ## Expiry -/

/-- `EXCHANGE_HOLD_TIME` and `TIMESTAMP_HOLD_TIME` in milliseconds -/
def exchangeHold : Nat := 5000
def timestampHold : Nat := 30000

/-- The next poll, whenever it may come, removes what is half open for the hold time. -/
def HalfOpenRemoved (gap : Nat) (s : Watch) : Prop :=
  ∀ e : TimedEvent, s.time ≤ e.time → Polled gap s e → ∀ x ∈ s.stamps, ∀ since, s.phase x.addr = .halfOpen since →
    since + exchangeHold ≤ e.time →
    x ∉ timeoutTimestamps e.clock s.stamps

/-- The next poll leaves what is validated, within the hold time of the last accepted packet. -/
def ValidatedKept (s : Watch) : Prop :=
  ∀ e : TimedEvent, s.time ≤ e.time → ∀ x ∈ s.stamps, ∀ accepted, s.phase x.addr = .validated accepted →
    e.time < accepted + timestampHold →
    x ∈ timeoutTimestamps e.clock s.stamps

/-- The clock value is over when an exchange that began at `since` comes to be polled. -/
def Over (gap since : Nat) (value : BitVec 32) : Prop :=
  ∀ t, since + exchangeHold ≤ t → t < since + exchangeHold + gap → olsrIsTimedOut (BitVec.ofNat 32 t) value = true

/-- Whatever makes or resets an entry finds an expired `valtime` in it, and in new memory for a challenge that is not
signed also an expired `conftime`, and no flag. -/
def FindsExpired (gap : Nat) (scheme : Scheme) (host : Host) (s : Watch) (e : TimedEvent) : Prop :=
  match e.event with
  | .receive (.challenge msg) => msg.destination ∈ host.ifAddrs →
    match lookupTimestampEntry msg.originator s.stamps with
    | none => Over gap e.time e.draw.malloc.valtime ∧
      (scheme.sign msg.covered ≠ msg.signature → e.draw.malloc.validated = 0 ∧ Over gap e.time e.draw.malloc.conftime)
    | some entry => olsrIsTimedOut e.clock.nowTimes entry.conftime = true → scheme.sign msg.covered = msg.signature →
      Over gap e.time entry.valtime
  | .packet originator _ => lookupTimestampEntry originator s.stamps = none → Over gap e.time e.draw.malloc.valtime
  | _ => True

/-! ## What a step does to the table -/

variable {gap : Nat} {scheme : Scheme} {host : Host} {clock : Clock} {draw : Draw} {stamps : List Stamp} {x : Stamp}
  {s : Watch} {e : TimedEvent}

theorem modifyEntry_modifyEntry {adr : IpAddr} {f g : Stamp → Stamp} (hf : ∀ e, (f e).addr = e.addr) :
    modifyEntry adr g (modifyEntry adr f stamps) = modifyEntry adr (g ∘ f) stamps := by
  induction stamps with
  | nil => rfl
  | cons entry stamps ih =>
    by_cases h : (entry.addr == adr) = true
    · simp only [modifyEntry, h, if_true, hf, Function.comp]
    · simp only [modifyEntry, h, Bool.false_eq_true, if_false, ih]

/-- What a challenge does to an entry that is taken up. -/
def reopen (clock : Clock) (draw : Draw) (entry : Stamp) : Stamp := setChallenge draw.challenge (reset clock entry)

/-- A challenge is dropped, or makes an entry that stays as it is in memory, or opens an exchange with an entry that is
new or over. -/
inductive ChallengeCase (scheme : Scheme) (host : Host) (clock : Clock) (draw : Draw) (msg : ChallengeMsg)
    (stamps : List Stamp)
    (out : Outcome) : Prop
  | dropped : out.stamps = stamps → out.ok = false → ChallengeCase scheme host clock draw msg stamps out
  | unsigned : msg.destination ∈ host.ifAddrs → lookupTimestampEntry msg.originator stamps = none →
    scheme.sign msg.covered ≠ msg.signature → out.stamps = { draw.malloc with addr := msg.originator } :: stamps →
      out.ok = false →
    ChallengeCase scheme host clock draw msg stamps out
  | created : msg.destination ∈ host.ifAddrs → lookupTimestampEntry msg.originator stamps = none →
    out.stamps = reopen clock draw { draw.malloc with addr := msg.originator } :: stamps → out.ok = true →
    ChallengeCase scheme host clock draw msg stamps out
  | reopened (entry : Stamp) : msg.destination ∈ host.ifAddrs → lookupTimestampEntry msg.originator stamps =
    some entry → olsrIsTimedOut clock.nowTimes entry.conftime = true → scheme.sign msg.covered = msg.signature →
    out.stamps = modifyEntry msg.originator (reopen clock draw) stamps → out.ok = true →
    ChallengeCase scheme host clock draw msg stamps out

theorem challengeCase (msg : ChallengeMsg) :
    ChallengeCase scheme host clock draw msg stamps (parseChallenge scheme host clock draw msg stamps) := by
  unfold parseChallenge
  by_cases hdest : msg.destination ∈ host.ifAddrs
  · rw [if_neg (not_not.2 hdest)]
    cases hentry : lookupTimestampEntry msg.originator stamps with
    | none =>
      unfold acceptChallenge
      by_cases hsigned : scheme.sign msg.covered = msg.signature
      · simp only [hsigned, ne_eq, not_true_eq_false, if_false]
        refine .created hdest hentry ?_ rfl
        unfold sendCres
        rw [modifyEntry_modifyEntry (addr_reset clock), modifyEntry, if_pos (by simp)]
        rfl
      · simp only [ne_eq, hsigned, not_false_eq_true, if_true]
        exact .unsigned hdest hentry hsigned rfl rfl
    | some entry =>
      by_cases hover : olsrIsTimedOut clock.nowTimes entry.conftime = true
      · unfold acceptChallenge
        by_cases hsigned : scheme.sign msg.covered = msg.signature
        · simp only [hover, hsigned, ne_eq, not_true_eq_false, Bool.not_true, Bool.false_eq_true, if_false]
          refine .reopened entry hdest hentry hover hsigned ?_ rfl
          unfold sendCres
          rw [modifyEntry_modifyEntry (addr_reset clock)]
          rfl
        · simp only [hover, ne_eq, hsigned, not_false_eq_true, if_true, Bool.not_true, Bool.false_eq_true, if_false]
          exact .dropped rfl rfl
      · simp only [hover, Bool.not_false, if_true]
        exact .dropped rfl rfl
  · rw [if_pos hdest]
    exact .dropped rfl rfl

/-- A half-open exchange that expires in time. -/
structure Closing (gap since : Nat) (x : Stamp) : Prop where
  notValidated : x.validated = 0
  valtime : Over gap since x.valtime
  conftime : Over gap since x.conftime

/-- What happened to an entry, and to the phase of its peer. -/
inductive Change (gap : Nat) (scheme : Scheme) (host : Host) (s : Watch) (e : TimedEvent) (x : Stamp) (phase : Phase) :
    Prop
  | same : x ∈ s.stamps → phase = s.phase x.addr → Change gap scheme host s e x phase
  | opened : phase = .halfOpen e.time → (FindsExpired gap scheme host s e → Closing gap e.time x) →
    Change gap scheme host s e x phase
  | validated : phase = .validated e.time → x.valtime = olsrGetTimestamp e.clock.nowTimes timestampHoldTime →
    Change gap scheme host s e x phase
  | adapted (x₀ : Stamp) : x₀ ∈ s.stamps → x₀.addr = x.addr → x₀.validated ≠ 0 → phase =
    (s.phase x.addr).accept e.time →
    x.valtime = olsrGetTimestamp e.clock.nowTimes timestampHoldTime → Change gap scheme host s e x phase

theorem over_exchangeHoldTime (hgap : gap < 2147483648) (since : Nat) :
    Over gap since (olsrGetTimestamp (BitVec.ofNat 32 since) exchangeHoldTime) := by
  intro t ht ht'
  have hexpires : Expires t (olsrGetTimestamp (BitVec.ofNat 32 since) exchangeHoldTime) (since + exchangeHold) :=
    ⟨(BitVec.ofNat_add since 5000).symm, by omega, by omega⟩
  exact (olsrIsTimedOut_iff hexpires).2 ht

theorem lookup_of_mem_ne_none (hkeyed : Keyed stamps) (hx : x ∈ stamps) :
    lookupTimestampEntry x.addr stamps ≠ none := by
  rw [lookup_of_mem hkeyed hx]
  exact Option.some_ne_none x

theorem addr_ne_of_lookup_none {adr : IpAddr} (hnone : lookupTimestampEntry adr stamps = none) (hx : x ∈ stamps) :
    x.addr ≠ adr :=
  fun h => lookup_eq_none.1 hnone (h ▸ List.mem_map_of_mem hx)

theorem change_challenge (hgap : gap < 2147483648) (hkeyed : Keyed s.stamps) {msg : ChallengeMsg}
    (hevent : e.event = .receive (.challenge msg)) (hx : x ∈ (e.outcome scheme host s.stamps).stamps) :
    Change gap scheme host s e x
    (e.phaseAfter s.stamps (e.outcome scheme host s.stamps).ok x.addr (s.phase x.addr)) := by
  have hout : e.outcome scheme host s.stamps = parseChallenge scheme host e.clock e.draw msg s.stamps := by
    simp only [TimedEvent.outcome, hevent, checkAuth]
  rw [hout] at hx ⊢
  simp only [TimedEvent.phaseAfter, hevent]
  cases challengeCase msg with
  | dropped hstamps hok =>
    rw [hstamps] at hx
    refine .same hx (if_neg fun h => ?_)
    rw [hok] at h
    exact h.2.elim Bool.false_ne_true (lookup_of_mem_ne_none hkeyed hx)
  | unsigned hdest hnone hsigned hstamps hok =>
    rw [hstamps] at hx
    rcases List.mem_cons.1 hx with rfl | hx
    · refine .opened (if_pos ⟨rfl, .inr hnone⟩) fun hfinds => ?_
      simp only [FindsExpired, hevent, hnone] at hfinds
      obtain ⟨hvaltime, hrest⟩ := hfinds hdest
      exact ⟨(hrest hsigned).1, hvaltime, (hrest hsigned).2⟩
    · exact .same hx (if_neg fun h => addr_ne_of_lookup_none hnone hx h.1)
  | created hdest hnone hstamps hok =>
    rw [hstamps] at hx
    rcases List.mem_cons.1 hx with rfl | hx
    · refine .opened (if_pos ⟨rfl, .inr hnone⟩) fun hfinds => ?_
      simp only [FindsExpired, hevent, hnone] at hfinds
      exact ⟨rfl, (hfinds hdest).1, over_exchangeHoldTime hgap _⟩
    · exact .same hx (if_neg fun h => addr_ne_of_lookup_none hnone hx h.1)
  | reopened entry hdest hentry hover hsigned hstamps hok =>
    rw [hstamps] at hx
    rcases mem_modifyEntry_of_keyed hkeyed hx with ⟨hx, hne⟩ | ⟨entry', hentry', rfl⟩
    · exact .same hx (if_neg fun h => hne h.1)
    · rw [hentry] at hentry'
      obtain rfl := Option.some.inj hentry'
      have haddr : entry.addr = msg.originator := addr_of_lookup hentry
      refine .opened (if_pos ⟨haddr, .inl hok⟩) fun hfinds => ?_
      simp only [FindsExpired, hevent, hentry] at hfinds
      exact ⟨rfl, hfinds hdest hover hsigned, over_exchangeHoldTime hgap _⟩

/-- A response validates the entry of its originator, or nothing happens. -/
theorem change_response (hkeyed : Keyed s.stamps) {r : Response} {ok : Bool} {phase : Phase}
    (hok : ok = (parseResponse scheme host e.clock r s.stamps).ok)
    (hphase : phase = if x.addr = r.originator ∧ ok = true then .validated e.time else s.phase x.addr)
    (hx : x ∈ (parseResponse scheme host e.clock r s.stamps).stamps) : Change gap scheme host s e x phase := by
  rw [hphase, hok]
  by_cases hdone : (parseResponse scheme host e.clock r s.stamps).ok = true
  · obtain ⟨-, entry, hentry, -, hout⟩ := parseResponse_ok hdone
    rw [hout] at hx
    rcases mem_modifyEntry_of_keyed hkeyed hx with ⟨hx, hne⟩ | ⟨entry', hentry', rfl⟩
    · exact .same hx (if_neg fun h => hne h.1)
    · have haddr : entry'.addr = r.originator := addr_of_lookup hentry'
      exact .validated (if_pos ⟨haddr, hdone⟩) rfl
  · rw [parseResponse_fail (Bool.eq_false_iff.2 hdone)] at hx
    exact .same hx (if_neg fun h => hdone h.2)

theorem change_packet (hgap : gap < 2147483648) (hkeyed : Keyed s.stamps) {originator : IpAddr} {tstamp : Int}
    (hevent : e.event = .packet originator tstamp) (hx : x ∈ (e.outcome scheme host s.stamps).stamps) :
    Change gap scheme host s e x
    (e.phaseAfter s.stamps (e.outcome scheme host s.stamps).ok x.addr (s.phase x.addr)) := by
  have hout : e.outcome scheme host s.stamps = checkTimestamp scheme host e.clock e.draw originator tstamp
      s.stamps := by
    simp only [TimedEvent.outcome, hevent]
  rw [hout] at hx ⊢
  simp only [TimedEvent.phaseAfter, hevent]
  unfold checkTimestamp at hx ⊢
  cases hentry : lookupTimestampEntry originator s.stamps with
  | none =>
    simp only [hentry] at hx ⊢
    rcases List.mem_cons.1 hx with rfl | hx
    · refine .opened ?_ fun hfinds => ?_
      · rw [if_pos rfl, if_pos hentry]
      · simp only [FindsExpired, hevent] at hfinds
        exact ⟨rfl, hfinds hentry, over_exchangeHoldTime hgap _⟩
    · exact .same hx (if_neg (addr_ne_of_lookup_none hentry hx))
  | some entry =>
    simp only [hentry] at hx ⊢
    have hsome : x ∈ s.stamps → lookupTimestampEntry x.addr s.stamps ≠ none := lookup_of_mem_ne_none hkeyed
    by_cases hset : entry.validated = 0
    · rw [if_pos hset] at hx ⊢
      refine .same hx ?_
      rw [if_neg (hsome hx)]
      simp [Outcome.fail]
    · rw [if_neg hset] at hx ⊢
      split at hx
      · next hskew =>
        rw [if_pos hskew]
        refine .same hx ?_
        rw [if_neg (hsome hx)]
        simp [Outcome.fail]
      · next hslack =>
        rw [if_neg hslack]
        rcases mem_modifyEntry_of_keyed hkeyed hx with ⟨hx, hne⟩ | ⟨entry', hentry', rfl⟩
        · exact .same hx (if_neg hne)
        · rw [hentry] at hentry'
          obtain rfl := Option.some.inj hentry'
          have haddr : entry.addr = originator := addr_of_lookup hentry
          refine .adapted entry (mem_of_lookup hentry) rfl hset ?_ rfl
          rw [addr_adapt, haddr, if_pos rfl, hentry, if_neg (Option.some_ne_none _), if_pos rfl]

/-- What a step does to an entry is one of the changes. -/
theorem change_of_mem (hgap : gap < 2147483648) (hkeyed : Keyed s.stamps)
    (hx : x ∈ (e.outcome scheme host s.stamps).stamps) :
    Change gap scheme host s e x
    (e.phaseAfter s.stamps (e.outcome scheme host s.stamps).ok x.addr (s.phase x.addr)) := by
  cases hevent : e.event with
  | receive msg =>
    cases msg with
    | challenge msg => exact change_challenge hgap hkeyed hevent hx
    | cres msg =>
      have hout : e.outcome scheme host s.stamps = parseCres scheme host e.clock e.draw msg s.stamps := by
        simp only [TimedEvent.outcome, hevent, checkAuth]
      have hres : (e.outcome scheme host s.stamps).stamps =
            (parseResponse scheme host e.clock (msg.response scheme.platform) s.stamps).stamps ∧
          (e.outcome scheme host s.stamps).ok =
            (parseResponse scheme host e.clock (msg.response scheme.platform) s.stamps).ok := by
        rw [hout]
        unfold parseCres
        simp only
        split
        · exact ⟨rfl, rfl⟩
        · exact ⟨rfl, rfl⟩
      rw [hres.1] at hx
      refine change_response hkeyed hres.2 ?_ hx
      simp only [TimedEvent.phaseAfter, hevent]
      rfl
    | rres msg =>
      have hout : e.outcome scheme host s.stamps = parseResponse scheme host e.clock (msg.response scheme.platform)
          s.stamps := by
        simp only [TimedEvent.outcome, hevent, checkAuth, parseRres]
      rw [hout] at hx ⊢
      refine change_response hkeyed rfl ?_ hx
      simp only [TimedEvent.phaseAfter, hevent]
      rfl
  | packet originator tstamp => exact change_packet hgap hkeyed hevent hx
  | poll =>
    simp only [TimedEvent.outcome, hevent] at hx
    refine .same (List.mem_filter.1 hx).1 ?_
    simp only [TimedEvent.phaseAfter, hevent]

/-! ## Runs -/

theorem keyed_outcome (hkeyed : Keyed s.stamps) : Keyed (e.outcome scheme host s.stamps).stamps := by
  unfold TimedEvent.outcome
  split
  · next msg hevent =>
    have hresponse : ∀ r, Keyed (parseResponse scheme host e.clock r s.stamps).stamps := by
      intro r
      by_cases hok : (parseResponse scheme host e.clock r s.stamps).ok = true
      · obtain ⟨-, entry, -, -, hout⟩ := parseResponse_ok hok
        rw [hout]
        exact hkeyed.modifyEntry (addr_validate _ _)
      · rw [parseResponse_fail (Bool.eq_false_iff.2 hok)]
        exact hkeyed
    cases msg with
    | challenge msg =>
      unfold checkAuth
      cases @challengeCase scheme host e.clock e.draw s.stamps msg with
      | dropped hstamps _ =>
        rw [hstamps]
        exact hkeyed
      | unsigned _ hnone _ hstamps _ =>
        rw [hstamps]
        exact hkeyed.cons hnone
      | created _ hnone hstamps _ =>
        rw [hstamps]
        exact hkeyed.cons hnone
      | reopened _ _ _ _ _ hstamps _ =>
        rw [hstamps]
        exact hkeyed.modifyEntry fun _ => rfl
    | cres msg =>
      unfold checkAuth parseCres
      simp only
      split
      · exact hresponse _
      · exact hresponse _
    | rres msg => exact hresponse _
  · next originator tstamp hevent =>
    unfold checkTimestamp
    cases hentry : lookupTimestampEntry originator s.stamps with
    | none => exact hkeyed.cons hentry
    | some entry =>
      simp only
      split
      · exact hkeyed
      · split
        · exact hkeyed
        · exact hkeyed.modifyEntry (addr_adapt _ _)
  · exact hkeyed.sublist (List.Sublist.map _ List.filter_sublist)

/-- What holds in any run: the time stamps of validated entries are those of their last packets. -/
structure WatchWf (s : Watch) : Prop where
  keyed : Keyed s.stamps
  polled : s.lastPoll ≤ s.time
  validated : ∀ x ∈ s.stamps, ∀ accepted, s.phase x.addr = .validated accepted →
    accepted ≤ s.time ∧ x.valtime = BitVec.ofNat 32 (accepted + timestampHold)

/-- What holds in addition when expired values are found: half-open entries are closing, and have not been polled. -/
def HalfOpenWf (gap : Nat) (s : Watch) : Prop :=
  ∀ x ∈ s.stamps, ∀ since, s.phase x.addr = .halfOpen since → Closing gap since x ∧ s.lastPoll < since + exchangeHold

theorem lastPollAfter_le {lastPoll : Nat} (h : lastPoll ≤ e.time) : e.lastPollAfter lastPoll ≤ e.time := by
  unfold TimedEvent.lastPollAfter
  split
  · exact le_refl _
  · exact h

theorem valtime_eq (e : TimedEvent) :
    olsrGetTimestamp e.clock.nowTimes timestampHoldTime = BitVec.ofNat 32 (e.time + timestampHold) :=
  (BitVec.ofNat_add e.time 30000).symm

theorem WatchWf.step {s' : Watch} (h : WatchWf s) (htime : s.time ≤ e.time)
    (hstep : s.step scheme host e = some s') : WatchWf s' := by
  obtain rfl := Option.some.inj hstep
  have hpolled := h.polled
  refine ⟨keyed_outcome h.keyed, ?_, fun x hx accepted hphase => ?_⟩
  · exact lastPollAfter_le (by omega)
  · simp only at hx hphase ⊢
    cases change_of_mem (show 0 < 2147483648 by decide) h.keyed hx with
    | same hmem hsame =>
      rw [hsame] at hphase
      obtain ⟨hle, hvaltime⟩ := h.validated x hmem accepted hphase
      exact ⟨by omega, hvaltime⟩
    | opened hopened _ =>
      rw [hopened] at hphase
      cases hphase
    | validated hvalidated hvaltime =>
      rw [hvalidated] at hphase
      obtain rfl := Phase.validated.inj hphase
      exact ⟨le_refl _, hvaltime.trans (valtime_eq e)⟩
    | adapted x₀ _ _ _ hadapted hvaltime =>
      rw [hadapted] at hphase
      cases hold : s.phase x.addr with
      | halfOpen since =>
        rw [hold] at hphase
        cases hphase
      | validated _ =>
        rw [hold] at hphase
        obtain rfl := Phase.validated.inj hphase
        exact ⟨le_refl _, hvaltime.trans (valtime_eq e)⟩

/-- A poll within the hold time leaves a validated entry. -/
theorem WatchWf.kept (h : WatchWf s) : ValidatedKept s := by
  intro e htime x hx accepted hphase hlt
  obtain ⟨hle, hvaltime⟩ := h.validated x hx accepted hphase
  unfold timestampHold at hlt hvaltime
  have hlater : olsrIsTimedOut e.clock.nowTimes x.valtime = false := by
    refine Bool.eq_false_iff.2 fun htimeout => ?_
    have hexpires : Expires e.time x.valtime (accepted + 30000) := ⟨hvaltime, by omega, by omega⟩
    have hdue := (olsrIsTimedOut_iff hexpires).1 htimeout
    omega
  refine List.mem_filter.2 ⟨hx, ?_⟩
  rw [hlater, Bool.false_and, Bool.not_false]

theorem HalfOpenWf.removed (h : HalfOpenWf gap s) : HalfOpenRemoved gap s := by
  intro e htime hpolled x hx since hphase hdue hmem
  obtain ⟨hclosing, hlast⟩ := h x hx since hphase
  unfold Polled at hpolled
  have htest := (List.mem_filter.1 hmem).2
  rw [TimedEvent.clock, hclosing.valtime e.time hdue (by omega), hclosing.conftime e.time hdue (by omega)] at htest
  cases htest

theorem HalfOpenWf.step {s' : Watch} (hgap : gap < 2147483648) (hwf : WatchWf s) (h : HalfOpenWf gap s)
    (htime : s.time ≤ e.time)
    (hpoll : Polled gap s e) (hfinds : FindsExpired gap scheme host s e) (hstep : s.step scheme host e = some s') :
    HalfOpenWf gap s' := by
  obtain rfl := Option.some.inj hstep
  intro x hx since hphase
  have hpolled := hwf.polled
  -- a poll that was due would have removed the entry
  have hlast : ∀ since, x ∈ s.stamps → s.phase x.addr = .halfOpen since →
      e.lastPollAfter s.lastPoll < since + exchangeHold := by
    intro since hmem hold
    unfold TimedEvent.lastPollAfter
    split
    · next hevent =>
      by_contra hdue
      simp only [TimedEvent.outcome, hevent] at hx
      exact h.removed e htime hpoll x hmem since hold (by omega) hx
    · exact (h x hmem since hold).2
  simp only at hx hphase ⊢
  cases change_of_mem hgap hwf.keyed hx with
  | same hmem hsame =>
    rw [hsame] at hphase
    exact ⟨(h x hmem since hphase).1, hlast since hmem hphase⟩
  | opened hopened hclosing =>
    rw [hopened] at hphase
    obtain rfl := Phase.halfOpen.inj hphase
    have hle : e.lastPollAfter s.lastPoll ≤ e.time := lastPollAfter_le (by omega)
    refine ⟨hclosing hfinds, ?_⟩
    unfold exchangeHold
    omega
  | validated hvalidated _ =>
    rw [hvalidated] at hphase
    cases hphase
  | adapted x₀ hmem haddr hset hadapted _ =>
    rw [hadapted] at hphase
    cases hold : s.phase x.addr with
    | halfOpen since' =>
      rw [← haddr] at hold
      exact absurd (h x₀ hmem since' hold).1.notValidated hset
    | validated _ =>
      rw [hold] at hphase
      cases hphase

/-- The runs of a node whose steps meet `ok` -/
def Watched (scheme : Scheme) (host : Host) (ok : Watch → TimedEvent → Prop) : Watch → Prop :=
  Run.Reaches Watch.Start (fun s e => s.time ≤ e.time ∧ ok s e) (Watch.step scheme host)

theorem WatchWf.start (h : s.Start) : WatchWf s := by
  obtain ⟨hpoll, hnil⟩ := h
  refine ⟨?_, hpoll.le, fun x hx => ?_⟩
  · rw [hnil]
    exact List.nodup_nil
  · rw [hnil] at hx
    cases hx

/-- Validated entries stay for their time in any run, and half-open exchanges are gone after theirs in the runs with
polls where expired values are found in what is made or reset. -/
theorem watched_expiry (scheme : Scheme) (host : Host) (hgap : gap < 2147483648) (s : Watch) :
    (Watched scheme host (fun _ _ => True) s → ValidatedKept s) ∧
      (Watched scheme host (fun s e => Polled gap s e ∧ FindsExpired gap scheme host s e) s →
        HalfOpenRemoved gap s ∧ ValidatedKept s) := by
  constructor
  · intro h
    refine (Run.Reaches.invariant (P := WatchWf) (fun s => WatchWf.start) ?_ h).kept
    exact fun s e s' hwf hok hstep => hwf.step hok.1 hstep
  · intro h
    obtain ⟨hwf, hhalf⟩ : WatchWf s ∧ HalfOpenWf gap s := by
      refine Run.Reaches.invariant (P := fun s => WatchWf s ∧ HalfOpenWf gap s) ?_ ?_ h
      · refine fun s hstart => ⟨WatchWf.start hstart, fun x hx => ?_⟩
        rw [hstart.2] at hx
        cases hx
      · rintro s e s' ⟨hwf, hhalf⟩ ⟨htime, hpolled, hfinds⟩ hstep
        exact ⟨hwf.step htime hstep, hhalf.step hgap hwf htime hpolled hfinds hstep⟩
    exact ⟨hhalf.removed, hwf.kept⟩

def openHost : Host := ⟨[10, 0, 0, 1], [[10, 0, 0, 1]]⟩

/-- What is drawn, with this `valtime` in the memory of a new entry -/
def drawValtime (valtime : BitVec 32) : Draw := ⟨0, 0, 0, ⟨[], 0, 0, 0, valtime, 0⟩, []⟩

/-- A packet from a node without an entry, at the start -/
def strangerPacket (valtime : BitVec 32) : TimedEvent := ⟨0, 0, drawValtime valtime, .packet [10, 0, 0, 2] 0⟩

def pollAt (time : Nat) : TimedEvent := ⟨time, 0, drawValtime 0, .poll⟩

/-- New memory has a `valtime` to come, and the entry outlasts the exchange. -/
theorem watched_not_removed : ∃ s, Watched pairScheme openHost (fun s e => Polled 2000 s e) s ∧
    ¬HalfOpenRemoved 2000 s := by
  have h₀ : Watched pairScheme openHost (fun s e => Polled 2000 s e) ⟨0, 0, [], fun _ => .halfOpen 0⟩ :=
    .init ⟨rfl, rfl⟩
  have h₁ := h₀.step (strangerPacket 60000) ⟨by decide, by unfold Polled; decide⟩ rfl
  have h₂ := h₁.step (pollAt 2000) ⟨by decide, by unfold Polled; decide⟩ rfl
  have h₃ := h₂.step (pollAt 4000) ⟨by decide, by unfold Polled; decide⟩ rfl
  refine ⟨_, h₃, fun h => ?_⟩
  refine absurd (h (pollAt 5000) (by decide) (by unfold Polled; decide) ⟨[10, 0, 0, 2], 0, 0, 0, 60000, 5000⟩
    ?_ 0 ?_ ?_) ?_
  · decide
  · decide
  · decide
  · decide

/-- New memory has a `valtime` that is over with the exchange. -/
theorem watched_expiry_stranger : ∃ s, Watched pairScheme openHost
      (fun s e => Polled 2000 s e ∧ FindsExpired 2000 pairScheme openHost s e) s ∧
    s.stamps ≠ [] ∧ HalfOpenRemoved 2000 s ∧ ValidatedKept s := by
  have h₀ : Watched pairScheme openHost (fun s e => Polled 2000 s e ∧ FindsExpired 2000 pairScheme openHost s e)
      ⟨0, 0, [], fun _ => .halfOpen 0⟩ := .init ⟨rfl, rfl⟩
  have h₁ := h₀.step (strangerPacket 5000)
    ⟨by decide, by unfold Polled; decide, fun _ => over_exchangeHoldTime (by decide) 0⟩ rfl
  exact ⟨_, h₁, by decide, (watched_expiry pairScheme openHost (by decide) _).2 h₁⟩

end Olsrd.Secure
