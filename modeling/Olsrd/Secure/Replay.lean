/-
Handshake messages that a node processes for a second time: a response never counts again, and a challenge only once
the configuration time of the entry has run out.
-/
import Olsrd.Secure.Freshness

namespace Olsrd.Secure

open Timers (olsrGetTimestamp olsrIsTimedOut)

/-! ## Responses are used up -/

section

variable {scheme : Scheme} {ifAddrs : IpAddr → List IpAddr} {s : Net} {a : Action}

/-- A response in flight answers a challenge that was drawn before. -/
theorem NetInv.provenance (h : NetInv scheme s) {msg : Msg} {r : Response} (hmsg : Net.InFlight s.history msg)
    (hr : msg.response scheme.platform = some r) :
    ∃ c dest, r.resSig = scheme.answer c dest ∧ c ≠ 0 ∧ ∃ o ∈ s.history, c ∈ drawn o.sent := by
  obtain ⟨o, ho, hsent⟩ := hmsg
  obtain ⟨later, earlier, hsplit, hok⟩ := h.sound.of_mem ho
  obtain ⟨msg', dest, c, hreceived, hcarried, hanswer⟩ := (hok.sends msg hsent).answers r hr
  have hearlier : ∀ o' ∈ earlier, o' ∈ s.history := fun o' ho' => by
    rw [hsplit]
    exact List.mem_append_right _ (List.mem_cons_of_mem _ ho')
  obtain ⟨o', ho', hsent'⟩ := hok.received msg' hreceived
  exact ⟨c, dest, hanswer, h.sound.carried ⟨o', hearlier o' ho', hsent'⟩ hcarried, o', hearlier o' ho',
    mem_drawn hsent' hcarried⟩

/-- No response that a node has processed answers the challenge its entry holds. -/
def Spent (scheme : Scheme) (ifAddrs : IpAddr → List IpAddr) (s : Net) : Prop :=
  ∀ o ∈ s.history, ∀ msg r, o.received = some msg → msg.response scheme.platform = some r →
    r.destination ∈ ifAddrs o.node → ∀ e ∈ s.stamps o.node, e.addr = r.originator →
      r.resSig ≠ scheme.answer e.challenge r.originator

/-- What a response answers that is for this node, is signed and is held against the challenge of the entry. -/
theorem parseResponse_of_answer (host : Host) {clock : Clock} {stamps : List Stamp} {r : Response} {e : Stamp}
    (hdest : r.destination ∈ host.ifAddrs) (hsigned : scheme.sign r.covered = r.signature)
    (hentry : lookupTimestampEntry r.originator stamps = some e)
    (hanswer : r.resSig = scheme.answer e.challenge r.originator) :
    parseResponse scheme host clock r stamps =
    ⟨modifyEntry r.originator (validate clock r.timestamp) stamps, [], true⟩ := by
  unfold parseResponse
  rw [if_neg (not_not.2 hdest), if_neg (not_not.2 hsigned)]
  simp only [hentry]
  exact if_neg (not_not.2 hanswer)

theorem checkAuth_stamps_of_response {host : Host} {clock : Clock} {draw : Draw} {stamps : List Stamp} {msg : Msg}
    {r : Response} (hr : msg.response scheme.platform = some r) :
    (checkAuth scheme host clock draw msg stamps).stamps = (parseResponse scheme host clock r stamps).stamps := by
  cases msg with
  | challenge msg => cases hr
  | cres msg =>
    obtain rfl := Option.some.inj hr
    unfold checkAuth parseCres
    simp only
    split <;> rfl
  | rres msg =>
    obtain rfl := Option.some.inj hr
    rfl

theorem signed_response {msg : Msg} {r : Response} (hsigned : msg.Signed scheme)
    (hr : msg.response scheme.platform = some r) : scheme.sign r.covered = r.signature := by
  cases msg with
  | challenge msg => cases hr
  | cres msg => obtain rfl := Option.some.inj hr; exact hsigned
  | rres msg => obtain rfl := Option.some.inj hr; exact hsigned

/-- The entry that a response was held against does not keep the challenge the response answers. -/
theorem spent_received (hinv : NetInv scheme s) (hallowed : Allowed scheme ifAddrs s a) {msg : Msg} {r : Response}
    (hmsg : a.received = some msg) (hr : msg.response scheme.platform = some r) (hdest : r.destination ∈ ifAddrs a.node)
    {e : Stamp} (he : e ∈ (a.outcome scheme ifAddrs (s.stamps a.node)).stamps) (haddr : e.addr = r.originator)
    {e₀ : Stamp} (he₀ : e₀ ∈ s.stamps a.node) (haddr₀ : e₀.addr = e.addr) (hsame : e₀.challenge = e.challenge)
    (hanswer : r.resSig = scheme.answer e.challenge r.originator) : e.challenge = 0 := by
  have hsigned := signed_response (hinv.signed (hallowed.inFlight msg hmsg)) hr
  have hentry := lookup_of_mem (hinv.keyed a.node) he₀
  rw [haddr₀, haddr] at hentry
  cases a with
  | deliver node m clock draw =>
    obtain rfl := Option.some.inj hmsg
    rw [Action.outcome, checkAuth_stamps_of_response hr] at he
    rw [parseResponse_of_answer ⟨node, ifAddrs node⟩ hdest hsigned hentry (hsame ▸ hanswer)] at he
    rcases mem_modifyEntry_of_keyed (hinv.keyed node) he with ⟨-, hne⟩ | ⟨entry, -, rfl⟩
    · exact absurd haddr hne
    · rfl
  | packet node originator tstamp clock draw => cases hmsg
  | timeout node clock => cases hmsg

theorem Spent.step (hsum : Function.Injective scheme.checksum) (hinv : NetInv scheme s) (h : Spent scheme ifAddrs s)
    (hallowed : Allowed scheme ifAddrs s a) : Spent scheme ifAddrs (s.step scheme ifAddrs a) := by
  intro o ho msg r hmsg hr hdest e he haddr hanswer
  rcases List.mem_cons.1 ho with rfl | hold
  · -- the step itself processed the response
    simp only [Net.step, Function.update_self] at he
    obtain ⟨c, dest, hdigest, hzero, o', ho', hdrawn⟩ := hinv.provenance (hallowed.inFlight msg hmsg) hr
    obtain ⟨rfl, rfl⟩ := Scheme.answer_inj hsum (hdigest.symm.trans hanswer)
    cases (hinv.spec hallowed).kept e he with
    | drawn msg' hmsg' hcarried => exact (hallowed.fresh _ (mem_drawn hmsg' hcarried)).2 o' ho' hdrawn
    | cleared hcleared _ => exact hzero hcleared
    | same e₀ he₀ haddr₀ hsame _ =>
      exact hzero (spent_received hinv hallowed hmsg hr hdest he haddr he₀ haddr₀ hsame hanswer)
  · by_cases hnode : o.node = a.node
    · rw [hnode] at he
      simp only [Net.step, Function.update_self] at he
      obtain ⟨later, earlier, hsplit, hok⟩ := hinv.sound.of_mem hold
      have hflight : Net.InFlight s.history msg := by
        rw [hsplit, List.append_cons]
        exact (hok.received msg hmsg).append
      obtain ⟨c, dest, hdigest, hzero, o', ho', hdrawn⟩ := hinv.provenance hflight hr
      cases (hinv.spec hallowed).kept e he with
      | drawn msg' hmsg' hcarried =>
        obtain ⟨rfl, rfl⟩ := Scheme.answer_inj hsum (hdigest.symm.trans hanswer)
        exact (hallowed.fresh _ (mem_drawn hmsg' hcarried)).2 o' ho' hdrawn
      | cleared hcleared _ =>
        obtain ⟨rfl, rfl⟩ := Scheme.answer_inj hsum (hdigest.symm.trans hanswer)
        exact hzero hcleared
      | same e₀ he₀ haddr₀ hsame _ =>
        rw [← hnode] at he₀
        exact h o hold msg r hmsg hr hdest e₀ he₀ (haddr₀.trans haddr) (hsame ▸ hanswer)
    · simp only [Net.step, Function.update_of_ne hnode] at he
      exact h o hold msg r hmsg hr hdest e he haddr hanswer

theorem reachable_spent (hsum : Function.Injective scheme.checksum) (h : Net.Reachable scheme ifAddrs s) :
    NetInv scheme s ∧ Spent scheme ifAddrs s := by
  refine Run.Reaches.invariant (P := fun s => NetInv scheme s ∧ Spent scheme ifAddrs s) ?_ ?_ h
  · rintro s rfl
    exact ⟨reachable_netInv (show Net.Reachable scheme ifAddrs _ from .init rfl), fun o ho => by cases ho⟩
  · intro s a s' ⟨hinv, hspent⟩ hallowed hstep
    obtain rfl := Option.some.inj hstep
    exact ⟨hinv.step hallowed, hspent.step hsum hinv hallowed⟩

end

/-! ## Messages processed again -/

/-- A challenge for this node from a peer whose configuration time has run out. -/
def Reopens (host : Host) (clock : Clock) (msg : Msg) (peer : IpAddr) (entry : Stamp) : Prop :=
  ∃ m, msg = .challenge m ∧ m.originator = peer ∧ m.destination ∈ host.ifAddrs ∧
    olsrIsTimedOut clock.nowTimes entry.conftime = true

section

variable {scheme : Scheme} {host : Host} {clock : Clock} {draw : Draw} {stamps : List Stamp}

theorem lookup_acceptChallenge {msg : ChallengeMsg} (hsigned : (Msg.challenge msg).Signed scheme) (peer : IpAddr) :
    lookupTimestampEntry peer (acceptChallenge scheme host clock draw msg stamps).stamps =
      if peer = msg.originator then
        (lookupTimestampEntry peer stamps).map (setChallenge draw.challenge ∘ reset clock)
      else lookupTimestampEntry peer stamps := by
  have hsum : scheme.sign msg.covered = msg.signature := hsigned
  unfold acceptChallenge
  rw [if_neg (not_not.2 hsum)]
  simp only [sendCres]
  rw [lookup_modifyEntry (addr_setChallenge _), lookup_modifyEntry (addr_reset clock)]
  split
  · exact Option.map_map ..
  · rfl

/-- A signed challenge resets the entry of its sender if that is what it is for, and no other. -/
theorem lookup_parseChallenge {msg : ChallengeMsg} (hsigned : (Msg.challenge msg).Signed scheme) {peer : IpAddr}
    {e : Stamp} (he : lookupTimestampEntry peer stamps = some e) :
    ∃ e', lookupTimestampEntry peer (parseChallenge scheme host clock draw msg stamps).stamps = some e' ∧
      (Reopens host clock (.challenge msg) peer e → e'.validated = 0 ∧ e'.diff = 0) ∧
      (¬Reopens host clock (.challenge msg) peer e → e'.validated = e.validated ∧ e'.diff = e.diff) := by
  unfold parseChallenge
  by_cases hdest : msg.destination ∈ host.ifAddrs
  · rw [if_neg (not_not.2 hdest)]
    cases hentry : lookupTimestampEntry msg.originator stamps with
    | none =>
      have hne : peer ≠ msg.originator := fun heq => by
        rw [← heq, he] at hentry
        cases hentry
      simp only [lookup_acceptChallenge hsigned, if_neg hne, lookup_cons, if_neg (Ne.symm hne)]
      refine ⟨e, he, ?_, fun _ => ⟨rfl, rfl⟩⟩
      rintro ⟨m, hm, horigin, -⟩
      obtain rfl := Msg.challenge.inj hm
      exact absurd horigin.symm hne
    | some entry =>
      simp only
      by_cases hout : olsrIsTimedOut clock.nowTimes entry.conftime = true
      · rw [if_neg (by simp [hout])]
        simp only [lookup_acceptChallenge hsigned]
        by_cases hpeer : peer = msg.originator
        · subst hpeer
          obtain rfl := Option.some.inj (hentry.symm.trans he)
          rw [if_pos rfl, he]
          exact ⟨_, rfl, fun _ => ⟨rfl, rfl⟩, fun hnot => absurd ⟨msg, rfl, rfl, hdest, hout⟩ hnot⟩
        · rw [if_neg hpeer]
          refine ⟨e, he, ?_, fun _ => ⟨rfl, rfl⟩⟩
          rintro ⟨m, hm, horigin, -⟩
          obtain rfl := Msg.challenge.inj hm
          exact absurd horigin.symm hpeer
      · rw [if_pos (by simp [hout])]
        refine ⟨e, he, ?_, fun _ => ⟨rfl, rfl⟩⟩
        rintro ⟨m, hm, horigin, -, hout'⟩
        obtain rfl := Msg.challenge.inj hm
        rw [← horigin, hentry] at he
        exact absurd (Option.some.inj he ▸ hout') hout
  · rw [if_pos hdest]
    refine ⟨e, he, ?_, fun _ => ⟨rfl, rfl⟩⟩
    rintro ⟨m, hm, -, hdest', -⟩
    obtain rfl := Msg.challenge.inj hm
    exact absurd hdest' hdest

end

/-- A message that a node processes again leaves the flag and the difference of every entry alone, but for the entry
of a peer whose challenge is played again after the configuration time: this one is reset. A response changes
nothing. -/
theorem replay_keeps_validated {scheme : Scheme} {ifAddrs : IpAddr → List IpAddr} {s : Net}
    (hsum : Function.Injective scheme.checksum) (h : Net.Reachable scheme ifAddrs s) {o : Occurrence}
    (ho : o ∈ s.history)
    {msg : Msg} (hmsg : o.received = some msg) (clock : Clock) (draw : Draw) :
    (∀ r, msg.response scheme.platform = some r →
      (checkAuth scheme ⟨o.node, ifAddrs o.node⟩ clock draw msg (s.stamps o.node)).stamps = s.stamps o.node) ∧
    ∀ peer e, lookupTimestampEntry peer (s.stamps o.node) = some e → ∃ e', lookupTimestampEntry peer
        (checkAuth scheme ⟨o.node, ifAddrs o.node⟩ clock draw msg (s.stamps o.node)).stamps = some e' ∧
      (Reopens ⟨o.node, ifAddrs o.node⟩ clock msg peer e → e'.validated = 0 ∧ e'.diff = 0) ∧
      (¬Reopens ⟨o.node, ifAddrs o.node⟩ clock msg peer e → e'.validated = e.validated ∧ e'.diff = e.diff) := by
  obtain ⟨hinv, hspent⟩ := reachable_spent hsum h
  have hsigned : msg.Signed scheme := by
    obtain ⟨later, earlier, hsplit, hok⟩ := hinv.sound.of_mem ho
    refine hinv.signed ?_
    rw [hsplit, List.append_cons]
    exact (hok.received msg hmsg).append
  have hresponse : ∀ r, msg.response scheme.platform = some r →
      (checkAuth scheme ⟨o.node, ifAddrs o.node⟩ clock draw msg (s.stamps o.node)).stamps = s.stamps o.node := by
    intro r hr
    have hfail : (parseResponse scheme ⟨o.node, ifAddrs o.node⟩ clock r (s.stamps o.node)).ok = false := by
      by_contra hok
      obtain ⟨hdest, entry, hentry, hanswer, -⟩ := parseResponse_ok (by simpa using hok)
      exact hspent o ho msg r hmsg hr hdest entry (mem_of_lookup hentry) (addr_of_lookup hentry) hanswer
    rw [checkAuth_stamps_of_response hr, parseResponse_fail hfail]
    rfl
  refine ⟨hresponse, fun peer e he => ?_⟩
  cases hr : msg.response scheme.platform with
  | none =>
    cases msg with
    | challenge msg => exact lookup_parseChallenge hsigned he
    | cres msg => cases hr
    | rres msg => cases hr
  | some r =>
    rw [hresponse r hr]
    refine ⟨e, he, ?_, fun _ => ⟨rfl, rfl⟩⟩
    rintro ⟨m, rfl, -⟩
    cases hr

/-! ## An old challenge -/

/-- The two nodes of the handshake after 10.0.0.1 has validated 10.0.0.2, too: the challenge that 10.0.0.1 has
processed is `msg`. -/
theorem pairValidated : ∃ s o msg e, Net.Reachable pairScheme pairAddrs s ∧ o ∈ s.history ∧ o.node = [10, 0, 0, 1] ∧
    o.received = some msg ∧ lookupTimestampEntry [10, 0, 0, 2] (s.stamps o.node) = some e ∧ e.validated = 1 ∧
      olsrIsTimedOut 1000 e.conftime = false ∧
      (lookupTimestampEntry [10, 0, 0, 2] (checkAuth pairScheme ⟨o.node, pairAddrs o.node⟩ ⟨1006, 6000⟩ (pairDraw 7) msg
        (s.stamps o.node)).stamps).map Stamp.validated = some 0 := by
  have hrun : ((pairRun (pairHandshake ++ [fun s => s.deliverLast [10, 0, 0, 1] ⟨1000, 0⟩ 0]) ⟨fun _ => [], []⟩).any
    fun s =>
      s.history.any fun o => o.node == [10, 0, 0, 1] && o.received.any fun msg =>
        (lookupTimestampEntry [10, 0, 0, 2] (s.stamps o.node)).any fun e => e.validated == 1 &&
          !olsrIsTimedOut 1000 e.conftime &&
          (lookupTimestampEntry [10, 0, 0, 2]
            (checkAuth pairScheme ⟨o.node, pairAddrs o.node⟩ ⟨1006, 6000⟩ (pairDraw 7) msg
            (s.stamps o.node)).stamps).map Stamp.validated == some 0) = true := by decide +kernel
  obtain ⟨s, hs, hrun⟩ := (Option.any_eq_true _ _).1 hrun
  obtain ⟨o, ho, hrun⟩ := List.any_eq_true.1 hrun
  obtain ⟨hnode, hrun⟩ := Bool.and_eq_true_iff.1 hrun
  obtain ⟨msg, hmsg, hrun⟩ := (Option.any_eq_true _ _).1 hrun
  obtain ⟨e, he, hrun⟩ := (Option.any_eq_true _ _).1 hrun
  obtain ⟨hflags, hreset⟩ := Bool.and_eq_true_iff.1 hrun
  obtain ⟨hvalidated, hrunning⟩ := Bool.and_eq_true_iff.1 hflags
  exact ⟨s, o, msg, e, reachable_pairRun (.init rfl) hs, ho, by simpa using hnode, hmsg, he, by simpa using hvalidated,
    by simpa using hrunning, by simpa using hreset⟩

/-- One second after the handshake, the copy changes nothing. -/
theorem replay_keeps_validated_pair : ∃ s o msg e', Net.Reachable pairScheme pairAddrs s ∧ o ∈ s.history ∧
    o.received = some msg ∧
    lookupTimestampEntry [10, 0, 0, 2] (checkAuth pairScheme ⟨o.node, pairAddrs o.node⟩ ⟨1001, 1000⟩ (pairDraw 7) msg
      (s.stamps o.node)).stamps = some e' ∧ e'.validated = 1 := by
  obtain ⟨s, o, msg, e, hs, ho, -, hmsg, he, hvalidated, hrunning, -⟩ := pairValidated
  obtain ⟨e', he', -, hkept⟩ :=
    (replay_keeps_validated Function.injective_id hs ho hmsg ⟨1001, 1000⟩ (pairDraw 7)).2 [10, 0, 0, 2] e he
  have hclosed : ¬Reopens ⟨o.node, pairAddrs o.node⟩ ⟨1001, 1000⟩ msg [10, 0, 0, 2] e := by
    rintro ⟨m, -, -, -, hout⟩
    rw [hrunning] at hout
    cases hout
  exact ⟨s, o, msg, e', hs, ho, hmsg, he', (hkept hclosed).1.trans hvalidated⟩

/-- Six seconds after the handshake, a copy of the challenge that began it takes the `validated` flag away. -/
theorem replayed_challenge_resets :
    ¬∀ (scheme : Scheme) (ifAddrs : IpAddr → List IpAddr) (s : Net), Function.Injective scheme.checksum →
      Net.Reachable scheme ifAddrs s → ∀ o ∈ s.history, ∀ msg, o.received = some msg → ∀ clock draw peer e,
        lookupTimestampEntry peer (s.stamps o.node) = some e →
          (lookupTimestampEntry peer
            (checkAuth scheme ⟨o.node, ifAddrs o.node⟩ clock draw msg (s.stamps o.node)).stamps).map Stamp.validated =
              some e.validated := by
  intro hclaim
  obtain ⟨s, o, msg, e, hs, ho, -, hmsg, he, hvalidated, -, hreset⟩ := pairValidated
  rw [hclaim pairScheme pairAddrs s Function.injective_id hs o ho msg hmsg ⟨1006, 6000⟩ (pairDraw 7) _ e he,
    hvalidated] at hreset
  exact absurd hreset (by decide)

end Olsrd.Secure
