/-
Freshness of the handshake: when a node marks a peer as validated, the peer has received the challenge that the node
last drew for it, and has made the response the node accepts after that.
-/
import Olsrd.Secure.Network

namespace Olsrd.Secure

/-! ## The record -/

/-- The step drew the challenge `c` at `node` for `dest`. -/
def Occurrence.Generates (o : Occurrence) (node dest : IpAddr) (c : BitVec 32) : Prop :=
  o.node = node ∧ ∃ msg ∈ o.sent, msg.carried = some (dest, c)

/-- What a step on record may be, after the steps before it. -/
structure OccurrenceOk (scheme : Scheme) (o : Occurrence) (earlier : List Occurrence) : Prop where
  received : ∀ msg, o.received = some msg → Net.InFlight earlier msg
  sends : ∀ msg ∈ o.sent, Sends scheme o.node o.received msg
  fresh : ∀ c ∈ drawn o.sent, c ≠ 0 ∧ ∀ o' ∈ earlier, c ∉ drawn o'.sent

def Sound (scheme : Scheme) : List Occurrence → Prop
  | [] => True
  | o :: earlier => OccurrenceOk scheme o earlier ∧ Sound scheme earlier

/-- `c` is the last challenge that `node` drew for `dest`; `later` are the steps since then. -/
structure LastGenerated (history : List Occurrence) (node dest : IpAddr) (c : BitVec 32) (later : List Occurrence)
    (o : Occurrence) (earlier : List Occurrence) : Prop where
  split : history = later ++ o :: earlier
  generates : o.Generates node dest c
  last : ∀ o' ∈ later, ∀ c', ¬o'.Generates node dest c'

section Record

variable {scheme : Scheme} {history later earlier : List Occurrence} {o : Occurrence} {msg : Msg} {node dest : IpAddr}
  {c : BitVec 32}

theorem Net.InFlight.append (h : Net.InFlight earlier msg) : Net.InFlight (later ++ earlier) msg := by
  obtain ⟨o, ho, hmsg⟩ := h
  exact ⟨o, List.mem_append_right _ ho, hmsg⟩

theorem Sound.of_split (h : Sound scheme history) (hsplit : history = later ++ o :: earlier) :
    OccurrenceOk scheme o earlier := by
  subst hsplit
  induction later with
  | nil => exact h.1
  | cons o' later ih => exact ih h.2

theorem Sound.of_mem (h : Sound scheme history) (ho : o ∈ history) :
    ∃ later earlier, history = later ++ o :: earlier ∧ OccurrenceOk scheme o earlier := by
  obtain ⟨later, earlier, hsplit⟩ := List.append_of_mem ho
  exact ⟨later, earlier, hsplit, h.of_split hsplit⟩

/-- What a message in flight carries was drawn by a step on record. -/
theorem Sound.carried (h : Sound scheme history) (hmsg : Net.InFlight history msg)
    (hcarried : msg.carried = some (dest, c)) : c ≠ 0 := by
  obtain ⟨o, ho, hsent⟩ := hmsg
  obtain ⟨later, earlier, -, hok⟩ := h.of_mem ho
  exact (hok.fresh c (mem_drawn hsent hcarried)).1

theorem LastGenerated.cons (h : LastGenerated history node dest c later o earlier) {o' : Occurrence}
    (hnot : ∀ c', ¬o'.Generates node dest c') : LastGenerated (o' :: history) node dest c (o' :: later) o earlier := by
  refine ⟨by rw [h.split, List.cons_append], h.generates, fun o₁ ho₁ => ?_⟩
  rcases List.mem_cons.1 ho₁ with rfl | ho₁
  · exact hnot
  · exact h.last o₁ ho₁

/-- A step that received the last challenge came after the step that drew it. -/
theorem LastGenerated.received_later (h : LastGenerated history node dest c later o earlier)
    (hsound : Sound scheme history) {o' : Occurrence} (ho' : o' ∈ history) (hreceived : o'.received = some msg)
    {dest' : IpAddr} (hcarried : msg.carried = some (dest', c)) : o' ∈ later := by
  obtain ⟨m, hm, hdrawn⟩ := h.generates.2
  have hfresh := ((hsound.of_split h.split).fresh c (mem_drawn hm hdrawn)).2
  have hnot : ¬Net.InFlight earlier msg := fun ⟨o₁, ho₁, hsent⟩ => hfresh o₁ ho₁ (mem_drawn hsent hcarried)
  rw [h.split] at ho'
  rcases List.mem_append.1 ho' with ho' | ho'
  · exact ho'
  · refine absurd ?_ hnot
    rcases List.mem_cons.1 ho' with rfl | ho'
    · exact (hsound.of_split h.split).received msg hreceived
    · obtain ⟨between, before, hsplit⟩ := List.append_of_mem ho'
      have hok : OccurrenceOk scheme o' before :=
        hsound.of_split (by rw [h.split, hsplit, ← List.cons_append, ← List.append_assoc])
      rw [hsplit, List.append_cons]
      exact (hok.received msg hreceived).append

end Record

/-! ## The invariant -/

/-- What holds in every state of the network. -/
structure NetInv (scheme : Scheme) (s : Net) : Prop where
  sound : Sound scheme s.history
  keyed : ∀ node, Keyed (s.stamps node)
  /-- A challenge in an entry is the last one drawn for it, or it was cleared. -/
  challenges : ∀ node, ∀ e ∈ s.stamps node,
    e.challenge = 0 ∨ ∃ later o earlier, LastGenerated s.history node e.addr e.challenge later o earlier

section Invariant

variable {scheme : Scheme} {ifAddrs : IpAddr → List IpAddr} {s : Net} {a : Action}

theorem NetInv.signed (h : NetInv scheme s) {msg : Msg} (hmsg : Net.InFlight s.history msg) : msg.Signed scheme := by
  obtain ⟨o, ho, hsent⟩ := hmsg
  obtain ⟨later, earlier, -, hok⟩ := h.sound.of_mem ho
  exact (hok.sends msg hsent).signed

theorem NetInv.spec (h : NetInv scheme s) (hallowed : Allowed scheme ifAddrs s a) :
    StepSpec scheme a.node a.received (s.stamps a.node) (a.outcome scheme ifAddrs (s.stamps a.node)) :=
  stepSpec_outcome (h.keyed a.node) fun msg hmsg => h.signed (hallowed.inFlight msg hmsg)

theorem NetInv.step (h : NetInv scheme s) (hallowed : Allowed scheme ifAddrs s a) :
    NetInv scheme (s.step scheme ifAddrs a) := by
  have hspec := h.spec hallowed
  refine ⟨⟨⟨hallowed.inFlight, hspec.sends, hallowed.fresh⟩, h.sound⟩, fun node => ?_, fun node e he => ?_⟩
  · by_cases hnode : node = a.node
    · subst hnode
      simpa [Net.step] using hspec.keyed
    · simpa [Net.step, hnode] using h.keyed node
  · by_cases hnode : node = a.node
    · subst hnode
      simp only [Net.step, Function.update_self] at he
      cases hspec.kept e he with
      | drawn msg hmsg hcarried => exact .inr ⟨[], _, _, rfl, ⟨rfl, msg, hmsg, hcarried⟩, by simp⟩
      | cleared hzero _ => exact .inl hzero
      | same e₀ he₀ haddr hchallenge hnot =>
        rcases h.challenges a.node e₀ he₀ with hzero | ⟨later, o, earlier, hlast⟩
        · exact .inl (hchallenge ▸ hzero)
        · rw [haddr, hchallenge] at hlast
          exact .inr ⟨_, _, _, hlast.cons fun c' hgen => by
            obtain ⟨-, msg, hmsg, hcarried⟩ := hgen
            exact hnot msg hmsg c' hcarried⟩
    · simp only [Net.step, Function.update_of_ne hnode] at he
      rcases h.challenges node e he with hzero | ⟨later, o, earlier, hlast⟩
      · exact .inl hzero
      · exact .inr ⟨_, _, _, hlast.cons fun c' hgen => hnode hgen.1.symm⟩

theorem reachable_netInv (h : Net.Reachable scheme ifAddrs s) : NetInv scheme s := by
  refine Run.Reaches.invariant (P := NetInv scheme) ?_ ?_ h
  · rintro s rfl
    exact ⟨trivial, fun _ => List.nodup_nil, fun _ e he => by cases he⟩
  · intro s a s' hinv hallowed hstep
    obtain rfl := Option.some.inj hstep
    exact hinv.step hallowed

end Invariant

/-! ## Validation -/

/-- The step accepts the response `msg` of `peer`: it sets the `validated` flag of the entry of `peer` at `node`. -/
structure Action.Validates (scheme : Scheme) (ifAddrs : IpAddr → List IpAddr) (s : Net) (a : Action)
    (node peer : IpAddr) (msg : Msg) : Prop where
  atNode : a.node = node
  received : a.received = some msg
  response : ∃ r, msg.response scheme.platform = some r ∧ r.originator = peer
  ok : (a.outcome scheme ifAddrs (s.stamps node)).ok = true

/-- After the last challenge that `node` drew for `peer`, `peer` made `msg` from a message with this challenge. -/
def FreshAnswer (history : List Occurrence) (node peer : IpAddr) (msg : Msg) : Prop :=
  ∃ c later o earlier, LastGenerated history node peer c later o earlier ∧
    ∃ o' ∈ later, o'.node = peer ∧ msg ∈ o'.sent ∧ ∃ msg', o'.received = some msg' ∧ msg'.carried = some (peer, c)

section Freshness

variable {scheme : Scheme} {ifAddrs : IpAddr → List IpAddr} {s : Net} {a : Action}

/-- A response that is accepted answers the challenge of the entry. -/
theorem Action.Validates.answer {node peer : IpAddr} {msg : Msg} (h : a.Validates scheme ifAddrs s node peer msg) :
    ∃ r e, msg.response scheme.platform = some r ∧ r.originator = peer ∧
      lookupTimestampEntry peer (s.stamps node) = some e ∧ r.resSig = scheme.answer e.challenge peer := by
  obtain ⟨r, hr, rfl⟩ := h.response
  have hok := h.ok
  have hreceived := h.received
  cases a with
  | deliver n m clock draw =>
    obtain rfl := Option.some.inj hreceived
    have hparse : (parseResponse scheme ⟨n, ifAddrs n⟩ clock r (s.stamps node)).ok = true := by
      cases m with
      | challenge m => cases hr
      | cres m =>
        obtain rfl := Option.some.inj hr
        simp only [Action.outcome, checkAuth, parseCres] at hok
        split at hok
        · assumption
        · exact hok
      | rres m =>
        obtain rfl := Option.some.inj hr
        exact hok
    obtain ⟨-, e, he, hanswer, -⟩ := parseResponse_ok hparse
    exact ⟨r, e, hr, rfl, he, hanswer⟩
  | packet n originator tstamp clock draw => cases hreceived
  | timeout n clock => cases hreceived

theorem originator_response {platform : Platform} {msg : Msg} {r : Response} (h : msg.response platform = some r) :
    r.originator = msg.originator := by
  cases msg with
  | challenge msg => cases h
  | cres msg => obtain rfl := Option.some.inj h; rfl
  | rres msg => obtain rfl := Option.some.inj h; rfl

/-- In every state, a response that a node accepts is fresh, and only such a response validates an entry. -/
theorem reachable_validates_fresh (hsum : Function.Injective scheme.checksum) (h : Net.Reachable scheme ifAddrs s)
    (hallowed : Allowed scheme ifAddrs s a) :
    (∀ node peer msg, a.Validates scheme ifAddrs s node peer msg → FreshAnswer s.history node peer msg) ∧
      ∀ node peer e, lookupTimestampEntry peer ((s.step scheme ifAddrs a).stamps node) = some e → e.validated ≠ 0 →
        (∃ e₀, lookupTimestampEntry peer (s.stamps node) = some e₀ ∧ e₀.validated = e.validated) ∨
          ∃ msg, a.Validates scheme ifAddrs s node peer msg := by
  have hinv := reachable_netInv h
  constructor
  · intro node peer msg hvalidates
    obtain ⟨r, e, hr, hpeer, he, hanswer⟩ := hvalidates.answer
    obtain ⟨o, ho, hsent⟩ := hallowed.inFlight msg hvalidates.received
    obtain ⟨later, earlier, hsplit, hok⟩ := hinv.sound.of_mem ho
    obtain ⟨msg', dest, c, hreceived, hcarried, hdigest⟩ := (hok.sends msg hsent).answers r hr
    obtain ⟨rfl, rfl⟩ := Scheme.answer_inj hsum (hdigest.symm.trans hanswer)
    have hzero : e.challenge ≠ 0 := by
      refine hinv.sound.carried ?_ hcarried
      rw [hsplit, List.append_cons]
      exact (hok.received msg' hreceived).append
    rcases hinv.challenges node e (mem_of_lookup he) with hcleared | ⟨later', o', earlier', hlast⟩
    · exact absurd hcleared hzero
    · rw [addr_of_lookup he] at hlast
      refine ⟨_, _, _, _, hlast, o, hlast.received_later hinv.sound ho hreceived hcarried, ?_, hsent, msg',
        hreceived, hcarried⟩
      rw [← (hok.sends msg hsent).originator, ← originator_response hr, hpeer]
  · intro node peer e he hset
    by_cases hnode : node = a.node
    · subst hnode
      simp only [Net.step, Function.update_self] at he
      have haddr := addr_of_lookup he
      rcases (hinv.spec hallowed).validated e (mem_of_lookup he) hset with
        ⟨e₀, he₀, haddr₀, hvalidated⟩ | ⟨msg, r, hmsg, hr, horigin, hok⟩
      · refine .inl ⟨e₀, ?_, hvalidated⟩
        rw [← haddr, ← haddr₀]
        exact lookup_of_mem (hinv.keyed _) he₀
      · exact .inr ⟨msg, rfl, hmsg, ⟨r, hr, horigin.trans haddr⟩, hok⟩
    · simp only [Net.step, Function.update_of_ne hnode] at he
      exact .inl ⟨e, he, rfl⟩

end Freshness

/-! ## Two nodes -/

/-- Every node has one interface, with its main address. -/
def pairAddrs (node : IpAddr) : List IpAddr := [node]

def pairDraw (challenge : BitVec 32) : Draw := ⟨0, challenge, 0, ⟨[], 0, 0, 0, 0, 0⟩, [0, 0, 0, 0]⟩

/-- The message that was sent last. -/
def Net.lastSent (s : Net) : Option Msg := (s.history.flatMap Occurrence.sent).head?

/-- The last message goes to `node`. -/
def Net.deliverLast (s : Net) (node : IpAddr) (clock : Clock) (challenge : BitVec 32) : Option Action :=
  s.lastSent.map fun msg => .deliver node msg clock (pairDraw challenge)

/-- A step of the two nodes that the network allows. -/
def Net.pairStep (s : Net) (a : Action) : Option Net :=
  if Allowed pairScheme pairAddrs s a then some (s.step pairScheme pairAddrs a) else none

theorem Net.Reachable.pairStep {s s' : Net} {a : Action} (h : Net.Reachable pairScheme pairAddrs s)
    (hstep : s.pairStep a = some s') : Net.Reachable pairScheme pairAddrs s' := by
  unfold Net.pairStep at hstep
  split at hstep
  · next hallowed => exact Run.Reaches.step a h hallowed hstep
  · cases hstep

/-- Steps chosen by what happened before. -/
def pairRun : List (Net → Option Action) → Net → Option Net
  | [], s => some s
  | next :: rest, s => (next s).bind fun a => (s.pairStep a).bind (pairRun rest)

theorem reachable_pairRun {s' : Net} : ∀ {run : List (Net → Option Action)} {s : Net},
    Net.Reachable pairScheme pairAddrs s → pairRun run s = some s' → Net.Reachable pairScheme pairAddrs s'
  | [], s, h, hrun => Option.some.inj hrun ▸ h
  | next :: rest, s, h, hrun => by
    obtain ⟨a, -, hrun⟩ := Option.bind_eq_some_iff.1 hrun
    obtain ⟨s₁, hstep, hrun⟩ := Option.bind_eq_some_iff.1 hrun
    exact reachable_pairRun (h.pairStep hstep) hrun

/-- 10.0.0.2 gets a packet of 10.0.0.1, challenges it, is challenged in turn, and answers. -/
def pairHandshake : List (Net → Option Action) :=
  [fun _ => some (.packet [10, 0, 0, 2] [10, 0, 0, 1] 1000 ⟨1000, 0⟩ (pairDraw 5)),
    fun s => s.deliverLast [10, 0, 0, 1] ⟨1000, 0⟩ 6,
    fun s => s.deliverLast [10, 0, 0, 2] ⟨1000, 0⟩ 0]

/-- 10.0.0.2 validates 10.0.0.1 by a fresh answer. -/
theorem reachable_validates_fresh_pair :
    ∃ s msg, pairRun (pairHandshake.take 2) ⟨fun _ => [], []⟩ = some s ∧
      FreshAnswer s.history [10, 0, 0, 2] [10, 0, 0, 1] msg := by
  have hrun : ((pairRun (pairHandshake.take 2) ⟨fun _ => [], []⟩).any fun s =>
      s.lastSent.any fun msg =>
        let a := Action.deliver [10, 0, 0, 2] msg ⟨1000, 0⟩ (pairDraw 0)
        decide (Allowed pairScheme pairAddrs s a) &&
          ((msg.response pairScheme.platform).any fun r => r.originator == [10, 0, 0, 1]) &&
            (a.outcome pairScheme pairAddrs (s.stamps [10, 0, 0, 2])).ok) = true := by decide +kernel
  obtain ⟨s, hs, hrun⟩ := (Option.any_eq_true _ _).1 hrun
  obtain ⟨msg, -, hrun⟩ := (Option.any_eq_true _ _).1 hrun
  simp only [Bool.and_eq_true, decide_eq_true_eq] at hrun
  obtain ⟨⟨hallowed, hresponse⟩, hok⟩ := hrun
  obtain ⟨r, hr, hpeer⟩ := (Option.any_eq_true _ _).1 hresponse
  exact ⟨s, msg, hs, (reachable_validates_fresh Function.injective_id (reachable_pairRun (.init rfl) hs) hallowed).1
    _ _ _ ⟨rfl, rfl, ⟨r, hr, by simpa using hpeer⟩, hok⟩⟩

end Olsrd.Secure
