/-
Nodes that share a key and run the handshake of the secure plugin over a network that hands on what was sent: any
message any number of times, late, in any order, to any node, or not at all. A node is known by its main address.
-/
import Olsrd.Lib.Run
import Olsrd.Secure.Traceless
import Mathlib.Logic.Function.Basic

namespace Olsrd.Secure

open Timers (olsrGetTimestamp olsrIsTimedOut)

/-! ## What messages carry -/

/-- The challenge in a message, and for whom it was drawn. -/
def Msg.carried : Msg → Option (IpAddr × BitVec 32)
  | .challenge msg => some (msg.destination, msg.challenge)
  | .cres msg => some (msg.destination, msg.challenge)
  | .rres _ => none

/-- The answer in a message. -/
def Msg.response (platform : Platform) : Msg → Option Response
  | .challenge _ => none
  | .cres msg => some (msg.response platform)
  | .rres msg => some (msg.response platform)

def Msg.originator : Msg → IpAddr
  | .challenge msg => msg.originator
  | .cres msg => msg.originator
  | .rres msg => msg.originator

/-! ## Steps -/

inductive Action where
  | deliver (node : IpAddr) (msg : Msg) (clock : Clock) (draw : Draw)
  /-- a packet with a valid signature of `originator` -/
  | packet (node originator : IpAddr) (tstamp : Int) (clock : Clock) (draw : Draw)
  | timeout (node : IpAddr) (clock : Clock)

def Action.node : Action → IpAddr
  | .deliver node .. => node
  | .packet node .. => node
  | .timeout node _ => node

/-- The handshake message a node processes. -/
def Action.received : Action → Option Msg
  | .deliver _ msg _ _ => some msg
  | _ => none

/-- One step of a node, for the record. -/
structure Occurrence where
  node : IpAddr
  received : Option Msg
  sent : List Msg
  ok : Bool

/-- The tables of the nodes, and what happened so far, the last step first. -/
structure Net where
  stamps : IpAddr → List Stamp
  history : List Occurrence

/-- The network has every message that was sent. -/
def Net.InFlight (history : List Occurrence) (msg : Msg) : Prop := ∃ o ∈ history, msg ∈ o.sent

instance (history : List Occurrence) (msg : Msg) : Decidable (Net.InFlight history msg) :=
  inferInstanceAs (Decidable (∃ o ∈ history, msg ∈ o.sent))

/-- The challenges in messages. -/
def drawn (sent : List Msg) : List (BitVec 32) := sent.filterMap fun msg => msg.carried.map Prod.snd

section Steps

variable (scheme : Scheme) (ifAddrs : IpAddr → List IpAddr)

/-- What a step does at its node. -/
def Action.outcome (stamps : List Stamp) : Action → Outcome
  | .deliver node msg clock draw => checkAuth scheme ⟨node, ifAddrs node⟩ clock draw msg stamps
  | .packet node originator tstamp clock draw =>
    checkTimestamp scheme ⟨node, ifAddrs node⟩ clock draw originator tstamp stamps
  | .timeout _ clock => ⟨timeoutTimestamps clock stamps, [], true⟩

/-- The state after a step, which is put on record. -/
def Net.step (s : Net) (a : Action) : Net :=
  let out := a.outcome scheme ifAddrs (s.stamps a.node)
  ⟨Function.update s.stamps a.node out.stamps, ⟨a.node, a.received, out.sent, out.ok⟩ :: s.history⟩

/-- The network delivers what was sent; challenges are not zero and have not been in use before. -/
structure Allowed (s : Net) (a : Action) : Prop where
  inFlight : ∀ msg ∈ a.received, Net.InFlight s.history msg
  fresh : ∀ c ∈ drawn (a.outcome scheme ifAddrs (s.stamps a.node)).sent,
    c ≠ 0 ∧ ∀ o ∈ s.history, c ∉ drawn o.sent

instance (s : Net) (a : Action) : Decidable (Allowed scheme ifAddrs s a) :=
  -- not by a search through all numbers of 32 bits
  have : Decidable (∀ c ∈ drawn (a.outcome scheme ifAddrs (s.stamps a.node)).sent,
      c ≠ 0 ∧ ∀ o ∈ s.history, c ∉ drawn o.sent) := List.decidableBAll _ _
  decidable_of_iff ((∀ msg ∈ a.received, Net.InFlight s.history msg) ∧
      ∀ c ∈ drawn (a.outcome scheme ifAddrs (s.stamps a.node)).sent, c ≠ 0 ∧ ∀ o ∈ s.history, c ∉ drawn o.sent)
    ⟨fun h => ⟨h.1, h.2⟩, fun h => ⟨h.1, h.2⟩⟩

/-- The states that nodes with empty tables come to. -/
def Net.Reachable : Net → Prop :=
  Run.Reaches (fun s => s = ⟨fun _ => [], []⟩) (Allowed scheme ifAddrs) (fun s a => some (s.step scheme ifAddrs a))

end Steps

theorem mem_drawn {sent : List Msg} {msg : Msg} {dest : IpAddr} {c : BitVec 32} (hmsg : msg ∈ sent)
    (hcarried : msg.carried = some (dest, c)) : c ∈ drawn sent :=
  List.mem_filterMap.2 ⟨msg, hmsg, by rw [hcarried]; rfl⟩

/-! ## What a step does -/

/-- The addresses of a table are distinct. -/
def Keyed (stamps : List Stamp) : Prop := (stamps.map Stamp.addr).Nodup

theorem lookup_of_mem {stamps : List Stamp} (hkeyed : Keyed stamps) {entry : Stamp} (h : entry ∈ stamps) :
    lookupTimestampEntry entry.addr stamps = some entry := by
  induction stamps with
  | nil => cases h
  | cons e stamps ih =>
    obtain ⟨hnew, hrest⟩ := List.nodup_cons.1 hkeyed
    rw [lookup_cons]
    rcases List.mem_cons.1 h with rfl | h
    · exact if_pos rfl
    · have hne : e.addr ≠ entry.addr := fun heq => hnew (heq ▸ List.mem_map_of_mem h)
      rw [if_neg hne, ih hrest h]

theorem lookup_eq_none {adr : IpAddr} {stamps : List Stamp} :
    lookupTimestampEntry adr stamps = none ↔ adr ∉ stamps.map Stamp.addr := by
  simp [lookupTimestampEntry, List.find?_eq_none]

/-- What happened to the challenge of an entry: it belongs to a message that was sent for it, or it was cleared, or it
is as before. -/
inductive Kept (stamps : List Stamp) (sent : List Msg) (e : Stamp) : Prop
  | drawn (msg : Msg) : msg ∈ sent → msg.carried = some (e.addr, e.challenge) → Kept stamps sent e
  | cleared : e.challenge = 0 → (∀ msg ∈ sent, msg.carried = none) → Kept stamps sent e
  | same (e₀ : Stamp) : e₀ ∈ stamps → e₀.addr = e.addr → e₀.challenge = e.challenge →
    (∀ msg ∈ sent, ∀ c, msg.carried ≠ some (e.addr, c)) → Kept stamps sent e

/-- What a node sends is signed, comes from it, and answers the challenge in the message it received. -/
structure Sends (scheme : Scheme) (node : IpAddr) (received : Option Msg) (msg : Msg) : Prop where
  signed : msg.Signed scheme
  originator : msg.originator = node
  answers : ∀ r, msg.response scheme.platform = some r → ∃ msg' dest c, received = some msg' ∧
    msg'.carried = some (dest, c) ∧ r.resSig = scheme.answer c dest

/-- Who set the `validated` flag of an entry: it was set before, or the step accepted a response of its node. -/
def Validated (platform : Platform) (received : Option Msg) (stamps : List Stamp) (ok : Bool) (e : Stamp) : Prop :=
  (∃ e₀ ∈ stamps, e₀.addr = e.addr ∧ e₀.validated = e.validated) ∨
    ∃ msg r, received = some msg ∧ msg.response platform = some r ∧ r.originator = e.addr ∧ ok = true

/-- What a step of a node does. -/
structure StepSpec (scheme : Scheme) (node : IpAddr) (received : Option Msg) (stamps : List Stamp) (out : Outcome) :
    Prop where
  keyed : Keyed out.stamps
  kept : ∀ e ∈ out.stamps, Kept stamps out.sent e
  sends : ∀ msg ∈ out.sent, Sends scheme node received msg
  validated : ∀ e ∈ out.stamps, e.validated ≠ 0 → Validated scheme.platform received stamps out.ok e

/-! ## Tables with distinct addresses -/

section

variable {adr : IpAddr} {f : Stamp → Stamp} {stamps : List Stamp}

theorem Keyed.modifyEntry (h : Keyed stamps) (hf : ∀ e, (f e).addr = e.addr) : Keyed (modifyEntry adr f stamps) := by
  rw [Keyed, map_addr_modifyEntry hf]
  exact h

theorem Keyed.cons {entry : Stamp} (h : Keyed stamps) (hnone : lookupTimestampEntry entry.addr stamps = none) :
    Keyed (entry :: stamps) :=
  List.nodup_cons.2 ⟨lookup_eq_none.1 hnone, h⟩

theorem mem_modifyEntry_of_keyed (h : Keyed stamps) {e : Stamp} (he : e ∈ modifyEntry adr f stamps) :
    (e ∈ stamps ∧ e.addr ≠ adr) ∨ ∃ entry, lookupTimestampEntry adr stamps = some entry ∧ e = f entry := by
  induction stamps with
  | nil => cases he
  | cons entry stamps ih =>
    obtain ⟨hnew, hrest⟩ := List.nodup_cons.1 h
    rw [lookup_cons]
    by_cases heq : entry.addr = adr
    · rw [modifyEntry, if_pos (by simpa using heq)] at he
      rcases List.mem_cons.1 he with rfl | he
      · exact .inr ⟨entry, if_pos heq, rfl⟩
      · refine .inl ⟨List.mem_cons_of_mem _ he, fun hadr => hnew ?_⟩
        rw [heq, ← hadr]
        exact List.mem_map_of_mem he
    · rw [modifyEntry, if_neg (by simpa using heq)] at he
      rw [if_neg heq]
      rcases List.mem_cons.1 he with rfl | he
      · exact .inl ⟨List.mem_cons_self .., heq⟩
      · exact (ih hrest he).imp_left (And.imp_left (List.mem_cons_of_mem _))

end

/-! ## The handlers meet the specification -/

section

variable {scheme : Scheme} {host : Host} {clock : Clock} {draw : Draw} {stamps : List Stamp} {received : Option Msg}

theorem stepSpec_fail (hkeyed : Keyed stamps) : StepSpec scheme host.mainAddr received stamps (.fail stamps) :=
  ⟨hkeyed, fun e he => .same e he rfl rfl (by simp [Outcome.fail]), by simp [Outcome.fail],
    fun e he _ => .inl ⟨e, he, rfl, rfl⟩⟩

/-- A new entry for a node that has none. -/
theorem stepSpec_sendChallenge {newHost : IpAddr} {ok : Bool} (hkeyed : Keyed stamps)
    (hnone : lookupTimestampEntry newHost stamps = none) :
    StepSpec scheme host.mainAddr received stamps { sendChallenge scheme host clock draw newHost stamps with ok } := by
  refine ⟨hkeyed.cons hnone, fun e he => ?_, fun msg hmsg => ?_, fun e he hset => ?_⟩
  · rcases List.mem_cons.1 he with rfl | hold
    · exact .drawn _ (List.mem_singleton_self _) rfl
    · refine .same e hold rfl rfl fun msg hmsg c hcarried => ?_
      obtain rfl := List.mem_singleton.1 hmsg
      have hadr : newHost = e.addr := (Prod.mk.inj (Option.some.inj hcarried)).1
      exact lookup_eq_none.1 hnone (hadr ▸ List.mem_map_of_mem hold)
  · obtain rfl := List.mem_singleton.1 hmsg
    exact ⟨rfl, rfl, fun r hr => by cases hr⟩
  · rcases List.mem_cons.1 he with rfl | hold
    · exact absurd rfl hset
    · exact .inl ⟨e, hold, rfl, rfl⟩

variable (host) in
theorem stepSpec_checkTimestamp (hkeyed : Keyed stamps) (originator : IpAddr) (tstamp : Int) :
    StepSpec scheme host.mainAddr received stamps (checkTimestamp scheme host clock draw originator tstamp stamps) := by
  unfold checkTimestamp
  cases hentry : lookupTimestampEntry originator stamps with
  | none => exact stepSpec_sendChallenge hkeyed hentry
  | some entry =>
    simp only
    split
    · exact stepSpec_fail hkeyed
    · split
      · exact stepSpec_fail hkeyed
      · refine ⟨hkeyed.modifyEntry (addr_adapt _ _), fun e he => ?_, by simp, fun e he _ => ?_⟩
        · rcases mem_modifyEntry_of_keyed hkeyed he with ⟨he, -⟩ | ⟨entry', hentry', rfl⟩
          · exact .same e he rfl rfl (by simp)
          · exact .same entry' (mem_of_lookup hentry') rfl rfl (by simp)
        · rcases mem_modifyEntry_of_keyed hkeyed he with ⟨he, -⟩ | ⟨entry', hentry', rfl⟩
          · exact .inl ⟨e, he, rfl, rfl⟩
          · exact .inl ⟨entry', mem_of_lookup hentry', rfl, rfl⟩

variable (host) in
theorem stepSpec_timeout (hkeyed : Keyed stamps) :
    StepSpec scheme host.mainAddr received stamps ⟨timeoutTimestamps clock stamps, [], true⟩ := by
  refine ⟨hkeyed.sublist (List.Sublist.map _ List.filter_sublist), fun e he => ?_, by simp, fun e he _ => ?_⟩
  · exact .same e (List.mem_filter.1 he).1 rfl rfl (by simp)
  · exact .inl ⟨e, (List.mem_filter.1 he).1, rfl, rfl⟩

/-- The answer to a challenge, once the sender has an entry. -/
theorem stepSpec_acceptChallenge {msg : ChallengeMsg} {table : List Stamp} (hkeyed : Keyed table)
    (hsub : ∀ e ∈ table, e ∈ stamps ∨ e.addr = msg.originator) (hsigned : (Msg.challenge msg).Signed scheme) :
    StepSpec scheme host.mainAddr (some (.challenge msg)) stamps
    (acceptChallenge scheme host clock draw msg table) := by
  have hsum : scheme.sign msg.covered = msg.signature := hsigned
  unfold acceptChallenge
  rw [if_neg (not_not.2 hsum)]
  have hreset : Keyed (modifyEntry msg.originator (reset clock) table) := hkeyed.modifyEntry (addr_reset clock)
  refine ⟨hreset.modifyEntry (addr_setChallenge _), fun e he => ?_, fun m hm => ?_, fun e he hset => ?_⟩
  · rcases mem_modifyEntry_of_keyed hreset he with ⟨he, hne⟩ | ⟨entry, hentry, rfl⟩
    · rcases mem_modifyEntry_of_keyed hkeyed he with ⟨he, -⟩ | ⟨entry, hentry, rfl⟩
      · refine .same e ((hsub e he).resolve_right hne) rfl rfl fun m hm c hcarried => ?_
        obtain rfl := List.mem_singleton.1 hm
        exact hne (Prod.mk.inj (Option.some.inj hcarried)).1.symm
      · exact absurd (addr_of_lookup hentry) hne
    · refine .drawn _ (List.mem_singleton_self _) ?_
      simp [Msg.carried, cresMsg, setChallenge, addr_of_lookup hentry]
  · obtain rfl := List.mem_singleton.1 hm
    refine ⟨rfl, rfl, fun r hr => ⟨_, _, _, rfl, rfl, ?_⟩⟩
    obtain rfl := Option.some.inj hr
    rfl
  · rcases mem_modifyEntry_of_keyed hreset he with ⟨he, hne⟩ | ⟨entry, hentry, rfl⟩
    · rcases mem_modifyEntry_of_keyed hkeyed he with ⟨he, -⟩ | ⟨entry, hentry, rfl⟩
      · exact .inl ⟨e, (hsub e he).resolve_right hne, rfl, rfl⟩
      · exact absurd rfl hset
    · rw [lookup_modifyEntry (addr_reset clock), if_pos rfl] at hentry
      obtain ⟨entry, -, rfl⟩ := Option.map_eq_some_iff.1 hentry
      exact absurd rfl hset

theorem stepSpec_parseChallenge {msg : ChallengeMsg} (hkeyed : Keyed stamps)
    (hsigned : (Msg.challenge msg).Signed scheme) :
    StepSpec scheme host.mainAddr (some (.challenge msg)) stamps
    (parseChallenge scheme host clock draw msg stamps) := by
  unfold parseChallenge
  split
  · exact stepSpec_fail hkeyed
  · cases hentry : lookupTimestampEntry msg.originator stamps with
    | none =>
      refine stepSpec_acceptChallenge (hkeyed.cons hentry) (fun e he => ?_) hsigned
      rcases List.mem_cons.1 he with rfl | he
      · exact .inr rfl
      · exact .inl he
    | some entry =>
      simp only
      split
      · exact stepSpec_fail hkeyed
      · exact stepSpec_acceptChallenge hkeyed (fun e he => .inl he) hsigned

/-- A response is taken only by the entry whose challenge it answers. -/
theorem parseResponse_ok {r : Response} (h : (parseResponse scheme host clock r stamps).ok = true) :
    r.destination ∈ host.ifAddrs ∧ ∃ entry, lookupTimestampEntry r.originator stamps = some entry ∧
      r.resSig = scheme.answer entry.challenge r.originator ∧
      parseResponse scheme host clock r stamps =
      ⟨modifyEntry r.originator (validate clock r.timestamp) stamps, [], true⟩ := by
  unfold parseResponse at h ⊢
  by_cases hdest : r.destination ∈ host.ifAddrs
  · rw [if_neg (not_not.2 hdest)] at h ⊢
    by_cases hsigned : scheme.sign r.covered = r.signature
    · rw [if_neg (not_not.2 hsigned)] at h ⊢
      cases hentry : lookupTimestampEntry r.originator stamps with
      | none => simp [hentry, Outcome.fail] at h
      | some entry =>
        simp only [hentry] at h ⊢
        by_cases hanswer : r.resSig = scheme.answer entry.challenge r.originator
        · exact ⟨hdest, entry, rfl, hanswer, if_neg (not_not.2 hanswer)⟩
        · rw [if_pos hanswer] at h
          cases h
    · rw [if_pos hsigned] at h
      cases h
  · rw [if_pos hdest] at h
    cases h

theorem parseResponse_fail {r : Response} (h : (parseResponse scheme host clock r stamps).ok = false) :
    parseResponse scheme host clock r stamps = .fail stamps := by
  unfold parseResponse at h ⊢
  split
  · rfl
  · next hdest =>
    rw [if_neg hdest] at h
    split
    · rfl
    · next hsigned =>
      rw [if_neg hsigned] at h
      cases hentry : lookupTimestampEntry r.originator stamps with
      | none => rfl
      | some entry =>
        simp only [hentry] at h ⊢
        split
        · rfl
        · next hanswer => simp [hanswer] at h

/-- The messages that go with an accepted response carry no challenge. -/
theorem stepSpec_parseResponse {r : Response} (received : Option Msg) (sent : List Msg) (hkeyed : Keyed stamps)
    (hok : (parseResponse scheme host clock r stamps).ok = true) (hsent : ∀ msg ∈ sent, msg.carried = none)
    (hsends : ∀ msg ∈ sent, Sends scheme host.mainAddr received msg)
    (hreceived : ∃ msg, received = some msg ∧ msg.response scheme.platform = some r) :
    StepSpec scheme host.mainAddr received stamps { parseResponse scheme host clock r stamps with sent := sent } := by
  obtain ⟨-, entry, hentry, -, hout⟩ := parseResponse_ok hok
  obtain ⟨msg, hmsg, hresponse⟩ := hreceived
  rw [hout]
  refine ⟨hkeyed.modifyEntry (addr_validate _ _), fun e he => ?_, hsends, fun e he _ => ?_⟩
  · rcases mem_modifyEntry_of_keyed hkeyed he with ⟨he, -⟩ | ⟨entry', hentry', rfl⟩
    · exact .same e he rfl rfl fun msg hmsg c hcarried => by
        rw [hsent msg hmsg] at hcarried
        cases hcarried
    · exact .cleared rfl hsent
  · rcases mem_modifyEntry_of_keyed hkeyed he with ⟨he, -⟩ | ⟨entry', hentry', rfl⟩
    · exact .inl ⟨e, he, rfl, rfl⟩
    · exact .inr ⟨msg, r, hmsg, hresponse, (addr_of_lookup hentry').symm, rfl⟩

variable (host) in
theorem stepSpec_checkAuth {msg : Msg} (hkeyed : Keyed stamps) (hsigned : msg.Signed scheme) :
    StepSpec scheme host.mainAddr (some msg) stamps (checkAuth scheme host clock draw msg stamps) := by
  cases msg with
  | challenge msg => exact stepSpec_parseChallenge hkeyed hsigned
  | cres msg =>
    unfold checkAuth parseCres
    simp only
    split
    · next hok =>
      refine stepSpec_parseResponse _ _ hkeyed hok ?_ ?_ ⟨_, rfl, rfl⟩
      · intro m hm
        obtain rfl := List.mem_singleton.1 hm
        rfl
      · intro m hm
        obtain rfl := List.mem_singleton.1 hm
        refine ⟨rfl, rfl, fun r hr => ⟨_, _, _, rfl, rfl, ?_⟩⟩
        obtain rfl := Option.some.inj hr
        rfl
    · next hfail =>
      rw [parseResponse_fail (by simpa using hfail)]
      exact stepSpec_fail hkeyed
  | rres msg =>
    unfold checkAuth parseRres
    by_cases hok : (parseResponse scheme host clock (msg.response scheme.platform) stamps).ok = true
    · have hspec := stepSpec_parseResponse (some (.rres msg)) [] hkeyed hok (by simp) (by simp) ⟨_, rfl, rfl⟩
      obtain ⟨-, entry, hentry, -, hout⟩ := parseResponse_ok hok
      rw [hout] at hspec
      simp only [hout]
      exact hspec
    · simp only [parseResponse_fail (by simpa using hok)]
      exact stepSpec_fail hkeyed

end

/-- Every step of a node whose message is signed meets the specification. -/
theorem stepSpec_outcome {scheme : Scheme} {ifAddrs : IpAddr → List IpAddr} {stamps : List Stamp} {a : Action}
    (hkeyed : Keyed stamps) (hsigned : ∀ msg, a.received = some msg → msg.Signed scheme) :
    StepSpec scheme a.node a.received stamps (a.outcome scheme ifAddrs stamps) := by
  cases a with
  | deliver node msg clock draw => exact stepSpec_checkAuth ⟨node, ifAddrs node⟩ hkeyed (hsigned msg rfl)
  | packet node originator tstamp clock draw =>
    exact stepSpec_checkTimestamp ⟨node, ifAddrs node⟩ hkeyed originator tstamp
  | timeout node clock => exact stepSpec_timeout ⟨node, ifAddrs node⟩ hkeyed

end Olsrd.Secure
