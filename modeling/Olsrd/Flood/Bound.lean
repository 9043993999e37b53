/-
A flood comes to its end. While the originator's duplicate entries live, a node relays a message at most twice: once
when the message creates the entry, which leaves its number unmarked, and once more when the number is marked. So the
number of nodes bounds how often a message is put out and how many hops its copies make.
-/
import Olsrd.Flood.Network
import Mathlib.Algebra.BigOperators.Group.Finset.Basic
import Mathlib.Algebra.Order.BigOperators.Group.Finset
import Mathlib.Data.Fintype.Card

namespace Olsrd.Flood

/-! ## One node -/

/-- A number near enough to `n`: what is newer is not so new that `n` leaves the window of 32. -/
def Near (n i : Int) : Prop := n - 2 ^ 14 < i ∧ i ≤ n + 31

/-- What the duplicate entry of the originator of message `n` knows at a node that has relayed the message so often. -/
inductive Stage (n : Int) : Option DupEntry → Nat → Prop
  | unknown : Stage n none 0
  | fresh {entry : DupEntry} {newest : Int} {marked : Int → Prop} : Tracks entry newest marked → Near n newest →
      ¬marked n → Stage n (some entry) 0
  | created {entry : DupEntry} {newest : Int} {marked : Int → Prop} : Tracks entry newest marked → Near n newest →
      n ≤ newest → Stage n (some entry) 1
  | marked {entry : DupEntry} {newest : Int} {marked : Int → Prop} {k : Nat} : Tracks entry newest marked →
      Near n newest → marked n → 1 ≤ k → k ≤ 2 → Stage n (some entry) k

section

variable {n : Int} {k : Nat} {t : UInt32} {set : DuplicateSet} {m : Message}

theorem Stage.le_two {e : Option DupEntry} (h : Stage n e k) : k ≤ 2 := by
  cases h with
  | unknown => exact Nat.zero_le 2
  | fresh => exact Nat.zero_le 2
  | created => exact Nat.le_succ 1
  | marked _ _ _ _ hk => exact hk

/-- Only the number and the bitmap of the entry count. -/
theorem Stage.congr {e e' : DupEntry} (h : Stage n (some e) k) (hs : e'.seqnr = e.seqnr) (ha : e'.array = e.array) :
    Stage n (some e') k := by
  cases h with
  | fresh ht hnear hn => exact .fresh (ht.congr hs ha) hnear hn
  | created ht hnear hn => exact .created (ht.congr hs ha) hnear hn
  | marked ht hnear hn h1 h2 => exact .marked (ht.congr hs ha) hnear hn h1 h2

theorem Near.max {i j : Int} (hi : Near n i) (hj : Near n j) : Near n (max i j) := by
  rcases max_choice i j with h | h
  · exact h.symm ▸ hi
  · exact h.symm ▸ hj

theorem near_self (n : Int) : Near n n := by
  constructor <;> omega

/-- The spec of the duplicate check, for two numbers that are near. -/
theorem tracks_near {entry : DupEntry} {newest : Int} {marked : Int → Prop} (he : set m.originator = some entry)
    (ht : Tracks entry newest marked) (hnewest : Near n newest) (hnear : Near n m.number) (hlow : ¬TooLowReset set m) :
    ∃ entry', (olsrMessageIsDuplicate t set m.originator (seqno m.number)).1 m.originator = some entry' ∧
      ((olsrMessageIsDuplicate t set m.originator (seqno m.number)).2 = false ↔
        newest < m.number ∨ (newest - m.number ≤ 31 ∧ ¬marked m.number)) ∧
      Tracks entry' (max newest m.number)
        (markIf (!(olsrMessageIsDuplicate t set m.originator (seqno m.number)).2) marked m.number) := by
  unfold Near at hnewest hnear
  exact olsrMessageIsDuplicate_spec he ht (by omega) (by omega) hlow

/-- Another message of the originator changes nothing. -/
theorem Stage.other (h : Stage n (set m.originator) k) (hnear : Near n m.number) (hne : m.number ≠ n)
    (hlow : ¬TooLowReset set m) :
    Stage n ((olsrMessageIsDuplicate t set m.originator (seqno m.number)).1 m.originator) k := by
  have hkeep : ∀ {b : Bool} {marked : Int → Prop}, markIf b marked m.number n ↔ marked n := fun {b marked} =>
    ⟨fun hmark => hmark.resolve_right fun hn => hne hn.2.symm, Or.inl⟩
  cases hset : set m.originator with
  | none =>
    rw [hset] at h
    cases h
    rw [olsrMessageIsDuplicate_none hset]
    dsimp only
    rw [Function.update_self]
    exact .fresh (tracks_create m.number _) hnear id
  | some entry =>
    rw [hset] at h
    cases h with
    | fresh ht hnewest hn =>
      obtain ⟨entry', he', -, ht'⟩ := tracks_near (t := t) hset ht hnewest hnear hlow
      rw [he']
      exact .fresh ht' (hnewest.max hnear) (mt hkeep.1 hn)
    | created ht hnewest hn =>
      obtain ⟨entry', he', -, ht'⟩ := tracks_near (t := t) hset ht hnewest hnear hlow
      rw [he']
      exact .created ht' (hnewest.max hnear) (le_trans hn (le_max_left _ _))
    | marked ht hnewest hn h1 h2 =>
      obtain ⟨entry', he', -, ht'⟩ := tracks_near (t := t) hset ht hnewest hnear hlow
      rw [he']
      exact .marked ht' (hnewest.max hnear) (hkeep.2 hn) h1 h2

/-- The message itself never counts as that of a client that has restarted. -/
theorem not_tooLowReset {entry : DupEntry} {newest : Int} {marked : Int → Prop} (he : set m.originator = some entry)
    (ht : Tracks entry newest marked) (hnewest : Near m.number newest) : ¬TooLowReset set m := by
  rintro ⟨entry', he', hdiff, -⟩
  obtain rfl := Option.some.inj (he.symm.trans he')
  unfold Near at hnewest
  rw [ht.seqnr, olsrSeqnoDiff_seqno (by omega) (by omega)] at hdiff
  omega

/-- What the node does with the message itself: the first time it lets it through, and each time it does, it has gone
one stage on. -/
theorem Stage.self (h : Stage m.number (set m.originator) k) :
    Stage m.number ((olsrMessageIsDuplicate t set m.originator (seqno m.number)).1 m.originator)
        (if (olsrMessageIsDuplicate t set m.originator (seqno m.number)).2 then k else k + 1) ∧
      (k = 0 → (olsrMessageIsDuplicate t set m.originator (seqno m.number)).2 = false) := by
  cases hset : set m.originator with
  | none =>
    rw [hset] at h
    cases h
    rw [olsrMessageIsDuplicate_none hset]
    dsimp only
    rw [Function.update_self]
    exact ⟨.created (tracks_create m.number _) (near_self _) le_rfl, fun _ => rfl⟩
  | some entry =>
    rw [hset] at h
    cases h with
    | fresh ht hnewest hn =>
      obtain ⟨entry', he', hdup, ht'⟩ :=
        tracks_near (t := t) hset ht hnewest (near_self _) (not_tooLowReset hset ht hnewest)
      have hnew := hdup.2 (or_iff_not_imp_left.2 fun _ => ⟨by unfold Near at hnewest; omega, hn⟩)
      rw [hnew] at ht' ⊢
      rw [he']
      exact ⟨.marked ht' (hnewest.max (near_self _)) (.inr ⟨rfl, rfl⟩) le_rfl (Nat.le_succ 1), fun _ => rfl⟩
    | created ht hnewest hn =>
      obtain ⟨entry', he', -, ht'⟩ :=
        tracks_near (t := t) hset ht hnewest (near_self _) (not_tooLowReset hset ht hnewest)
      rw [he']
      refine ⟨?_, fun hk => nomatch hk⟩
      cases hdup : (olsrMessageIsDuplicate t set m.originator (seqno m.number)).2 with
      | true => exact .created ht' (hnewest.max (near_self _)) (le_trans hn (le_max_left _ _))
      | false =>
        rw [hdup] at ht'
        exact .marked ht' (hnewest.max (near_self _)) (.inr ⟨rfl, rfl⟩) (Nat.le_succ 1) le_rfl
    | marked ht hnewest hn h1 h2 =>
      obtain ⟨entry', he', hdup, ht'⟩ :=
        tracks_near (t := t) hset ht hnewest (near_self _) (not_tooLowReset hset ht hnewest)
      have hold : (olsrMessageIsDuplicate t set m.originator (seqno m.number)).2 = true := by
        rw [← Bool.not_eq_false, hdup]
        have hle := ht.le _ hn
        rintro (hlt | ⟨-, hunmarked⟩)
        · omega
        · exact hunmarked hn
      rw [hold] at ht' ⊢
      rw [he']
      exact ⟨.marked ht' (hnewest.max (near_self _)) (.inl hn) h1 h2, fun hk => by omega⟩

end

/-! ## The network -/

/-- Message number `n` of originator `o`. -/
def Is (o : IpAddr) (n : Int) (m : Message) : Prop := m.originator = o ∧ m.number = n

instance (o : IpAddr) (n : Int) (m : Message) : Decidable (Is o n m) := inferInstanceAs (Decidable (_ ∧ _))

section

variable {V : Type} {mesh : Mesh V} {net net' : Net V} {root v : V} {m m' : Message} {o : IpAddr} {n : Int} {c : Copy V}

/-- How often the message was put out. -/
def total (o : IpAddr) (n : Int) (sent : List (V × Message)) : Nat := sent.countP fun x => Is o n x.2

@[simp] theorem total_cons (x : V × Message) (sent : List (V × Message)) :
    total o n (x :: sent) = total o n sent + if Is o n x.2 then 1 else 0 := by
  simp only [total, List.countP_cons, decide_eq_true_eq]

theorem mem_copies {ifnet : List Interface} : c ∈ mesh.copies v ifnet m ↔
    ∃ i ifn, ifnet[i]? = some ifn ∧ ifn.copies ≠ 0 ∧ c.hearer ∈ mesh.hearers v i ∧ c.message = m := by
  unfold Mesh.copies Mesh.heard
  constructor
  · intro hc
    obtain ⟨l, hl, hc⟩ := List.mem_flatten.1 hc
    obtain ⟨i, hi⟩ := List.getElem?_of_mem hl
    rw [List.getElem?_mapIdx] at hi
    obtain ⟨ifn, hifn, rfl⟩ := Option.map_eq_some_iff.1 hi
    split at hc
    · exact absurd hc List.not_mem_nil
    · next hcopies =>
      obtain ⟨h, hh, rfl⟩ := List.mem_map.1 hc
      exact ⟨i, ifn, hifn, hcopies, hh, rfl⟩
  · rintro ⟨i, ifn, hifn, hcopies, hh, rfl⟩
    refine List.mem_flatten.2 ⟨(mesh.hearers v i).map fun h => ⟨h, c.message⟩, ?_, List.mem_map.2 ⟨c.hearer, hh, rfl⟩⟩
    refine List.mem_of_getElem? (i := i) ?_
    rw [List.getElem?_mapIdx, hifn, Option.map_some, if_neg hcopies]

variable [DecidableEq V]

/-- How often a node has put out the message. -/
def count (o : IpAddr) (n : Int) (v : V) (sent : List (V × Message)) : Nat :=
  sent.countP fun x => x.1 = v ∧ Is o n x.2

/-- While the message is under way its number is not used again, the numbers of the originator are near, and its
duplicate entries neither expire nor are taken for those of a client that has restarted. -/
def Orderly (o : IpAddr) (n : Int) (net : Net V) : NetEvent V → Prop
  | .originate _ _ m => ¬Is o n m
  | .deliver k _ => ∀ c, net.flight[k]? = some c → c.message.originator = o →
      Near n c.message.number ∧ ¬TooLowReset (net.node c.hearer.node).duplicateSet c.message
  | .cleanupTimer v => ∀ entry, (net.node v).duplicateSet o = some entry →
      isTimedOut (net.node v).world.nowTimes entry.validUntil = false
  | _ => True

/-- A copy has made fewer hops than the message was put out. -/
def Travelled (m : Message) (hops : Nat) (m' : Message) : Prop :=
  ∃ d < hops, m'.ttl.toNat + d = m.ttl.toNat ∧ m'.hopcnt.toNat = m.hopcnt.toNat + d ∧ m'.msgsize = m.msgsize

/-- What holds while message `m` of node `root` is flooded. -/
structure Spread (root : V) (m : Message) (net : Net V) : Prop where
  once : count m.originator m.number root net.sent = 1
  stage : ∀ v, v ≠ root → Stage m.number ((net.node v).duplicateSet m.originator)
    (count m.originator m.number v net.sent)
  travelled : ∀ c ∈ net.flight, Is m.originator m.number c.message →
    Travelled m (total m.originator m.number net.sent) c.message

@[simp] theorem count_cons (x : V × Message) (sent : List (V × Message)) :
    count o n v (x :: sent) = count o n v sent + if x.1 = v ∧ Is o n x.2 then 1 else 0 := by
  simp only [count, List.countP_cons, decide_eq_true_eq]

/-- What `olsr_message_is_duplicate` leaves and answers for a copy that comes in. -/
def Net.asked (net : Net V) (c : Copy V) : DuplicateSet × Bool :=
  olsrMessageIsDuplicate (net.node c.hearer.node).world.nowTimes (net.node c.hearer.node).duplicateSet
    c.message.originator (seqno c.message.number)

/-- The interfaces of a node after the loop of `olsr_forward_message`. -/
def Net.loaded (net : Net V) (c : Copy V) : List Interface :=
  (net.node c.hearer.node).world.ifnet.mapIdx fun i ifn =>
    forwardOn ifn (i == c.hearer.inIf) (isTtl1 c.message) c.message.msgsize.toNat

/-- What can become of a copy that comes in. -/
inductive Received (mesh : Mesh V) (net : Net V) (c : Copy V) (forward : Bool) : Net V → Prop
  | ignored : (dropsOriginator (mesh.cnf c.hearer.node) c.message.originator = true ∨ forward = false ∨
        forwardsFor (net.node c.hearer.node).world c.hearer.fromAddr = false) →
      Received mesh net c forward { net with arrived := c :: net.arrived }
  | duplicate : dropsOriginator (mesh.cnf c.hearer.node) c.message.originator = false → (net.asked c).2 = true →
      Received mesh net c forward
        { net with
          node := Function.update net.node c.hearer.node
            { net.node c.hearer.node with duplicateSet := (net.asked c).1 }
          arrived := c :: net.arrived }
  | relayed : dropsOriginator (mesh.cnf c.hearer.node) c.message.originator = false → (net.asked c).2 = false →
      Received mesh net c forward
        { node := Function.update net.node c.hearer.node
            ⟨{ (net.node c.hearer.node).world with ifnet := net.loaded c }, (net.asked c).1⟩
          flight := net.flight ++ mesh.copies c.hearer.node (net.loaded c) (relayedMessage c.message)
          sent := (c.hearer.node, relayedMessage c.message) :: net.sent
          arrived := c :: net.arrived }

theorem received_receive (mesh : Mesh V) (net : Net V) (c : Copy V) (forward : Bool) :
    Received mesh net c forward (net.receive mesh c forward) := by
  unfold Net.receive
  dsimp only
  by_cases hdrop : dropsOriginator (mesh.cnf c.hearer.node) c.message.originator = true
  · rw [if_pos (by rw [hdrop, Bool.true_or])]
    exact .ignored (.inl hdrop)
  cases forward with
  | false =>
    rw [if_pos (by rw [Bool.not_false, Bool.or_true])]
    exact .ignored (.inr (.inl rfl))
  | true =>
    rw [Bool.not_eq_true] at hdrop
    rw [if_neg (by rw [hdrop]; decide)]
    unfold olsrForwardMessage
    cases hfor : forwardsFor (net.node c.hearer.node).world c.hearer.fromAddr with
    | false =>
      rw [if_neg Bool.false_ne_true]
      dsimp only
      rw [Function.update_eq_self]
      exact .ignored (.inr (.inr hfor))
    | true =>
      rw [if_pos rfl]
      dsimp only
      cases hdup : (net.asked c).2 with
      | true =>
        have hdup' := hdup
        unfold Net.asked at hdup'
        rw [if_pos hdup']
        exact .duplicate hdrop hdup
      | false =>
        have hdup' := hdup
        unfold Net.asked at hdup'
        rw [if_neg (by rw [hdup']; decide)]
        exact .relayed hdrop hdup

/-! ## Steps -/

theorem travelled_relayed {hops : Nat} (h : Travelled m hops m') : Travelled m (hops + 1) (relayedMessage m') := by
  obtain ⟨d, hd, httl, hhops, hsize⟩ := h
  unfold relayedMessage
  by_cases hlast : isTtl1 m' = true
  · rw [if_pos hlast]
    exact ⟨d, by omega, httl, hhops, hsize⟩
  · rw [if_neg hlast]
    unfold isTtl1 at hlast
    rw [Bool.or_eq_true, decide_eq_true_iff, decide_eq_true_iff, not_or] at hlast
    have hup : (m'.hopcnt + 1).toNat = m'.hopcnt.toNat + 1 := by
      rw [UInt8.toNat_add]
      exact Nat.mod_eq_of_lt (show m'.hopcnt.toNat + 1 < 256 by omega)
    have hdown : (m'.ttl - 1).toNat = m'.ttl.toNat - 1 :=
      UInt8.toNat_sub_of_le _ _ (UInt8.le_iff_toNat_le.2 (show 1 ≤ m'.ttl.toNat by omega))
    refine ⟨d + 1, by omega, ?_, ?_, hsize⟩
    · show (m'.ttl - 1).toNat + (d + 1) = m.ttl.toNat
      omega
    · show (m'.hopcnt + 1).toNat = m.hopcnt.toNat + (d + 1)
      omega

theorem Travelled.mono {hops hops' : Nat} (h : Travelled m hops m') (hle : hops ≤ hops') : Travelled m hops' m' := by
  obtain ⟨d, hd, hrest⟩ := h
  exact ⟨d, lt_of_lt_of_le hd hle, hrest⟩

theorem is_relayedMessage : Is o n (relayedMessage m) ↔ Is o n m := by
  unfold relayedMessage
  split <;> rfl

/-- A step that leaves the duplicate entries of the originator what they were. -/
theorem Spread.frame (h : Spread root m net) (hsent : net'.sent = net.sent)
    (hflight : ∀ c ∈ net'.flight, c ∈ net.flight)
    (hstage : ∀ v k, Stage m.number ((net.node v).duplicateSet m.originator) k →
      Stage m.number ((net'.node v).duplicateSet m.originator) k) : Spread root m net' := by
  constructor
  · rw [hsent]
    exact h.once
  · intro v hv
    rw [hsent]
    exact hstage v _ (h.stage v hv)
  · intro c hc his
    rw [hsent]
    exact h.travelled c (hflight c hc) his

/-- What changes at one node, seen from all. -/
theorem stage_update {nd : Node} {n : Int} {o : IpAddr}
    (h : ∀ k, Stage n ((net.node v).duplicateSet o) k → Stage n (nd.duplicateSet o) k) (u : V) (k : Nat)
    (hu : Stage n ((net.node u).duplicateSet o) k) : Stage n ((Function.update net.node v nd u).duplicateSet o) k := by
  by_cases huv : u = v
  · subst huv
    rw [Function.update_self]
    exact h k hu
  · rw [Function.update_of_ne huv]
    exact hu

omit [DecidableEq V] in
/-- A copy of another message that comes in. -/
theorem stage_asked {k : Nat} (hne : ¬Is o n c.message)
    (hok : c.message.originator = o → Near n c.message.number ∧
    ¬TooLowReset (net.node c.hearer.node).duplicateSet c.message)
    (h : Stage n ((net.node c.hearer.node).duplicateSet o) k) : Stage n ((net.asked c).1 o) k := by
  by_cases ho : c.message.originator = o
  · obtain ⟨hnear, hlow⟩ := hok ho
    subst ho
    exact h.other hnear (fun hn => hne ⟨rfl, hn⟩) hlow
  · unfold Net.asked
    rw [olsrMessageIsDuplicate_other _ _ _ (Ne.symm ho)]
    exact h

/-- A copy comes in. -/
theorem Spread.receive (h : Spread root m net) (hroot : dropsOriginator (mesh.cnf root) m.originator = true)
    (hc : Is m.originator m.number c.message → Travelled m (total m.originator m.number net.sent) c.message)
    (hok : c.message.originator = m.originator →
      Near m.number c.message.number ∧ ¬TooLowReset (net.node c.hearer.node).duplicateSet c.message)
    {forward : Bool} (hreceived : Received mesh net c forward net') : Spread root m net' := by
  cases hreceived with
  | ignored => exact h.frame rfl (fun _ => id) fun _ _ => id
  | duplicate hdrop hdup =>
    refine h.frame rfl (fun _ => id) (stage_update fun k hk => ?_)
    by_cases his : Is m.originator m.number c.message
    · obtain ⟨ho, hn⟩ := his
      rw [← ho, ← hn] at hk ⊢
      have hself := hk.self (t := (net.node c.hearer.node).world.nowTimes)
      unfold Net.asked at hdup
      rw [hdup, if_pos rfl] at hself
      exact hself.1
    · exact stage_asked his hok hk
  | relayed hdrop hdup =>
    by_cases his : Is m.originator m.number c.message
    · have hsent : Is m.originator m.number (relayedMessage c.message) := is_relayedMessage.2 his
      have hne : c.hearer.node ≠ root := by
        intro heq
        rw [heq, his.1, hroot] at hdrop
        cases hdrop
      constructor
      · rw [count_cons, if_neg fun hx => hne hx.1]
        exact h.once
      · intro v hv
        by_cases hvc : v = c.hearer.node
        · subst hvc
          have hstage := h.stage _ hv
          dsimp only
          rw [count_cons, if_pos ⟨rfl, hsent⟩, Function.update_self]
          obtain ⟨ho, hn⟩ := his
          rw [← ho, ← hn] at hstage ⊢
          have hself := hstage.self (t := (net.node c.hearer.node).world.nowTimes)
          unfold Net.asked at hdup
          rw [hdup, if_neg Bool.false_ne_true] at hself
          exact hself.1
        · dsimp only
          rw [count_cons, if_neg fun hx => hvc hx.1.symm, Function.update_of_ne hvc]
          exact h.stage v hv
      · intro c' hc' his'
        rw [total_cons, if_pos hsent]
        rcases List.mem_append.1 hc' with hc' | hc'
        · exact (h.travelled c' hc' his').mono (Nat.le_succ _)
        · obtain ⟨_, _, _, _, _, hmessage⟩ := mem_copies.1 hc'
          rw [hmessage]
          exact travelled_relayed (hc his)
    · have hsent : ¬Is m.originator m.number (relayedMessage c.message) := mt is_relayedMessage.1 his
      constructor
      · rw [count_cons, if_neg fun hx => hsent hx.2]
        exact h.once
      · intro v hv
        rw [count_cons, if_neg fun hx => hsent hx.2]
        exact stage_update (fun k hk => stage_asked his hok hk) v _ (h.stage v hv)
      · intro c' hc' his'
        rw [total_cons, if_neg hsent]
        rcases List.mem_append.1 hc' with hc' | hc'
        · exact h.travelled c' hc' his'
        · obtain ⟨_, _, _, _, _, hmessage⟩ := mem_copies.1 hc'
          rw [hmessage] at his'
          exact absurd his' hsent

theorem Spread.step (h : Spread root m net) (hroot : dropsOriginator (mesh.cnf root) m.originator = true)
    {e : NetEvent V} (hok : Orderly m.originator m.number net e) (hstep : net.step mesh e = some net') :
    Spread root m net' := by
  cases e with
  | originate v ifs m' =>
    obtain rfl := Option.some.inj hstep
    constructor
    · rw [count_cons, if_neg fun hx => hok hx.2]
      exact h.once
    · intro u hu
      rw [count_cons, if_neg fun hx => hok hx.2]
      exact h.stage u hu
    · intro c hc his
      rw [total_cons, if_neg hok]
      rcases List.mem_append.1 hc with hc | hc
      · exact h.travelled c hc his
      · obtain ⟨i, -, hc⟩ := List.mem_flatMap.1 hc
        obtain ⟨x, -, rfl⟩ := List.mem_map.1 hc
        exact absurd his hok
  | deliver k forward =>
    obtain ⟨c, hc, rfl⟩ := Option.map_eq_some_iff.1 hstep
    have hlater : Spread root m { net with flight := net.flight.eraseIdx k } :=
      h.frame rfl (fun _ => List.mem_of_mem_eraseIdx) fun _ _ => id
    exact hlater.receive hroot (fun his => h.travelled c (List.mem_of_getElem? hc) his) (hok c hc)
      (received_receive mesh _ c forward)
  | lose k =>
    obtain rfl := Option.some.inj hstep
    exact h.frame rfl (fun _ => List.mem_of_mem_eraseIdx) fun _ _ => id
  | duplicate k =>
    obtain ⟨c, hc, rfl⟩ := Option.map_eq_some_iff.1 hstep
    refine h.frame rfl (fun c' hc' => ?_) fun _ _ => id
    rcases List.mem_cons.1 hc' with rfl | hc'
    · exact List.mem_of_getElem? hc
    · exact hc'
  | cleanupTimer v =>
    obtain rfl := Option.some.inj hstep
    refine h.frame rfl (fun _ => id) (stage_update fun k hk => ?_)
    show Stage m.number (olsrCleanupDuplicateEntry (net.node v).world.nowTimes (net.node v).duplicateSet m.originator) k
    unfold olsrCleanupDuplicateEntry
    cases hentry : (net.node v).duplicateSet m.originator with
    | none =>
      rw [hentry] at hk
      exact hk
    | some entry =>
      rw [Option.filter_some, hok entry hentry, Bool.not_false, if_pos rfl, ← hentry]
      exact hk
  | cleanupDuplicates v orig =>
    obtain rfl := Option.some.inj hstep
    refine h.frame rfl (fun _ => id) (stage_update fun k hk => ?_)
    show Stage m.number (olsrCleanupDuplicates (net.node v).duplicateSet orig m.originator) k
    unfold olsrCleanupDuplicates
    by_cases ho : m.originator = orig
    · subst ho
      rw [Function.update_self]
      cases hentry : (net.node v).duplicateSet m.originator with
      | none =>
        rw [hentry] at hk
        exact hk
      | some entry =>
        rw [hentry] at hk
        exact hk.congr rfl rfl
    · rw [Function.update_of_ne ho]
      exact hk
  | world v w =>
    obtain rfl := Option.some.inj hstep
    exact h.frame rfl (fun _ => id) (stage_update fun _ => id)

/-! ## Runs -/

/-- Nothing is known of the message yet, and its number is new at all nodes but its own. -/
structure Quiet (root : V) (m : Message) (net : Net V) : Prop where
  sent : ∀ x ∈ net.sent, ¬Is m.originator m.number x.2
  flight : ∀ c ∈ net.flight, ¬Is m.originator m.number c.message
  arrived : ∀ c ∈ net.arrived, ¬Is m.originator m.number c.message
  fresh : ∀ v, v ≠ root → Stage m.number ((net.node v).duplicateSet m.originator) 0

/-- The node puts out the message. -/
theorem Quiet.originate (h : Quiet root m net) {ifs : List Nat}
    (hstep : net.step mesh (.originate root ifs m) = some net') :
    Spread root m net' ∧ total m.originator m.number net'.sent = 1 := by
  obtain rfl := Option.some.inj hstep
  have hself : Is m.originator m.number m := ⟨rfl, rfl⟩
  have hcount : ∀ v, count m.originator m.number v net.sent = 0 := fun v =>
    List.countP_eq_zero.2 fun x hx his => h.sent x hx (of_decide_eq_true his).2
  have htotal : total m.originator m.number net.sent = 0 :=
    List.countP_eq_zero.2 fun x hx his => h.sent x hx (of_decide_eq_true his)
  have hone : total m.originator m.number ((root, m) :: net.sent) = 1 := by
    rw [total_cons, if_pos hself, htotal]
  refine ⟨⟨?_, fun v hv => ?_, fun c hc his => ?_⟩, hone⟩
  · rw [count_cons, if_pos ⟨rfl, hself⟩, hcount]
  · rw [count_cons, if_neg fun hx => hv hx.1.symm, hcount]
    exact h.fresh v hv
  · rcases List.mem_append.1 hc with hc | hc
    · exact absurd his (h.flight c hc)
    · obtain ⟨i, -, hc⟩ := List.mem_flatMap.1 hc
      obtain ⟨x, -, rfl⟩ := List.mem_map.1 hc
      exact ⟨0, by rw [hone]; exact Nat.one_pos, rfl, rfl, rfl⟩

/-- The total is the sum over the nodes. -/
theorem total_eq_sum [Fintype V] (o : IpAddr) (n : Int) (sent : List (V × Message)) :
    total o n sent = ∑ v, count o n v sent := by
  induction sent with
  | nil => exact (Finset.sum_const_zero).symm
  | cons x sent ih =>
    simp only [total_cons, count_cons, Finset.sum_add_distrib, ih]
    congr 1
    by_cases his : Is o n x.2
    · simp only [his, and_true, if_true]
      rw [Finset.sum_ite_eq, if_pos (Finset.mem_univ _)]
    · simp only [his, and_false, if_false, Finset.sum_const_zero]

theorem Spread.count_le_two (h : Spread root m net) (v : V) : count m.originator m.number v net.sent ≤ 2 := by
  by_cases hv : v = root
  · rw [hv, h.once]
    exact Nat.le_succ 1
  · exact (h.stage v hv).le_two

theorem Spread.total_lt [Fintype V] (h : Spread root m net) :
    total m.originator m.number net.sent < 2 * Fintype.card V := by
  rw [total_eq_sum, ← Finset.card_univ, mul_comm, ← smul_eq_mul, ← Finset.sum_const]
  refine Finset.sum_lt_sum (fun v _ => h.count_le_two v) ⟨root, Finset.mem_univ _, ?_⟩
  rw [h.once]
  exact Nat.one_lt_two

end

/-! ## Three nodes in a row -/

end Olsrd.Flood
