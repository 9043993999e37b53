/-
At most once: within one life of an originator's duplicate entry a message number is let through a
second time only if it is the number that created the entry. `olsr_create_duplicate_entry` leaves the
bitmap empty, where the too-low reset marks its own number, so the creating message is let through
once more while it is at most 31 behind the newest.
-/
import Olsrd.Flood.DuplicateSet

namespace Olsrd.Flood

open Window

/-! ## The property -/

/-- The records of one originator. -/
def recordsOf (o : IpAddr) (rs : List Record) : List Record := rs.filter fun r => r.message.originator == o

/-- How often number `n` was let through, and how often it was relayed. -/
def letThrough (n : Int) (rs : List Record) : Nat := rs.countP fun r => r.message.number == n && !r.duplicate

def relays (n : Int) (rs : List Record) : Nat := rs.countP fun r => r.message.number == n && r.relayed

/-- A life as it should be. -/
structure LifeOk (rs : List Record) : Prop where
  atMostOnce : ∀ n, letThrough n rs ≤ 1
  newest : ∀ pre r post, rs = pre ++ r :: post → (∀ p ∈ pre, p.message.number < r.message.number) →
    r.duplicate = false
  relayedOnce : ∀ n, relays n rs ≤ 1

/-- Each number is less than `2^15` away from the newest before it. -/
def InWindow : Int → List Int → Prop
  | _, [] => True
  | newest, n :: ns => n - newest < 2 ^ 15 ∧ newest - n < 2 ^ 15 ∧ InWindow (max newest n) ns

/-- The number `n₀` comes again while it is at most 31 behind the newest. -/
def Replayed (n₀ : Int) : Int → List Int → Prop
  | _, [] => False
  | newest, n :: ns => (n = n₀ ∧ newest - n ≤ 31) ∨ Replayed n₀ (max newest n) ns

/-- The too-low reset of `olsr_message_is_duplicate` happens on this message. -/
def TooLowReset (set : DuplicateSet) (m : Message) : Prop :=
  ∃ entry, set m.originator = some entry ∧ olsrSeqnoDiff (seqno m.number) entry.seqnr < -31 ∧
    entry.tooLowCounter + 1 > dupMaxTooLow

instance decidableTooLowReset (set : DuplicateSet) (m : Message) : Decidable (TooLowReset set m) :=
  inferInstanceAs (Decidable (∃ entry ∈ set m.originator, _ ∧ _))

/-- The event ends the life of the entry of `o`. -/
def EndsLife (o : IpAddr) (node : Node) (e : Event) : Prop :=
  (∃ m, presents node e = some m ∧ m.originator = o ∧ TooLowReset node.duplicateSet m) ∨
    (step node e).1.duplicateSet o = none

/-- The life of the entry of `o` lasts through the events. -/
def LifeLasts (o : IpAddr) : Node → List Event → Prop
  | _, [] => True
  | node, e :: es => ¬ EndsLife o node e ∧ LifeLasts o (step node e).1 es

instance decidableEndsLife (o : IpAddr) (node : Node) (e : Event) : Decidable (EndsLife o node e) :=
  have : Decidable ((step node e).1.duplicateSet o = none) := decidable_of_iff _ Option.isNone_iff_eq_none
  inferInstanceAs (Decidable ((∃ m ∈ presents node e, _ ∧ _) ∨ _))

instance decidableLifeLasts (o : IpAddr) : ∀ (node : Node) (es : List Event), Decidable (LifeLasts o node es)
  | _, [] => .isTrue trivial
  | node, e :: es =>
    have : Decidable (LifeLasts o (step node e).1 es) := decidableLifeLasts o (step node e).1 es
    inferInstanceAs (Decidable (_ ∧ _))

instance decidableInWindow : ∀ (newest : Int) (ns : List Int), Decidable (InWindow newest ns)
  | _, [] => .isTrue trivial
  | newest, n :: ns =>
    have : Decidable (InWindow (max newest n) ns) := decidableInWindow (max newest n) ns
    inferInstanceAs (Decidable (_ ∧ _ ∧ _))

instance decidableReplayed (n₀ : Int) : ∀ (newest : Int) (ns : List Int), Decidable (Replayed n₀ newest ns)
  | _, [] => .isFalse id
  | newest, n :: ns =>
    have : Decidable (Replayed n₀ (max newest n) ns) := decidableReplayed n₀ (max newest n) ns
    inferInstanceAs (Decidable (_ ∨ _))

/-! ## One message -/

theorem seqno_toNat (n : Int) : ((seqno n).toNat : Int) = n % (2 * 2 ^ 15) := by
  have h0 := Int.emod_nonneg n (by norm_num : (2 : Int) ^ 16 ≠ 0)
  have h1 := Int.emod_lt_of_pos n (by norm_num : (0 : Int) < 2 ^ 16)
  unfold seqno
  rw [UInt16.toNat_ofNat', Nat.mod_eq_of_lt (by omega), Int.toNat_of_nonneg h0]
  norm_num

theorem olsrSeqnoDiff_seqno {n m : Int} (h1 : n - m < 2 ^ 15) (h2 : m - n < 2 ^ 15) :
    olsrSeqnoDiff (seqno n) (seqno m) = n - m := by
  have := serialDiff_emod (by norm_num : (0 : Int) < 2 ^ 15) h1 h2
  rw [← seqno_toNat, ← seqno_toNat] at this
  rw [← this]
  unfold olsrSeqnoDiff serialDiff
  norm_num

/-- The entry describes a life: its number is the newest, and its bitmap holds the marked numbers. -/
structure Tracks (entry : DupEntry) (newest : Int) (marked : Int → Prop) : Prop where
  seqnr : entry.seqnr = seqno newest
  array : Holds entry.array newest marked
  le : ∀ n, marked n → n ≤ newest

/-- The entry's two fields that matter are kept. -/
theorem Tracks.congr {e e' : DupEntry} {newest : Int} {marked : Int → Prop} (h : Tracks e newest marked)
    (hs : e'.seqnr = e.seqnr) (ha : e'.array = e.array) : Tracks e' newest marked :=
  ⟨by rw [hs]; exact h.seqnr, by rw [ha]; exact h.array, h.le⟩

/-- Marking also the number `n` itself, if the message is let through. -/
def markIf (b : Bool) (marked : Int → Prop) (n : Int) : Int → Prop := fun i => marked i ∨ (b = true ∧ i = n)

@[simp] theorem markIf_true (marked : Int → Prop) (n : Int) : markIf true marked n = fun i => marked i ∨ i = n := by
  funext i; simp [markIf]

@[simp] theorem markIf_false (marked : Int → Prop) (n : Int) : markIf false marked n = marked := by
  funext i; simp [markIf]

theorem markIf_le {newest n : Int} {marked : Int → Prop} (h : ∀ i, marked i → i ≤ newest) (b : Bool) :
    ∀ i, markIf b marked n i → i ≤ max newest n := by
  rintro i (hi | ⟨-, rfl⟩)
  · exact le_trans (h i hi) (le_max_left _ _)
  · exact le_max_right _ _

/-- A message in the window that causes no reset is let through exactly when it is newer than all
others, or not too old and not marked. -/
theorem checkEntry_spec {entry : DupEntry} {newest n : Int} {marked : Int → Prop}
    (ht : Tracks entry newest marked) (h1 : n - newest < 2 ^ 15) (h2 : newest - n < 2 ^ 15)
    (hr : ¬ (olsrSeqnoDiff (seqno n) entry.seqnr < -31 ∧ entry.tooLowCounter + 1 > dupMaxTooLow)) :
    ((checkEntry entry (seqno n)).2 = false ↔ newest < n ∨ (newest - n ≤ 31 ∧ ¬ marked n)) ∧
    Tracks (checkEntry entry (seqno n)).1 (max newest n) (markIf (!(checkEntry entry (seqno n)).2) marked n) := by
  have hd : olsrSeqnoDiff (seqno n) entry.seqnr = n - newest := by
    rw [ht.seqnr]; exact olsrSeqnoDiff_seqno h1 h2
  have hle := markIf_le (n := n) ht.le
  unfold checkEntry
  rw [hd] at hr ⊢
  dsimp only
  split_ifs with hlow hreset hold hbit hnear
  · exact absurd ⟨hlow, hreset⟩ hr
  · -- too low: blocked, nothing marked
    have hmax : max newest n = newest := max_eq_left (by omega)
    refine ⟨by simp; omega, ?_⟩
    rw [hmax, Bool.not_true, markIf_false]
    exact ht.congr rfl rfl
  · -- in the window and marked before
    have hmax : max newest n = newest := max_eq_left (by omega)
    have hmk : marked n := by
      have := (and_one_shiftLeft_ne_zero entry.array (by omega)).1 hbit
      rw [ht.array _ (by omega)] at this
      rwa [show newest - ((-(n - newest)).toNat : Int) = n by omega] at this
    refine ⟨by simp [hmk]; omega, ?_⟩
    rw [hmax, Bool.not_true, markIf_false]
    exact ht.congr rfl rfl
  · -- in the window and not marked before
    have hmax : max newest n = newest := max_eq_left (by omega)
    have hmk : ¬ marked n := by
      intro hmk
      apply hbit
      rw [and_one_shiftLeft_ne_zero entry.array (by omega), ht.array _ (by omega)]
      rwa [show newest - ((-(n - newest)).toNat : Int) = n by omega]
    refine ⟨by simp [hmk]; omega, ?_, ?_, hle _⟩
    · rw [hmax]; exact ht.seqnr
    · rw [hmax, Bool.not_false, markIf_true]
      exact holds_mark ht.array (by omega)
  · -- newer, and old numbers stay in the window
    have hmax : max newest n = n := max_eq_right (by omega)
    refine ⟨by simp; omega, ?_, ?_, hle _⟩
    · rw [hmax]
    · rw [hmax, Bool.not_false, markIf_true]
      exact holds_advance ht.array ht.le (by omega) (by omega)
  · -- newer by at least the whole window
    have hmax : max newest n = n := max_eq_right (by omega)
    refine ⟨by simp; omega, ?_, ?_, hle _⟩
    · rw [hmax]
    · rw [hmax, Bool.not_false, markIf_true]
      exact holds_restart ht.le (by push_cast; omega)

/-! ## One event -/

theorem olsrMessageIsDuplicate_none {set : DuplicateSet} {ip : IpAddr} (h : set ip = none) (now : UInt32)
    (seqnr : UInt16) : olsrMessageIsDuplicate now set ip seqnr =
      (Function.update set ip (some (olsrCreateDuplicateEntry seqnr (getTimestamp now duplicateVtime))), false) := by
  unfold olsrMessageIsDuplicate; rw [h]

theorem olsrMessageIsDuplicate_some {set : DuplicateSet} {ip : IpAddr} {entry : DupEntry} (h : set ip = some entry)
    (now : UInt32) (seqnr : UInt16) : olsrMessageIsDuplicate now set ip seqnr =
      (Function.update set ip (some (checkEntry (refreshValidUntil now entry) seqnr).1),
        (checkEntry (refreshValidUntil now entry) seqnr).2) := by
  unfold olsrMessageIsDuplicate; rw [h]

/-- What `olsr_message_is_duplicate` answers and leaves for the message's originator. -/
theorem olsrMessageIsDuplicate_spec {set : DuplicateSet} {now : UInt32} {m : Message} {entry : DupEntry}
    {newest : Int} {marked : Int → Prop} (he : set m.originator = some entry)
    (ht : Tracks entry newest marked) (h1 : m.number - newest < 2 ^ 15) (h2 : newest - m.number < 2 ^ 15)
    (hr : ¬ TooLowReset set m) :
    ∃ entry', (olsrMessageIsDuplicate now set m.originator (seqno m.number)).1 m.originator = some entry' ∧
      ((olsrMessageIsDuplicate now set m.originator (seqno m.number)).2 = false ↔
        newest < m.number ∨ (newest - m.number ≤ 31 ∧ ¬ marked m.number)) ∧
      Tracks entry' (max newest m.number)
        (markIf (!(olsrMessageIsDuplicate now set m.originator (seqno m.number)).2) marked m.number) := by
  -- the new timestamp touches none of the fields the check reads
  have ht' := ht.congr (refreshValidUntil_seqnr now entry) (refreshValidUntil_array now entry)
  have hspec := checkEntry_spec ht' h1 h2 (by
    rw [refreshValidUntil_seqnr, refreshValidUntil_tooLowCounter]
    exact fun h => hr ⟨entry, he, h⟩)
  rw [olsrMessageIsDuplicate_some he]
  generalize checkEntry (refreshValidUntil now entry) (seqno m.number) = checked at hspec ⊢
  exact ⟨checked.1, Function.update_self _ _ _, hspec⟩

theorem olsrMessageIsDuplicate_other (now : UInt32) (set : DuplicateSet) {ip o : IpAddr} (seqnr : UInt16)
    (h : o ≠ ip) : (olsrMessageIsDuplicate now set ip seqnr).1 o = set o := by
  cases hs : set ip with
  | none => rw [olsrMessageIsDuplicate_none hs]; exact Function.update_of_ne h _ _
  | some entry => rw [olsrMessageIsDuplicate_some hs]; exact Function.update_of_ne h _ _

/-- An event that presents a message asks `olsr_message_is_duplicate` about it, and relays it only if
the answer is no. -/
theorem step_presents {node : Node} {e : Event} {m : Message} (h : presents node e = some m) :
    ∃ relayed, (step node e).1.duplicateSet =
        (olsrMessageIsDuplicate node.world.nowTimes node.duplicateSet m.originator (seqno m.number)).1 ∧
      (step node e).2 = some ⟨m,
        (olsrMessageIsDuplicate node.world.nowTimes node.duplicateSet m.originator (seqno m.number)).2, relayed⟩ ∧
      (relayed = true →
        (olsrMessageIsDuplicate node.world.nowTimes node.duplicateSet m.originator (seqno m.number)).2 = false) := by
  cases e with
  | check m' =>
    obtain rfl : m' = m := by simpa [presents] using h
    exact ⟨false, rfl, rfl, by simp⟩
  | forward m' inIf fromAddr =>
    by_cases hf : forwardsFor node.world fromAddr = true
    · obtain rfl : m' = m := by simpa [presents, hf] using h
      cases hdup : (olsrMessageIsDuplicate node.world.nowTimes node.duplicateSet m'.originator
        (seqno m'.number)).2 with
      | true => exact ⟨false, by simp [step, olsrForwardMessage, hf, hdup], by
          simp [step, olsrForwardMessage, hf, hdup], by simp⟩
      | false => exact ⟨true, by simp [step, olsrForwardMessage, hf, hdup], by
          simp [step, olsrForwardMessage, hf, hdup], by simp⟩
    · simp [presents, hf] at h
  | cleanupTimer => cases h
  | cleanupDuplicates orig => cases h
  | world w => cases h

/-- An event that presents no message of `o` and does not end its life keeps what its entry tracks. -/
theorem step_other {o : IpAddr} {node : Node} {e : Event} {entry : DupEntry} {newest : Int} {marked : Int → Prop}
    (he : node.duplicateSet o = some entry) (ht : Tracks entry newest marked)
    (hp : ∀ m, presents node e = some m → m.originator ≠ o) (hl : ¬ EndsLife o node e) :
    (∃ entry', (step node e).1.duplicateSet o = some entry' ∧ Tracks entry' newest marked) ∧
      ∀ r ∈ (step node e).2, r.message.originator ≠ o := by
  cases hm : presents node e with
  | some m =>
    obtain ⟨relayed, hset, hrec, -⟩ := step_presents hm
    have hne := hp m hm
    refine ⟨⟨entry, ?_, ht⟩, ?_⟩
    · rw [hset, olsrMessageIsDuplicate_other _ _ _ (Ne.symm hne), he]
    · rw [hrec]; rintro r hr
      obtain rfl := Option.mem_some.1 hr
      exact hne
  | none =>
    cases e with
    | check m => cases hm
    | forward m inIf fromAddr =>
      have hf : forwardsFor node.world fromAddr = false := by simpa [presents] using hm
      refine ⟨⟨entry, ?_, ht⟩, ?_⟩
      · simp [step, olsrForwardMessage, hf, he]
      · simp [step, hf]
    | cleanupTimer =>
      refine ⟨?_, by simp [step]⟩
      have hkeep : (olsrCleanupDuplicateEntry node.world.nowTimes node.duplicateSet) o ≠ none :=
        fun h => hl (.inr h)
      have heq : (step node .cleanupTimer).1.duplicateSet o = some entry := by
        show (node.duplicateSet o).filter _ = some entry
        unfold olsrCleanupDuplicateEntry at hkeep
        rw [he] at hkeep ⊢
        rw [Option.filter_some] at hkeep ⊢
        split_ifs at hkeep ⊢ with hv
        · rfl
        · exact absurd rfl hkeep
      exact ⟨entry, heq, ht⟩
    | cleanupDuplicates orig =>
      refine ⟨?_, by simp [step]⟩
      show ∃ entry', olsrCleanupDuplicates node.duplicateSet orig o = some entry' ∧ _
      unfold olsrCleanupDuplicates
      by_cases ho : o = orig
      · subst ho
        rw [Function.update_self, he]
        exact ⟨_, rfl, ht.congr rfl rfl⟩
      · rw [Function.update_of_ne ho, he]
        exact ⟨_, rfl, ht⟩
    | world w => exact ⟨⟨entry, he, ht⟩, by simp [step]⟩

/-! ## A whole life -/

/-- What holds of the records of the rest of a life. -/
structure LifeFrom (newest : Int) (marked : Int → Prop) (rs : List Record) : Prop where
  once : ∀ n, letThrough n rs ≤ 1
  blocked : ∀ n, marked n → letThrough n rs = 0
  fresh : ∀ pre r post, rs = pre ++ r :: post → newest < r.message.number →
    (∀ p ∈ pre, p.message.number < r.message.number) → r.duplicate = false
  replayed : ∀ n ≤ newest, ¬ marked n →
    (0 < letThrough n rs ↔ Replayed n newest (rs.map fun r => r.message.number))
  relayed : ∀ r ∈ rs, r.relayed = true → r.duplicate = false

theorem lifeFrom_nil (newest : Int) (marked : Int → Prop) : LifeFrom newest marked [] :=
  ⟨by simp [letThrough], by simp [letThrough], by simp, by simp [letThrough, Replayed], by simp⟩

theorem letThrough_cons_self {r : Record} (h : r.duplicate = false) (rs : List Record) :
    letThrough r.message.number (r :: rs) = letThrough r.message.number rs + 1 := by
  simp [letThrough, h]

theorem letThrough_cons_duplicate {r : Record} (h : r.duplicate = true) (n : Int) (rs : List Record) :
    letThrough n (r :: rs) = letThrough n rs := by
  simp [letThrough, h]

theorem letThrough_cons_ne {r : Record} {n : Int} (h : r.message.number ≠ n) (rs : List Record) :
    letThrough n (r :: rs) = letThrough n rs := by
  simp [letThrough, h]

/-- One more message in front of the rest of a life. -/
theorem lifeFrom_cons {newest : Int} {marked : Int → Prop} {r : Record} {rs : List Record}
    (hle : ∀ n, marked n → n ≤ newest)
    (hd : r.duplicate = false ↔
      newest < r.message.number ∨ (newest - r.message.number ≤ 31 ∧ ¬ marked r.message.number))
    (hrel : r.relayed = true → r.duplicate = false)
    (h : LifeFrom (max newest r.message.number) (markIf (!r.duplicate) marked r.message.number) rs) :
    LifeFrom newest marked (r :: rs) := by
  have hself : r.duplicate = false → letThrough r.message.number rs = 0 := fun hf =>
    h.blocked _ (.inr ⟨by rw [hf]; rfl, rfl⟩)
  refine ⟨?_, ?_, ?_, ?_, ?_⟩
  · intro n
    cases hdup : r.duplicate with
    | true => rw [letThrough_cons_duplicate hdup]; exact h.once n
    | false =>
      by_cases hn : r.message.number = n
      · subst hn; rw [letThrough_cons_self hdup, hself hdup]
      · rw [letThrough_cons_ne hn]; exact h.once n
  · intro n hn
    cases hdup : r.duplicate with
    | true => rw [letThrough_cons_duplicate hdup]; exact h.blocked n (.inl hn)
    | false =>
      by_cases hrn : r.message.number = n
      · subst hrn
        rcases hd.1 hdup with hlt | ⟨-, hnot⟩
        · have := hle _ hn; omega
        · exact absurd hn hnot
      · rw [letThrough_cons_ne hrn]; exact h.blocked n (.inl hn)
  · intro pre r' post heq hlt hpre
    cases pre with
    | nil =>
      obtain ⟨rfl, -⟩ := List.cons.inj heq
      exact hd.2 (.inl hlt)
    | cons p pre =>
      obtain ⟨rfl, hrs⟩ := List.cons.inj heq
      have hp := hpre r (List.mem_cons_self ..)
      exact h.fresh pre r' post hrs (max_lt hlt hp) fun q hq => hpre q (List.mem_cons_of_mem _ hq)
  · intro n hn hnot
    rw [List.map_cons, Replayed]
    have hn' : n ≤ max newest r.message.number := le_trans hn (le_max_left _ _)
    by_cases hrn : r.message.number = n
    · subst hrn
      cases hdup : r.duplicate with
      | false =>
        rw [letThrough_cons_self hdup]
        rcases hd.1 hdup with hlt | ⟨hold, -⟩
        · omega
        · exact iff_of_true (Nat.succ_pos _) (.inl ⟨rfl, hold⟩)
      | true =>
        have hfar : ¬ newest - r.message.number ≤ 31 := by
          intro hnear
          rw [hd.2 (.inr ⟨hnear, hnot⟩)] at hdup; cases hdup
        rw [letThrough_cons_duplicate hdup]
        have := h.replayed _ hn' (by rw [hdup]; simpa using hnot)
        rw [this]; simp [hfar]
    · have hnot' : ¬ markIf (!r.duplicate) marked r.message.number n := by
        rintro (hm | ⟨-, rfl⟩)
        · exact hnot hm
        · exact hrn rfl
      rw [letThrough_cons_ne hrn, h.replayed _ hn' hnot']
      simp [hrn]
  · intro r' hr'
    rcases List.mem_cons.1 hr' with rfl | hr'
    · exact hrel
    · exact h.relayed r' hr'

theorem recordsOf_cons (o : IpAddr) (node : Node) (e : Event) (es : List Event) :
    recordsOf o (records node (e :: es)) =
      recordsOf o (step node e).2.toList ++ recordsOf o (records (step node e).1 es) := by
  simp [recordsOf, records]

/-- The rest of a life of the entry of `o`, from any point of it. -/
theorem life_from {o : IpAddr} : ∀ (es : List Event) (node : Node) (entry : DupEntry) (newest : Int)
    (marked : Int → Prop), node.duplicateSet o = some entry → Tracks entry newest marked →
    LifeLasts o node es → InWindow newest ((recordsOf o (records node es)).map fun r => r.message.number) →
    LifeFrom newest marked (recordsOf o (records node es))
  | [], node, entry, newest, marked, _, _, _, _ => lifeFrom_nil newest marked
  | e :: es, node, entry, newest, marked, he, ht, ⟨hl, hls⟩, hw => by
    by_cases hp : ∃ m, presents node e = some m ∧ m.originator = o
    · obtain ⟨m, hm, rfl⟩ := hp
      obtain ⟨relayed, hset, hrec, hrel⟩ := step_presents hm
      have hsplit := recordsOf_cons m.originator node e es
      rw [hrec] at hsplit
      simp only [Option.toList_some, recordsOf, List.filter_cons, beq_self_eq_true, if_true,
        List.filter_nil, List.singleton_append] at hsplit
      simp only [recordsOf] at hw ⊢
      rw [hsplit] at hw ⊢
      obtain ⟨h1, h2, hw'⟩ := hw
      obtain ⟨entry', he', hd, ht'⟩ := olsrMessageIsDuplicate_spec he ht h1 h2
        fun hreset => hl (.inl ⟨m, hm, rfl, hreset⟩)
      exact lifeFrom_cons ht.le hd hrel
        (life_from es _ entry' _ _ (by rw [hset]; exact he') ht' hls hw')
    · have hne : ∀ m, presents node e = some m → m.originator ≠ o := fun m hm ho => hp ⟨m, hm, ho⟩
      obtain ⟨⟨entry', he', ht'⟩, hrec⟩ := step_other he ht hne hl
      have hnone : recordsOf o (step node e).2.toList = [] := by
        refine List.filter_eq_nil_iff.2 fun r hr => ?_
        simpa using hrec r (Option.mem_toList.1 hr)
      rw [recordsOf_cons, hnone, List.nil_append] at hw ⊢
      exact life_from es _ entry' newest marked he' ht' hls hw

/-! ## From the creating message on -/

theorem relays_le_letThrough {rs : List Record} (h : ∀ r ∈ rs, r.relayed = true → r.duplicate = false) (n : Int) :
    relays n rs ≤ letThrough n rs := by
  refine List.countP_mono_left fun r hr hn => ?_
  simp only [Bool.and_eq_true] at hn
  simp [hn.1, h r hr hn.2]

/-- A message that is let through in front of a rest of a life that lets its number not through. -/
theorem lifeOk_of_lifeFrom {m : Message} {relayed : Bool} {marked : Int → Prop} {rs : List Record}
    (h : LifeFrom m.number marked rs) (hzero : letThrough m.number rs = 0) :
    LifeOk (⟨m, false, relayed⟩ :: rs) := by
  have honce : ∀ n, letThrough n (⟨m, false, relayed⟩ :: rs) ≤ 1 := by
    intro n
    by_cases hn : m.number = n
    · subst hn
      rw [letThrough_cons_self (r := ⟨m, false, relayed⟩) rfl, hzero]
    · rw [letThrough_cons_ne hn]; exact h.once n
  refine ⟨honce, ?_, fun n => le_trans (relays_le_letThrough ?_ n) (honce n)⟩
  · intro pre r post heq hpre
    cases pre with
    | nil => obtain ⟨rfl, -⟩ := List.cons.inj heq; rfl
    | cons p pre =>
      obtain ⟨rfl, hrs⟩ := List.cons.inj heq
      exact h.fresh pre r post hrs (hpre _ (List.mem_cons_self ..))
        fun q hq => hpre q (List.mem_cons_of_mem _ hq)
  · intro r hr
    rcases List.mem_cons.1 hr with rfl | hr
    · intro _; rfl
    · exact h.relayed r hr

theorem recordsOf_presented {node : Node} {e : Event} {m : Message} {relayed : Bool} (es : List Event)
    (hrec : (step node e).2 = some ⟨m, false, relayed⟩) :
    recordsOf m.originator (records node (e :: es)) =
      ⟨m, false, relayed⟩ :: recordsOf m.originator (records (step node e).1 es) := by
  rw [recordsOf_cons, hrec]; simp [recordsOf]

/-- A too-low reset marks its own number, so the life that starts with it is always as it should be. -/
theorem life_ok_after_reset (node : Node) (e : Event) (m : Message) (es : List Event)
    (hm : presents node e = some m) (hreset : TooLowReset node.duplicateSet m)
    (hlife : LifeLasts m.originator (step node e).1 es)
    (hwin : InWindow m.number
      ((recordsOf m.originator (records (step node e).1 es)).map fun r => r.message.number)) :
    LifeOk (recordsOf m.originator (records node (e :: es))) := by
  obtain ⟨entry, he, hdiff, hlow⟩ := hreset
  obtain ⟨relayed, hset, hrec, -⟩ := step_presents hm
  have hcheck : checkEntry (refreshValidUntil node.world.nowTimes entry) (seqno m.number) =
      ({ refreshValidUntil node.world.nowTimes entry with tooLowCounter := 0, seqnr := seqno m.number, array := 1 },
        false) := by
    unfold checkEntry
    rw [refreshValidUntil_seqnr, refreshValidUntil_tooLowCounter]
    rw [if_pos hdiff, if_pos hlow]
  rw [olsrMessageIsDuplicate_some he, hcheck] at hset hrec
  have ht : Tracks { refreshValidUntil node.world.nowTimes entry with
      tooLowCounter := 0, seqnr := seqno m.number, array := 1 } m.number fun i => False ∨ i = m.number :=
    ⟨rfl, holds_restart (by simp) (show m.number - 32 + (32 : Nat) ≤ m.number by push_cast; omega), by simp⟩
  have hrest := life_from es _ _ _ _ (by rw [hset]; exact Function.update_self _ _ _) ht hlife hwin
  rw [recordsOf_presented es hrec]
  exact lifeOk_of_lifeFrom hrest (hrest.blocked _ (.inr rfl))

/-- The entry that the creating message leaves tracks its number, but does not have it marked. -/
theorem tracks_create (n : Int) (validUntil : UInt32) :
    Tracks (olsrCreateDuplicateEntry (seqno n) validUntil) n fun _ => False :=
  ⟨rfl, holds_zero (by simp), by simp⟩

/-- A life of an originator's duplicate entry from the message `m` that creates it on, with any events
of other originators, timers and other parts of the node in between: it is as it should be exactly
when the number of `m` does not come again while it is at most 31 behind the newest. -/
theorem life_ok_iff (node : Node) (e : Event) (m : Message) (es : List Event)
    (hm : presents node e = some m) (hnew : node.duplicateSet m.originator = none)
    (hlife : LifeLasts m.originator (step node e).1 es)
    (hwin : InWindow m.number
      ((recordsOf m.originator (records (step node e).1 es)).map fun r => r.message.number)) :
    LifeOk (recordsOf m.originator (records node (e :: es))) ↔
      ¬ Replayed m.number m.number
        ((recordsOf m.originator (records (step node e).1 es)).map fun r => r.message.number) := by
  obtain ⟨relayed, hset, hrec, -⟩ := step_presents hm
  rw [olsrMessageIsDuplicate_none hnew] at hset hrec
  have hrest := life_from es _ _ _ _ (by rw [hset]; exact Function.update_self _ _ _)
    (tracks_create m.number _) hlife hwin
  rw [recordsOf_presented es hrec, ← hrest.replayed m.number le_rfl (by simp)]
  constructor
  · intro hok
    have honce := hok.atMostOnce m.number
    have htwice := letThrough_cons_self (r := ⟨m, false, relayed⟩) rfl
      (recordsOf m.originator (records (step node e).1 es))
    dsimp only at htwice
    omega
  · intro hzero
    exact lifeOk_of_lifeFrom hrest (by omega)

/-! ## The creating message twice -/

/-- A node that knows nothing yet. -/
def freshNode : Node where
  world := ⟨0, fun _ => none, fun _ => some .sym, fun _ => true, [⟨false, 1496, 0, 0⟩]⟩
  duplicateSet := fun _ => none

/-- The first message of 10.0.0.2, from a neighbour that has chosen this node as MPR. -/
def firstMessage : Message := ⟨[10, 0, 0, 2], 100, 8, 0, 20⟩

def receiveFirst : Event := .forward firstMessage 0 [10, 0, 0, 3]

/-- The first message of an originator, received twice, is let through and relayed twice. -/
theorem firstMessage_relayed_twice :
    ¬ ∀ (node : Node) (e : Event) (m : Message) (es : List Event), presents node e = some m →
      node.duplicateSet m.originator = none → LifeLasts m.originator (step node e).1 es →
      InWindow m.number ((recordsOf m.originator (records (step node e).1 es)).map fun r => r.message.number) →
      LifeOk (recordsOf m.originator (records node (e :: es))) := by
  intro h
  have hok := h freshNode receiveFirst firstMessage [receiveFirst] rfl rfl ?_ ?_
  · exact absurd (hok.relayedOnce 100) (by decide)
  · refine ⟨?_, trivial⟩
    rintro (⟨m, hm, -, entry, he, hdiff, -⟩ | hnone)
    · obtain rfl := Option.some.inj hm
      obtain rfl := Option.some.inj he
      revert hdiff; decide
    · revert hnone; decide
  · exact ⟨by decide, by decide, trivial⟩

/-- Later messages of 10.0.0.2 with numbers in this order, and messages of 10.0.0.7 in between. -/
def receiveLater (numbers : List Int) : List Event :=
  numbers.flatMap fun n =>
    [.forward ⟨[10, 0, 0, 2], n, 8, 0, 20⟩ 0 [10, 0, 0, 3], .forward ⟨[10, 0, 0, 7], n + 7, 8, 0, 20⟩ 0 [10, 0, 0, 3]]

/-- A life in which numbers come late and again; that of the creating message does when it is 40 behind. -/
theorem life_ok_of_firstMessage : LifeOk (recordsOf [10, 0, 0, 2]
    (records freshNode (receiveFirst :: receiveLater [102, 101, 102, 140, 101, 120, 100, 140]))) :=
  (life_ok_iff freshNode receiveFirst firstMessage (receiveLater [102, 101, 102, 140, 101, 120, 100, 140]) rfl rfl
    (by decide +kernel) (by decide +kernel)).2 (by decide +kernel)

end Olsrd.Flood
