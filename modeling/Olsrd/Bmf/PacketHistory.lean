/-
The history of multicast packets of the BMF plugin, `PacketHistory.c`: a hash table of singly linked chains, in which a
packet is marked by the CRC of its contents, and from which entries are pruned when their time is over.
-/
import Olsrd.Lib.Chain
import Olsrd.Lib.Run
import Olsrd.Timers.Clock

namespace Olsrd.Bmf

open Chain (Seg Walk seg_nil seg_cons seg_append seg_concat)
open Olsrd.Timers (olsrGetTimestamp olsrIsTimedOut olsrIsTimedOut_iff Expires)

abbrev Ptr := Nat

def historyHashSize : Nat := 4096

/-- `HISTORY_HOLD_TIME`, in milliseconds -/
def historyHoldTime : BitVec 32 := 3000#32

/-- `struct TDupEntry` without its link -/
structure TDupEntry where
  crc32 : BitVec 32
  timeOut : BitVec 32
  deriving DecidableEq, Repr

/-- The entries with their links in memory, and where the chains start. The memory that `olsr_malloc` hands out is at
`fresh`. -/
structure History where
  packetHistory : Nat → Option Ptr
  entry : Ptr → Option (TDupEntry × Option Ptr)
  fresh : Ptr

/-- `Hash` -/
def hash (from32 : BitVec 32) : Nat := ((from32 >>> 12 + from32) &&& 4095#32).toNat

/-- `InitPacketHistory` -/
def initPacketHistory : History := ⟨fun _ => none, fun _ => none, 0⟩

/-! ## Checking and marking -/

/-- The loop of `CheckAndMarkRecentPacket`, with a bound on its rounds. -/
def findEntry (entry : Ptr → Option (TDupEntry × Option Ptr)) (crc32 : BitVec 32) :
    Nat → Option Ptr → Option (Option Ptr)
  | _, none => some none
  | 0, some _ => none
  | rounds + 1, some walker => do
    let (e, next) ← entry walker
    if e.crc32 = crc32 then pure (some walker) else findEntry entry crc32 rounds next

/-- `CheckAndMarkRecentPacket`; a chain has at most as many entries as were ever allocated. -/
def checkAndMarkRecentPacket (nowTimes : BitVec 32) (s : History) (crc32 : BitVec 32) : Option (Bool × History) := do
  let idx := hash crc32
  match ← findEntry s.entry crc32 s.fresh (s.packetHistory idx) with
  | some walker =>
    let (e, next) ← s.entry walker
    -- always mark as "seen recently": refresh time-out
    let e := { e with timeOut := olsrGetTimestamp nowTimes historyHoldTime }
    pure (true, { s with entry := Function.update s.entry walker (some (e, next)) })
  | none =>
    let newEntry := ⟨crc32, olsrGetTimestamp nowTimes historyHoldTime⟩
    pure (false, ⟨Function.update s.packetHistory idx (some s.fresh),
      Function.update s.entry s.fresh (some (newEntry, s.packetHistory idx)), s.fresh + 1⟩)

/-! ## Pruning -/

/-- What the pruning of a chain works on. -/
structure Bucket where
  head : Option Ptr
  entry : Ptr → Option (TDupEntry × Option Ptr)

/-- De-queue what is between `prevEntry` and `next`. -/
def dequeue (b : Bucket) (prevEntry next : Option Ptr) : Option Bucket :=
  match prevEntry with
  | some q => do
    let (e, _) ← b.entry q
    pure { b with entry := Function.update b.entry q (some (e, next)) }
  | none => some { b with head := next }

/-- The inner loop of `PrunePacketHistory`, with a bound on its rounds. -/
def pruneChain (nowTimes : BitVec 32) : Nat → Option Ptr → Option Ptr → Bucket → Option Bucket
  | _, none, _, b => some b
  | 0, some _, _, _ => none
  | rounds + 1, some entry, prevEntry, b => do
    let (e, next) ← b.entry entry
    if olsrIsTimedOut nowTimes e.timeOut then do
      let b ← dequeue b prevEntry next
      pruneChain nowTimes rounds next prevEntry { b with entry := Function.update b.entry entry none }
    else pruneChain nowTimes rounds next (some entry) b

/-- One bucket of the table. -/
def pruneBucket (nowTimes : BitVec 32) (s : History) (i : Nat) : Option History := do
  let b ← pruneChain nowTimes s.fresh (s.packetHistory i) none ⟨s.packetHistory i, s.entry⟩
  pure { s with packetHistory := Function.update s.packetHistory i b.head, entry := b.entry }

/-- `PrunePacketHistory` -/
def prunePacketHistory (nowTimes : BitVec 32) (s : History) : Option History :=
  Run.forEach (pruneBucket nowTimes) (List.range historyHashSize) s

/-! ## The chains -/

/-- The entries of every chain: each in the bucket of its hash, and one for a CRC. -/
structure Chained (s : History) (l : Nat → List (Ptr × TDupEntry)) : Prop where
  seg : ∀ i, Seg s.entry (s.packetHistory i) (l i) none
  bucket : ∀ i, ∀ x ∈ l i, hash x.2.crc32 = i
  ptrs : ∀ i, ((l i).map Prod.fst).Nodup
  crcs : ∀ i, ((l i).map fun x => x.2.crc32).Nodup
  fresh : ∀ i, ∀ x ∈ l i, x.1 < s.fresh

variable {s : History} {l : Nat → List (Ptr × TDupEntry)} {crc32 nowTimes : BitVec 32}

theorem chained_init : Chained initPacketHistory fun _ => [] :=
  ⟨fun _ => rfl, fun _ _ h => absurd h (List.not_mem_nil), fun _ => List.nodup_nil, fun _ => List.nodup_nil,
    fun _ _ h => absurd h (List.not_mem_nil)⟩

/-- Different buckets share no entry. -/
theorem Chained.disjoint (h : Chained s l) {i j : Nat} {x : Ptr × TDupEntry} (hx : x ∈ l i) (hij : j ≠ i) :
    x.1 ∉ (l j).map Prod.fst := by
  intro hmem
  obtain ⟨y, hy, heq⟩ := List.mem_map.1 hmem
  obtain ⟨next, hnext⟩ := (h.seg i).value hx
  obtain ⟨next', hnext'⟩ := (h.seg j).value hy
  rw [heq] at hnext'
  obtain ⟨hval, -⟩ := Prod.mk.inj (Option.some.inj (hnext.symm.trans hnext'))
  exact hij (by rw [← h.bucket j y hy, ← h.bucket i x hx, hval])

/-- A chain is not longer than the number of allocations. -/
theorem Chained.length_le (h : Chained s l) (i : Nat) : (l i).length ≤ s.fresh := by
  have hsub : (l i).map Prod.fst ⊆ List.range s.fresh := by
    intro p hp
    obtain ⟨x, hx, rfl⟩ := List.mem_map.1 hp
    exact List.mem_range.2 (h.fresh i x hx)
  have hle := (List.subperm_of_subset (h.ptrs i) hsub).length_le
  rwa [List.length_map, List.length_range] at hle

/-- One chain is replaced by another one that is right, and nothing else changes. -/
theorem Chained.update (h : Chained s l) {s' : History} {i : Nat} {k : List (Ptr × TDupEntry)}
    (hseg : Seg s'.entry (s'.packetHistory i) k none) (hbucket : ∀ x ∈ k, hash x.2.crc32 = i)
    (hptrs : (k.map Prod.fst).Nodup) (hcrcs : (k.map fun x => x.2.crc32).Nodup) (hfresh : ∀ x ∈ k, x.1 < s'.fresh)
    (hle : s.fresh ≤ s'.fresh) (hheads : ∀ j, j ≠ i → s'.packetHistory j = s.packetHistory j)
    (hsame : ∀ j, j ≠ i → ∀ p ∈ (l j).map Prod.fst, s'.entry p = s.entry p) :
    Chained s' (Function.update l i k) := by
  have hsplit : ∀ {P : Nat → List (Ptr × TDupEntry) → Prop}, P i k → (∀ j, j ≠ i → P j (l j)) →
      ∀ j, P j (Function.update l i k j) := by
    intro P hi hne j
    by_cases hj : j = i
    · rw [hj, Function.update_self]
      exact hi
    · rw [Function.update_of_ne hj]
      exact hne j hj
  constructor
  · refine hsplit (P := fun j k => Seg s'.entry (s'.packetHistory j) k none) hseg fun j hj => ?_
    rw [hheads j hj]
    exact (h.seg j).congr (hsame j hj)
  · exact hsplit (P := fun j k => ∀ x ∈ k, hash x.2.crc32 = j) hbucket fun j _ => h.bucket j
  · exact hsplit (P := fun _ k => (k.map Prod.fst).Nodup) hptrs fun j _ => h.ptrs j
  · exact hsplit (P := fun _ k => (k.map fun x => x.2.crc32).Nodup) hcrcs fun j _ => h.crcs j
  · exact hsplit (P := fun _ k => ∀ x ∈ k, x.1 < s'.fresh) hfresh fun j _ x hx => lt_of_lt_of_le (h.fresh j x hx) hle

/-! ## What marking does -/

/-- The table has an entry for the CRC, with a time. -/
def Marked (l : Nat → List (Ptr × TDupEntry)) (crc32 timeOut : BitVec 32) : Prop :=
  ∃ i p, (p, ⟨crc32, timeOut⟩) ∈ l i

theorem findEntry_spec {entry : Ptr → Option (TDupEntry × Option Ptr)} : ∀ {l : List (Ptr × TDupEntry)} {rounds : Nat}
    {p : Option Ptr}, Seg entry p l none → l.length ≤ rounds →
    findEntry entry crc32 rounds p = some ((l.find? fun x => decide (x.2.crc32 = crc32)).map Prod.fst)
  | [], rounds, p, h, _ => by
    rw [seg_nil] at h
    subst h
    cases rounds <;> rfl
  | (w, e) :: l, 0, p, _, hlen => by simp at hlen
  | (w, e) :: l, rounds + 1, p, h, hlen => by
    obtain ⟨rfl, next, hw, hseg⟩ := h
    rw [findEntry, hw, Option.bind_eq_bind, Option.bind_some]
    dsimp only
    by_cases heq : e.crc32 = crc32
    · rw [if_pos heq, List.find?_cons_of_pos (by simpa using heq)]
      rfl
    · rw [if_neg heq, List.find?_cons_of_neg (by simpa using heq)]
      exact findEntry_spec hseg (Nat.le_of_succ_le_succ hlen)

/-- The entry is refreshed. -/
theorem Chained.refresh (h : Chained s l) {l₁ l₂ : List (Ptr × TDupEntry)} {w : Ptr} {e : TDupEntry} {next : Option Ptr}
    (hl : l (hash e.crc32) = l₁ ++ (w, e) :: l₂) (hw : s.entry w = some (e, next)) (timeOut : BitVec 32) :
    Chained { s with entry := Function.update s.entry w (some ({ e with timeOut := timeOut }, next)) }
      (Function.update l (hash e.crc32) (l₁ ++ (w, { e with timeOut := timeOut }) :: l₂)) := by
  have hmem : (w, e) ∈ l (hash e.crc32) := hl ▸ List.mem_append_right _ (List.mem_cons_self ..)
  have hptrs := h.ptrs (hash e.crc32)
  have hcrcs := h.crcs (hash e.crc32)
  have hbucket := h.bucket (hash e.crc32)
  have hfresh := h.fresh (hash e.crc32)
  rw [hl] at hptrs hcrcs hbucket hfresh
  have hout : w ∉ l₁.map Prod.fst ∧ w ∉ l₂.map Prod.fst := by
    rw [List.map_append, List.map_cons, List.nodup_middle, List.nodup_cons, List.mem_append, not_or] at hptrs
    exact hptrs.1
  have hold : ∀ x ∈ l₁ ++ (w, { e with timeOut := timeOut }) :: l₂, x = (w, { e with timeOut := timeOut }) ∨
      x ∈ l₁ ++ (w, e) :: l₂ := by
    intro x hx
    simp only [List.mem_append, List.mem_cons] at hx ⊢
    tauto
  refine h.update ((hl ▸ h.seg (hash e.crc32)).update_value hw hout.1 hout.2) ?_ ?_ ?_ ?_ (le_refl _)
    (fun _ _ => rfl) ?_
  · intro x hx
    rcases hold x hx with rfl | hx
    · rfl
    · exact hbucket x hx
  · simpa using hptrs
  · simpa using hcrcs
  · intro x hx
    rcases hold x hx with rfl | hx
    · exact hfresh (w, e) (List.mem_append_right _ (List.mem_cons_self ..))
    · exact hfresh x hx
  · intro j hj p hp
    refine Function.update_of_ne ?_ ..
    rintro rfl
    exact h.disjoint hmem hj hp

/-- A new entry comes to the front of its chain. -/
theorem Chained.push (h : Chained s l) (hnew : ∀ x ∈ l (hash crc32), x.2.crc32 ≠ crc32) (timeOut : BitVec 32) :
    Chained ⟨Function.update s.packetHistory (hash crc32) (some s.fresh),
        Function.update s.entry s.fresh (some (⟨crc32, timeOut⟩, s.packetHistory (hash crc32))), s.fresh + 1⟩
      (Function.update l (hash crc32) ((s.fresh, ⟨crc32, timeOut⟩) :: l (hash crc32))) := by
  have hfresh : ∀ i, s.fresh ∉ (l i).map Prod.fst := by
    intro i hmem
    obtain ⟨x, hx, heq⟩ := List.mem_map.1 hmem
    exact absurd (h.fresh i x hx) (by rw [heq]; exact lt_irrefl _)
  refine h.update ?_ ?_ ?_ ?_ ?_ (Nat.le_succ _) ?_ ?_
  · exact ⟨Function.update_self .., _, Function.update_self .., (h.seg (hash crc32)).update (hfresh _) _⟩
  · intro x hx
    rcases List.mem_cons.1 hx with rfl | hx
    · rfl
    · exact h.bucket _ x hx
  · exact List.nodup_cons.2 ⟨hfresh _, h.ptrs _⟩
  · refine List.nodup_cons.2 ⟨fun hmem => ?_, h.crcs _⟩
    obtain ⟨x, hx, heq⟩ := List.mem_map.1 hmem
    exact hnew x hx heq
  · intro x hx
    rcases List.mem_cons.1 hx with rfl | hx
    · exact Nat.lt_succ_self _
    · exact Nat.lt_succ_of_lt (h.fresh _ x hx)
  · exact fun j hj => Function.update_of_ne hj ..
  · intro j _ p hp
    refine Function.update_of_ne ?_ ..
    rintro rfl
    exact hfresh j hp

/-- A CRC has one entry at most. -/
theorem Chained.unique (h : Chained s l) {i j : Nat} {p q : Ptr} {e d : TDupEntry} (he : (p, e) ∈ l i)
    (hd : (q, d) ∈ l j) (hcrc : e.crc32 = d.crc32) : i = j ∧ p = q ∧ e = d := by
  obtain rfl : i = j := by rw [← h.bucket i _ he, ← h.bucket j _ hd, hcrc]
  obtain ⟨rfl, rfl⟩ := Prod.mk.inj (List.inj_on_of_nodup_map (h.crcs i) he hd hcrc)
  exact ⟨rfl, rfl, rfl⟩

/-- A table that has a new time for one CRC and is the same for all others. -/
theorem Chained.marked_of (h : Chained s l) {crc32 new : BitVec 32} (hnew : Marked l crc32 new)
    {k : Nat → List (Ptr × TDupEntry)}
    (hother : ∀ i p e, e.crc32 ≠ crc32 → ((p, e) ∈ l i ↔ (p, e) ∈ k i)) (c timeOut : BitVec 32) :
    Marked l c timeOut ↔ if c = crc32 then timeOut = new else Marked k c timeOut := by
  by_cases hc : c = crc32
  · subst hc
    rw [if_pos rfl]
    constructor
    · rintro ⟨i, p, hp⟩
      obtain ⟨j, q, hq⟩ := hnew
      exact congrArg TDupEntry.timeOut (h.unique hp hq rfl).2.2
    · rintro rfl
      exact hnew
  · rw [if_neg hc]
    exact exists_congr fun i => exists_congr fun p => hother i p _ hc

/-- The report is whether there is an entry, and then there is one with a new time. -/
theorem Chained.check (h : Chained s l) (nowTimes crc32 : BitVec 32) : ∃ r s' l',
    checkAndMarkRecentPacket nowTimes s crc32 = some (r, s') ∧ Chained s' l' ∧
    (r = true ↔ ∃ timeOut, Marked l crc32 timeOut) ∧
    ∀ c timeOut, Marked l' c timeOut ↔
      if c = crc32 then timeOut = olsrGetTimestamp nowTimes historyHoldTime else Marked l c timeOut := by
  have hfind := @findEntry_spec crc32 s.entry (l (hash crc32)) s.fresh _ (h.seg (hash crc32)) (h.length_le _)
  unfold checkAndMarkRecentPacket
  dsimp only
  rw [hfind, Option.bind_eq_bind, Option.bind_some]
  cases hlookup : (l (hash crc32)).find? fun x => decide (x.2.crc32 = crc32) with
  | some x =>
    obtain ⟨w, e⟩ := x
    obtain rfl : e.crc32 = crc32 := by simpa using List.find?_some hlookup
    have hmem : (w, e) ∈ l (hash e.crc32) := List.mem_of_find?_eq_some hlookup
    obtain ⟨l₁, l₂, hl⟩ := List.append_of_mem hmem
    obtain ⟨next, hw⟩ := (h.seg _).value hmem
    have h' := h.refresh hl hw (olsrGetTimestamp nowTimes historyHoldTime)
    simp only [Option.map_some, hw]
    refine ⟨true, _, _, rfl, h', iff_of_true rfl ⟨e.timeOut, _, w, hmem⟩, h'.marked_of ?_ ?_⟩
    · refine ⟨hash e.crc32, w, ?_⟩
      rw [Function.update_self]
      exact List.mem_append_right _ (List.mem_cons_self ..)
    · intro i p d hd
      by_cases hi : i = hash e.crc32
      · subst hi
        have hne : ∀ t, (p, d) ≠ (w, ⟨e.crc32, t⟩) := by
          rintro t heq
          exact hd (congrArg (fun x : Ptr × TDupEntry => x.2.crc32) heq)
        rw [Function.update_self, hl]
        simp only [List.mem_append, List.mem_cons, hne, false_or]
      · rw [Function.update_of_ne hi]
  | none =>
    have hnone : ∀ x ∈ l (hash crc32), x.2.crc32 ≠ crc32 := by
      intro x hx
      simpa using List.find?_eq_none.1 hlookup x hx
    have h' := h.push hnone (olsrGetTimestamp nowTimes historyHoldTime)
    refine ⟨false, _, _, rfl, h', ?_, h'.marked_of ?_ ?_⟩
    · refine iff_of_false (by decide) ?_
      rintro ⟨t, i, p, hp⟩
      obtain rfl := h.bucket i _ hp
      exact hnone _ hp rfl
    · refine ⟨hash crc32, s.fresh, ?_⟩
      rw [Function.update_self]
      exact List.mem_cons_self ..
    · intro i p d hd
      by_cases hi : i = hash crc32
      · subst hi
        have hne : (p, d) ≠ (s.fresh, ⟨crc32, olsrGetTimestamp nowTimes historyHoldTime⟩) := by
          rintro heq
          exact hd (congrArg (fun x : Ptr × TDupEntry => x.2.crc32) heq)
        rw [Function.update_self, List.mem_cons, or_iff_right hne]
      · rw [Function.update_of_ne hi]

/-! ## What pruning does -/

/-- The entries whose time is not over. -/
def kept (nowTimes : BitVec 32) (l : List (Ptr × TDupEntry)) : List (Ptr × TDupEntry) :=
  l.filter fun x => !olsrIsTimedOut nowTimes x.2.timeOut

section

variable {b : Bucket} {prevEntry p next : Option Ptr} {w : Ptr} {e : TDupEntry} {passed rest : List (Ptr × TDupEntry)}

theorem dequeue_eq (b : Bucket) (prevEntry next : Option Ptr) :
    dequeue b prevEntry next = (Chain.unlink b.entry b.head prevEntry next).map fun x => ⟨x.2, x.1⟩ := by
  cases prevEntry with
  | none => rfl
  | some q =>
    unfold dequeue Chain.unlink
    dsimp only
    cases b.entry q <;> rfl

theorem walk_keep (h : Walk b.entry b.head prevEntry (some w) passed ((w, e) :: rest))
    (hw : b.entry w = some (e, next)) : Walk b.entry b.head (some w) next (passed ++ [(w, e)]) rest := by
  have hwalk := h.keep (w := e) hw
  rw [← hw, Function.update_eq_self] at hwalk
  exact hwalk

/-- The entry is de-queued and freed; entries of other chains stay as they are. -/
theorem walk_dequeue (h : Walk b.entry b.head prevEntry (some w) passed ((w, e) :: rest))
    (hw : b.entry w = some (e, next)) : ∃ b', dequeue b prevEntry next = some b' ∧
      Walk (Function.update b'.entry w none) b'.head prevEntry next passed rest ∧
      ∀ p ∉ (passed ++ (w, e) :: rest).map Prod.fst, Function.update b'.entry w none p = b.entry p := by
  obtain ⟨entry, head, hunlink, hwalk, hother⟩ := h.remove hw
  refine ⟨⟨head, entry⟩, ?_, hwalk, hother⟩
  rw [dequeue_eq, hunlink]
  rfl

end

/-- The loop leaves the entries whose time is not over, in their order. -/
theorem pruneChain_spec (nowTimes : BitVec 32) : ∀ {rest : List (Ptr × TDupEntry)} {rounds : Nat}
    {passed : List (Ptr × TDupEntry)} {b : Bucket} {prevEntry p : Option Ptr},
    Walk b.entry b.head prevEntry p passed rest → rest.length ≤ rounds →
    ∃ b', pruneChain nowTimes rounds p prevEntry b = some b' ∧
      Seg b'.entry b'.head (passed ++ kept nowTimes rest) none ∧
      ∀ q ∉ (passed ++ rest).map Prod.fst, b'.entry q = b.entry q
  | [], rounds, passed, b, prevEntry, p, h, _ => by
    obtain rfl : p = none := h.ahead
    refine ⟨b, by cases rounds <;> rfl, ?_, fun _ _ => rfl⟩
    rw [kept, List.filter_nil, List.append_nil]
    exact h.behind
  | (w, e) :: rest, 0, passed, b, prevEntry, p, h, hlen => by simp at hlen
  | (w, e) :: rest, rounds + 1, passed, b, prevEntry, p, h, hlen => by
    obtain ⟨rfl, next, hw, -⟩ := h.ahead
    have hlen' : rest.length ≤ rounds := Nat.le_of_succ_le_succ hlen
    rw [pruneChain, hw, Option.bind_eq_bind, Option.bind_some]
    dsimp only
    cases hout : olsrIsTimedOut nowTimes e.timeOut with
    | true =>
      obtain ⟨b₁, hb₁, h₁, hother₁⟩ := walk_dequeue h hw
      have hfreed : Walk { b₁ with entry := Function.update b₁.entry w none }.entry b₁.head prevEntry next
        passed rest := h₁
      obtain ⟨b', hb', hseg, hother⟩ := pruneChain_spec nowTimes hfreed hlen'
      have hkept : kept nowTimes ((w, e) :: rest) = kept nowTimes rest :=
        List.filter_cons_of_neg (by simp [hout])
      rw [if_pos rfl, hb₁, Option.bind_eq_bind, Option.bind_some, hkept]
      refine ⟨b', hb', hseg, fun q hq => (hother q ?_).trans (hother₁ q hq)⟩
      simp only [List.map_append, List.map_cons, List.mem_append, List.mem_cons, not_or] at hq ⊢
      exact ⟨hq.1, hq.2.2⟩
    | false =>
      obtain ⟨b', hb', hseg, hother⟩ := pruneChain_spec nowTimes (walk_keep h hw) hlen'
      have hkept : kept nowTimes ((w, e) :: rest) = (w, e) :: kept nowTimes rest :=
        List.filter_cons_of_pos (by simp [hout])
      rw [if_neg (by decide), hkept]
      rw [List.append_assoc, List.singleton_append] at hseg hother
      exact ⟨b', hb', hseg, hother⟩

theorem Chained.pruneBucket (h : Chained s l) (nowTimes : BitVec 32) (i : Nat) :
    ∃ s', pruneBucket nowTimes s i = some s' ∧ Chained s' (Function.update l i (kept nowTimes (l i))) := by
  have hstart : Walk s.entry (s.packetHistory i) none (s.packetHistory i) [] (l i) :=
    ⟨rfl, h.seg i, by rw [List.nil_append]; exact h.ptrs i, rfl⟩
  obtain ⟨b', hb', hseg, hother⟩ :=
    @pruneChain_spec nowTimes _ _ _ ⟨s.packetHistory i, s.entry⟩ _ _ hstart (h.length_le i)
  have hsub : (kept nowTimes (l i)).Sublist (l i) := List.filter_sublist ..
  rw [Bmf.pruneBucket, hb']
  refine ⟨_, rfl, h.update ?_ ?_ ?_ ?_ ?_ (le_refl _) ?_ ?_⟩
  · change Seg b'.entry (Function.update s.packetHistory i b'.head i) _ _
    rw [Function.update_self]
    exact hseg
  · exact fun x hx => h.bucket i x (hsub.subset hx)
  · exact (h.ptrs i).sublist (hsub.map _)
  · exact (h.crcs i).sublist (hsub.map _)
  · exact fun x hx => h.fresh i x (hsub.subset hx)
  · exact fun j hj => Function.update_of_ne hj ..
  · intro j hj p hp
    refine hother p fun hmem => ?_
    obtain ⟨x, hx, rfl⟩ := List.mem_map.1 hp
    exact h.disjoint hx hj.symm hmem

theorem hash_lt (from32 : BitVec 32) : hash from32 < historyHashSize := by
  rw [hash, BitVec.toNat_and]
  exact lt_of_le_of_lt Nat.and_le_right (by decide)

/-- The chains after the buckets in `done` have been pruned. -/
def prunedIn (nowTimes : BitVec 32) (l : Nat → List (Ptr × TDupEntry)) (done : List Nat) (i : Nat) :
    List (Ptr × TDupEntry) :=
  if i ∈ done then kept nowTimes (l i) else l i

theorem prunedIn_concat (nowTimes : BitVec 32) (l : Nat → List (Ptr × TDupEntry)) (done : List Nat) (i : Nat) :
    prunedIn nowTimes l (done ++ [i]) =
      Function.update (prunedIn nowTimes l done) i (kept nowTimes (prunedIn nowTimes l done i)) := by
  have htwice : ∀ k, kept nowTimes (kept nowTimes k) = kept nowTimes k := fun k => by
    rw [kept, kept, List.filter_filter]
    simp
  funext j
  by_cases hj : j = i
  · subst hj
    rw [Function.update_self, prunedIn, if_pos (by simp), prunedIn]
    split
    · rw [htwice]
    · rfl
  · rw [Function.update_of_ne hj]
    simp [prunedIn, hj]

/-- Every chain is pruned. -/
theorem Chained.prune (h : Chained s l) (nowTimes : BitVec 32) :
    ∃ s', prunePacketHistory nowTimes s = some s' ∧ Chained s' fun i => kept nowTimes (l i) := by
  have hround : ∀ done i s₁, i ∈ List.range historyHashSize → Chained s₁ (prunedIn nowTimes l done) →
      ∃ s₂, Bmf.pruneBucket nowTimes s₁ i = some s₂ ∧ Chained s₂ (prunedIn nowTimes l (done ++ [i])) := by
    intro done i s₁ _ h₁
    rw [prunedIn_concat]
    exact h₁.pruneBucket nowTimes i
  have hnil : prunedIn nowTimes l [] = l := by
    funext i
    simp [prunedIn]
  obtain ⟨s', hs', hchained⟩ := Run.forEach_prefix hround (hnil ▸ h)
  refine ⟨s', hs', ?_⟩
  have hall : prunedIn nowTimes l (List.range historyHashSize) = fun i => kept nowTimes (l i) := by
    funext i
    unfold prunedIn
    split
    · rfl
    · next hi =>
      have hempty : l i = [] := by
        refine List.eq_nil_iff_forall_not_mem.2 fun x hx => hi (List.mem_range.2 ?_)
        rw [← h.bucket i x hx]
        exact hash_lt _
      rw [hempty]
      rfl
  rwa [hall] at hchained

/-! ## All runs -/

/-- What happens to the history. -/
inductive Op where
  | check (crc32 : BitVec 32)
  | prune
  deriving DecidableEq, Repr

/-- An operation at a time, of which the clock shows the lowest 32 bits. -/
structure Event where
  time : Nat
  op : Op
  deriving DecidableEq, Repr

def clock (time : Nat) : BitVec 32 := BitVec.ofNat 32 time

def step (s : History) (e : Event) : Option History :=
  match e.op with
  | .check crc32 => (checkAndMarkRecentPacket (clock e.time) s crc32).map Prod.snd
  | .prune => prunePacketHistory (clock e.time) s

/-- The clock at the end of the hold time of a mark. -/
def holdUntil (time : Nat) : BitVec 32 := olsrGetTimestamp (clock time) historyHoldTime

/-- The last mark of `crc32` was at `time`, and no pruning since then has found its time to be over. -/
def LastMark (events : List Event) (crc32 : BitVec 32) (time : Nat) : Prop :=
  ∃ before after, events = before ++ ⟨time, .check crc32⟩ :: after ∧ (∀ e ∈ after, e.op ≠ .check crc32) ∧
    ∀ e ∈ after, e.op = .prune → olsrIsTimedOut (clock e.time) (holdUntil time) = false

theorem lastMark_nil {time : Nat} : ¬LastMark [] crc32 time := by
  rintro ⟨before, after, h, -⟩
  simp at h

/-- One more event: a mark is the last one, or the last one was before and the event has not ended it. -/
theorem lastMark_concat {events : List Event} {e : Event} {time : Nat} : LastMark (events ++ [e]) crc32 time ↔
    e = ⟨time, .check crc32⟩ ∨ LastMark events crc32 time ∧ e.op ≠ .check crc32 ∧
      (e.op = .prune → olsrIsTimedOut (clock e.time) (holdUntil time) = false) := by
  constructor
  · rintro ⟨before, after, h, hmark, hprune⟩
    rcases List.eq_nil_or_concat after with rfl | ⟨front, last, rfl⟩
    · obtain ⟨-, heq⟩ := List.append_inj' h rfl
      exact .inl (List.cons.inj heq).1
    · rw [List.concat_eq_append] at *
      rw [← List.cons_append, ← List.append_assoc] at h
      obtain ⟨rfl, heq⟩ := List.append_inj' h rfl
      obtain rfl := (List.cons.inj heq).1
      refine .inr ⟨⟨before, front, rfl, fun x hx => hmark x (List.mem_append_left _ hx),
        fun x hx => hprune x (List.mem_append_left _ hx)⟩, hmark e (by simp), hprune e (by simp)⟩
  · rintro (rfl | ⟨⟨before, after, rfl, hmark, hprune⟩, hop, hkeep⟩)
    · exact ⟨events, [], rfl, by simp, by simp⟩
    · refine ⟨before, after ++ [e], by simp, ?_, ?_⟩
      · intro x hx
        rcases List.mem_append.1 hx with hx | hx
        · exact hmark x hx
        · obtain rfl := List.mem_singleton.1 hx
          exact hop
      · intro x hx
        rcases List.mem_append.1 hx with hx | hx
        · exact hprune x hx
        · obtain rfl := List.mem_singleton.1 hx
          exact hkeep

/-- The chains hold the CRCs that the events leave marked, with the times of their last marks. -/
structure Recorded (events : List Event) (s : History) (l : Nat → List (Ptr × TDupEntry)) : Prop where
  chained : Chained s l
  marked : ∀ c t, Marked l c t ↔ ∃ time, LastMark events c time ∧ t = holdUntil time

theorem Recorded.step {events : List Event} (hrec : Recorded events s l) (e : Event) :
    ∃ s', Bmf.step s e = some s' ∧ ∃ l', Recorded (events ++ [e]) s' l' := by
  obtain ⟨h, hmarked⟩ := hrec
  obtain ⟨time, op⟩ := e
  cases op with
  | check crc32 =>
    obtain ⟨r, s', l', hcheck, h', -, hl'⟩ := h.check (clock time) crc32
    refine ⟨s', ?_, l', h', fun c t => ?_⟩
    · change (checkAndMarkRecentPacket (clock time) s crc32).map Prod.snd = some s'
      rw [hcheck]
      rfl
    · rw [hl', hmarked]
      simp only [lastMark_concat]
      by_cases hc : c = crc32
      · subst hc
        rw [if_pos rfl]
        constructor
        · rintro rfl
          exact ⟨time, .inl rfl, rfl⟩
        · rintro ⟨time', heq | ⟨-, hne, -⟩, rfl⟩
          · obtain rfl : time = time' := congrArg Event.time heq
            rfl
          · exact absurd rfl hne
      · rw [if_neg hc]
        refine exists_congr fun time' => and_congr_left' ?_
        have hne : (⟨time, .check crc32⟩ : Event) ≠ ⟨time', .check c⟩ := by
          rintro heq
          exact hc (Op.check.inj (congrArg Event.op heq)).symm
        have hop : Op.check crc32 ≠ .check c := fun heq => hc (Op.check.inj heq).symm
        simp [hne, hop]
  | prune =>
    obtain ⟨s', hprune, h'⟩ := h.prune (clock time)
    refine ⟨s', hprune, _, h', fun c t => ?_⟩
    have hkept : Marked (fun i => kept (clock time) (l i)) c t ↔
        Marked l c t ∧ olsrIsTimedOut (clock time) t = false := by
      simp [Marked, kept]
    rw [hkept, hmarked]
    simp only [lastMark_concat]
    constructor
    · rintro ⟨⟨time', hlast, rfl⟩, hout⟩
      exact ⟨time', .inr ⟨hlast, by simp, fun _ => hout⟩, rfl⟩
    · rintro ⟨time', heq | ⟨hlast, -, hout⟩, rfl⟩
      · exact absurd (congrArg Event.op heq) (by simp)
      · exact ⟨⟨time', hlast, rfl⟩, hout trivial⟩

theorem recorded_run (events : List Event) :
    ∃ s, Run.forEach step events initPacketHistory = some s ∧ ∃ l, Recorded events s l := by
  have hround : ∀ done e s, e ∈ events → (∃ l, Recorded done s l) →
      ∃ s', step s e = some s' ∧ ∃ l', Recorded (done ++ [e]) s' l' := by
    rintro done e s - ⟨l, h⟩
    exact h.step e
  exact Run.forEach_prefix hround ⟨fun _ => [], chained_init, fun c t => by simp [Marked, lastMark_nil]⟩

/-- An entry that is reached from the start of a chain. -/
def Listed (s : History) (i : Nat) (p : Ptr) (e : TDupEntry) : Prop :=
  ∃ k, Seg s.entry (s.packetHistory i) k none ∧ (p, e) ∈ k

theorem Chained.listed_iff (h : Chained s l) {i : Nat} {p : Ptr} {e : TDupEntry} : Listed s i p e ↔ (p, e) ∈ l i := by
  constructor
  · rintro ⟨k, hk, hmem⟩
    rwa [← hk.unique (h.seg i)]
  · exact fun hmem => ⟨l i, h.seg i, hmem⟩

/-- Less than half a turn of the clock after a mark, its time is over when the hold time has passed. -/
theorem holdUntil_over {mark time : Nat} (hle : mark ≤ time) (hlt : time < mark + 2147483648) :
    olsrIsTimedOut (clock time) (holdUntil mark) = true ↔ mark + 3000 ≤ time := by
  refine olsrIsTimedOut_iff ⟨?_, by omega, by omega⟩
  rw [holdUntil, olsrGetTimestamp, clock, historyHoldTime, ← BitVec.ofNat_add]

/-- After any run, a CRC has one entry at most and in the bucket of its hash, the report is whether it was marked and
not pruned since then, and pruning keeps exactly the entries whose time is not over. -/
theorem packetHistory_run (events : List Event) : ∃ s, Run.forEach step events initPacketHistory = some s ∧
    (∀ i j p q e d, Listed s i p e → Listed s j q d → e.crc32 = d.crc32 → i = j ∧ p = q) ∧
    (∀ i p e, Listed s i p e → i = hash e.crc32) ∧
    (∀ time c, ∃ r s', checkAndMarkRecentPacket (clock time) s c = some (r, s') ∧
      (r = true ↔ ∃ mark, LastMark events c mark)) ∧
    (∀ time, ∃ s', prunePacketHistory (clock time) s = some s' ∧
      ∀ i p e, Listed s' i p e ↔ Listed s i p e ∧ olsrIsTimedOut (clock time) e.timeOut = false) ∧
    ∀ i p e, Listed s i p e → ∃ mark, LastMark events e.crc32 mark ∧ e.timeOut = holdUntil mark ∧
      ∀ time, mark ≤ time → time < mark + 2147483648 →
        (olsrIsTimedOut (clock time) e.timeOut = true ↔ mark + 3000 ≤ time) := by
  obtain ⟨s, hs, l, h, hmarked⟩ := recorded_run events
  refine ⟨s, hs, ?_, ?_, ?_, ?_, ?_⟩
  · intro i j p q e d he hd hcrc
    obtain ⟨hij, hpq, -⟩ := h.unique (h.listed_iff.1 he) (h.listed_iff.1 hd) hcrc
    exact ⟨hij, hpq⟩
  · exact fun i p e he => (h.bucket i _ (h.listed_iff.1 he)).symm
  · intro time c
    obtain ⟨r, s', -, hcheck, -, hr, -⟩ := h.check (clock time) c
    refine ⟨r, s', hcheck, hr.trans ?_⟩
    simp only [hmarked]
    constructor
    · rintro ⟨t, mark, hlast, -⟩
      exact ⟨mark, hlast⟩
    · rintro ⟨mark, hlast⟩
      exact ⟨_, mark, hlast, rfl⟩
  · intro time
    obtain ⟨s', hprune, h'⟩ := h.prune (clock time)
    refine ⟨s', hprune, fun i p e => ?_⟩
    rw [h'.listed_iff, h.listed_iff, kept, List.mem_filter, Bool.not_eq_true']
  · intro i p e he
    obtain ⟨mark, hlast, htime⟩ := (hmarked e.crc32 e.timeOut).1 ⟨i, p, h.listed_iff.1 he⟩
    exact ⟨mark, hlast, htime, fun time hle hlt => by rw [htime, holdUntil_over hle hlt]⟩

/-- A packet that was marked is seen again. -/
example : (Run.forEach step [⟨0, .check 7#32⟩] initPacketHistory).bind (fun s =>
    (checkAndMarkRecentPacket (clock 2999) s 7#32).map Prod.fst) = some true := by decide +kernel

end Olsrd.Bmf
