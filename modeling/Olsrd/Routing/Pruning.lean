/-
`olsr_prune_aliases` as it walks the chain of a MID entry. One pointer is the cursor of a search and the mark of an
alias to keep at once, so that nothing marks an alias as kept when the message declares none.
-/
import Mathlib.Data.List.TakeWhile
import Olsrd.Lib.Chain
import Olsrd.Routing.Ownership

namespace Olsrd.Routing

open Chain (Seg seg_nil seg_cons seg_append seg_concat)
open Olsrd.Neighbor (MidSet MidEntry MidAddress MidWf midLookupMainAddr midLookupEntryBymain keepsAlias refreshAlias
  prunedAliases)

variable {env : NodeEnv} {now vtime : Nat} {mainAddr : IpAddr} {declared : List IpAddr}

/-! ## The loop -/

/-- What the loop works on: the objects of the chain, which are a `struct mid_address` and its `next_alias`, the start
of the chain in the entry, the reverse table and the paths. -/
structure PruneState where
  node : Ptr → Option (MidAddress × Option Ptr)
  aliases : Option Ptr
  mid : MidSet
  rib : Rib

/-- Update the chain as seen by the entry. -/
def unlinkAlias (s : PruneState) (previous next : Option Ptr) : Option PruneState :=
  match previous with
  | none => some { s with aliases := next }
  | some q => do
    let (a, _) ← s.node q
    pure { s with node := Function.update s.node q (some (a, next)) }

/-- Take an alias out of the chain, the reverse table and the paths, and free it. -/
def removeAlias (env : NodeEnv) (mainAddr : IpAddr) (s : PruneState) (previous : Option Ptr) (current : Ptr)
    (adr : IpAddr) (next : Option Ptr) : Option PruneState := do
  let s ← unlinkAlias s previous next
  let rib ← stepTable env.toEnv s.rib (.deleteRoutingTable (hostPrefix env.cnf adr) mainAddr)
  pure { s with node := Function.update s.node current none, mid := s.mid.dequeueAlias mainAddr adr, rib := rib }

/-- The body of the loop, with `previous_alias`. The list that `declared_aliases` points to is what the search has not
passed over. -/
def pruneAlias (env : NodeEnv) (now vtime : Nat) (mainAddr : IpAddr) (declared : List IpAddr)
    (x : PruneState × Option Ptr) (current : Ptr) : Option (PruneState × Option Ptr) := do
  let (a, next) ← x.1.node current
  let found := declared.dropWhile fun d => d != a.aliasAddr
  -- do not remove the alias if its time is not over
  let cursor := if found.isEmpty then (if now < a.vtime then declared else found) else found
  let s := if found.isEmpty then x.1
    else { x.1 with node := Function.update x.1.node current (some ({ a with vtime := now + vtime }, next)) }
  if cursor.isEmpty then do
    let s ← removeAlias env mainAddr s x.2 current a.aliasAddr next
    pure (s, x.2)
  else pure (s, some current)

/-- The loop, with a bound on its rounds. -/
def pruneLoop (env : NodeEnv) (now vtime : Nat) (mainAddr : IpAddr) (declared : List IpAddr) :
    Nat → Option Ptr → PruneState × Option Ptr → Option PruneState
  | _, none, x => some x.1
  | 0, some _, _ => none
  | rounds + 1, some current, x => do
    let (_, next) ← x.1.node current
    let x ← pruneAlias env now vtime mainAddr declared x current
    pruneLoop env now vtime mainAddr declared rounds next x

/-- `olsr_prune_aliases`, for the entry it finds. -/
def pruneChain (env : NodeEnv) (now vtime : Nat) (mainAddr : IpAddr) (declared : List IpAddr) (rounds : Nat)
    (s : PruneState) : Option PruneState :=
  pruneLoop env now vtime mainAddr declared rounds s.aliases (s, none)

/-! ## One round -/

theorem dropWhile_isEmpty_iff {a : MidAddress} :
    (declared.dropWhile fun d => d != a.aliasAddr).isEmpty = true ↔ declared.contains a.aliasAddr = false := by
  rw [List.isEmpty_iff, List.dropWhile_eq_nil_iff]
  simp only [bne_iff_ne, ← Bool.not_eq_true, List.contains_iff_mem]
  exact ⟨fun h hmem => h _ hmem rfl, fun h x hx heq => h (heq ▸ hx)⟩

/-- A kept alias is declared and gets a new time, or stays as it is. -/
theorem pruneAlias_kept {x : PruneState × Option Ptr} {current : Ptr} {a : MidAddress} {next : Option Ptr}
    (ha : x.1.node current = some (a, next)) (hkeep : keepsAlias now declared a = true) :
    pruneAlias env now vtime mainAddr declared x current = some
      ({ x.1 with node := Function.update x.1.node current (some (refreshAlias now vtime declared a, next)) },
        some current) := by
  unfold pruneAlias
  rw [ha, Option.bind_eq_bind, Option.bind_some]
  unfold refreshAlias
  by_cases hd : declared.contains a.aliasAddr = true
  · have hfound : (declared.dropWhile fun d => d != a.aliasAddr).isEmpty = false := by
      rw [← Bool.not_eq_true, dropWhile_isEmpty_iff, hd]
      decide
    simp only [hfound, hd, Bool.false_eq_true, if_false, if_true]
    rfl
  · have hfound : (declared.dropWhile fun d => d != a.aliasAddr).isEmpty = true :=
      dropWhile_isEmpty_iff.2 (eq_false_of_ne_true hd)
    have hvalid : now < a.vtime ∧ declared.isEmpty = false := by
      unfold keepsAlias at hkeep
      rw [eq_false_of_ne_true hd, Bool.false_or, Bool.and_eq_true, decide_eq_true_eq, Bool.not_eq_true'] at hkeep
      exact hkeep
    have hsame : Function.update x.1.node current (some (a, next)) = x.1.node := by
      rw [← ha, Function.update_eq_self]
    simp only [hfound, if_true, if_pos hvalid.1, hvalid.2, Bool.false_eq_true, if_false, if_neg hd, hsame]
    rfl

theorem pruneAlias_removed {x : PruneState × Option Ptr} {current : Ptr} {a : MidAddress} {next : Option Ptr}
    (ha : x.1.node current = some (a, next)) (hkeep : keepsAlias now declared a = false) :
    pruneAlias env now vtime mainAddr declared x current =
      (removeAlias env mainAddr x.1 x.2 current a.aliasAddr next).map fun s => (s, x.2) := by
  unfold keepsAlias at hkeep
  rw [Bool.or_eq_false_iff] at hkeep
  have hfound : (declared.dropWhile fun d => d != a.aliasAddr).isEmpty = true := dropWhile_isEmpty_iff.2 hkeep.1
  have hcursor : (if now < a.vtime then declared else declared.dropWhile fun d => d != a.aliasAddr).isEmpty = true := by
    split
    · rename_i hlt
      simpa [hlt] using hkeep.2
    · exact hfound
  unfold pruneAlias
  rw [ha, Option.bind_eq_bind, Option.bind_some]
  simp only [hfound, if_true, hcursor]
  cases removeAlias env mainAddr x.1 x.2 current a.aliasAddr next with
  | none => rfl
  | some s => rfl

/-! ## The walk -/

/-- The loop has passed over `kept`, and `rest` is still to come. -/
structure Walking (x : PruneState × Option Ptr) (p : Option Ptr) (kept rest : List (Ptr × MidAddress)) : Prop where
  passed : Seg x.1.node x.1.aliases kept p
  ahead : Seg x.1.node p rest none
  nodup : ((kept ++ rest).map Prod.fst).Nodup
  previous : x.2 = kept.getLast?.map Prod.fst

section
variable {x : PruneState × Option Ptr} {current : Ptr} {a b : MidAddress} {p next : Option Ptr}
  {kept rest : List (Ptr × MidAddress)}

theorem unlinkAlias_eq (s : PruneState) (previous next : Option Ptr) : unlinkAlias s previous next =
    (Chain.unlink s.node s.aliases previous next).map fun y => { s with node := y.1, aliases := y.2 } := by
  cases previous with
  | none => rfl
  | some q =>
    unfold unlinkAlias Chain.unlink
    dsimp only
    cases s.node q <;> rfl

theorem Walking.walk (h : Walking x p kept rest) : Chain.Walk x.1.node x.1.aliases x.2 p kept rest :=
  ⟨h.passed, h.ahead, h.nodup, h.previous⟩

/-- An alias stays, maybe with a new time. -/
theorem Walking.keep (h : Walking x (some current) kept ((current, a) :: rest))
    (ha : x.1.node current = some (a, next)) :
    Walking ({ x.1 with node := Function.update x.1.node current (some (b, next)) }, some current) next
      (kept ++ [(current, b)]) rest := by
  have hwalk := h.walk.keep (w := b) ha
  exact ⟨hwalk.behind, hwalk.ahead, hwalk.nodup, hwalk.previous⟩

/-- An alias goes. -/
theorem Walking.remove (h : Walking x (some current) kept ((current, a) :: rest))
    (ha : x.1.node current = some (a, next))
    {rib : Rib} (hrib : stepTable env.toEnv x.1.rib
    (.deleteRoutingTable (hostPrefix env.cnf a.aliasAddr) mainAddr) = some rib) :
    ∃ s', removeAlias env mainAddr x.1 x.2 current a.aliasAddr next = some s' ∧ Walking (s', x.2) next kept rest ∧
      s'.mid = x.1.mid.dequeueAlias mainAddr a.aliasAddr ∧ s'.rib = rib := by
  obtain ⟨node, aliases, hunlink, hwalk, -⟩ := h.walk.remove ha
  unfold removeAlias
  rw [unlinkAlias_eq, hunlink, Option.map_some, Option.bind_eq_bind, Option.bind_some]
  dsimp only
  rw [hrib]
  exact ⟨_, rfl, ⟨hwalk.behind, hwalk.ahead, hwalk.nodup, hwalk.previous⟩, rfl, rfl⟩

end

/-! ## All rounds -/

/-- A path that is there can be deleted. -/
theorem RibWf.exists_deleteRtPath {s : Rib} (h : RibWf s) {p : Ptr} {z : RtPath} (hz : s.path p = some z) :
    ∃ s', olsrDeleteRtPath s p = some s' := by
  obtain ⟨t, ht⟩ := Option.isSome_iff_exists.1 (h.tc p z hz)
  unfold olsrDeleteRtPath
  rw [hz, Option.bind_eq_bind, Option.bind_some]
  cases hrt : z.rt with
  | none =>
    rw [unlinkRtPath, Option.bind_eq_bind, Option.bind_some, ht]
    exact ⟨_, rfl⟩
  | some e =>
    obtain ⟨y, hy, -⟩ := h.tree _ _ (h.rt p z e hz hrt).1
    have hunlink : unlinkRtPath s p (some e) = some (s.setEntry e { y with pathTree := Keyed.erase p y.pathTree }) := by
      rw [unlinkRtPath, hy]
      rfl
    rw [hunlink, Option.bind_eq_bind, Option.bind_some]
    change ∃ s', (s.prefixTree z.tc).bind _ = some s'
    rw [ht]
    exact ⟨_, rfl⟩

theorem RibWf.exists_deleteRoutingTable {s : Rib} (h : RibWf s) (d : IpAddr) (o : IpAddr) :
    ∃ s', Routing.stepTable env.toEnv s (.deleteRoutingTable (hostPrefix env.cnf d) o) = some s' := by
  change ∃ s', olsrDeleteRoutingTable env.toEnv s (hostPrefix env.cnf d) o = some s'
  unfold olsrDeleteRoutingTable
  split
  · exact ⟨_, rfl⟩
  · cases hfind : findPath s (hostPrefix env.cnf d) o with
    | none => exact ⟨_, rfl⟩
    | some p =>
      obtain ⟨t, ht, hp⟩ := Option.bind_eq_some_iff.1 hfind
      obtain ⟨z, hz, -⟩ := (h.prefixTree o t ht).find_iff.1 hp
      obtain ⟨s', hs'⟩ := h.exists_deleteRtPath hz
      exact ⟨{ s' with changesHna := true }, by simp only [hs', Option.map_some]⟩

/-- The aliases of a list that go, and those that stay. -/
def goneAliases (now : Nat) (declared : List IpAddr) (l : List (Ptr × MidAddress)) : List IpAddr :=
  (l.filter fun x => !keepsAlias now declared x.2).map fun x => x.2.aliasAddr

def keptAliases (now vtime : Nat) (declared : List IpAddr) (l : List (Ptr × MidAddress)) : List (Ptr × MidAddress) :=
  (l.filter fun x => keepsAlias now declared x.2).map fun x => (x.1, refreshAlias now vtime declared x.2)

/-- The loop walks through the chain, takes the aliases out that are not kept, and leaves the others in their order. -/
theorem pruneLoop_spec : ∀ (rest kept : List (Ptr × MidAddress)) (x : PruneState × Option Ptr) (p : Option Ptr),
    Walking x p kept rest → RibWf x.1.rib → ∃ s',
      (∀ rounds, rest.length ≤ rounds → pruneLoop env now vtime mainAddr declared rounds p x = some s') ∧
      Seg s'.node s'.aliases (kept ++ keptAliases now vtime declared rest) none ∧
      s'.mid = (goneAliases now declared rest).foldl (MidSet.dequeueAlias mainAddr) x.1.mid ∧
      deleteAliasPaths env mainAddr (goneAliases now declared rest) x.1.rib = some s'.rib
  | [], kept, x, p, h, hrib => by
    obtain rfl : p = none := h.ahead
    refine ⟨x.1, fun rounds _ => by unfold pruneLoop; rfl, ?_, rfl, rfl⟩
    rw [keptAliases, List.filter_nil, List.map_nil, List.append_nil]
    exact h.passed
  | (current, a) :: rest, kept, x, p, h, hrib => by
    obtain ⟨rfl, next, ha, -⟩ := h.ahead
    have hround : ∀ (y : PruneState × Option Ptr), pruneAlias env now vtime mainAddr declared x current = some y →
        ∀ rounds, pruneLoop env now vtime mainAddr declared (rounds + 1) (some current) x =
          pruneLoop env now vtime mainAddr declared rounds next y := by
      intro y hy rounds
      rw [pruneLoop, ha, Option.bind_eq_bind, Option.bind_some, hy]
      rfl
    have hrounds : ∀ (y : PruneState × Option Ptr) (s' : PruneState),
        pruneAlias env now vtime mainAddr declared x current = some y →
        (∀ rounds, rest.length ≤ rounds → pruneLoop env now vtime mainAddr declared rounds next y = some s') →
        ∀ rounds, ((current, a) :: rest).length ≤ rounds →
          pruneLoop env now vtime mainAddr declared rounds (some current) x = some s' := by
      intro y s' hy hrest rounds hle
      cases rounds with
      | zero => simp at hle
      | succ rounds =>
        rw [hround y hy]
        exact hrest rounds (Nat.le_of_succ_le_succ hle)
    by_cases hkeep : keepsAlias now declared a = true
    · obtain ⟨s', hs', hseg, hmid, hdel⟩ := pruneLoop_spec rest _ _ next
        (h.keep (b := refreshAlias now vtime declared a) ha) hrib
      have hgone : goneAliases now declared ((current, a) :: rest) = goneAliases now declared rest := by
        rw [goneAliases, List.filter_cons_of_neg (by simp [hkeep])]
        rfl
      refine ⟨s', hrounds _ s' (pruneAlias_kept ha hkeep) hs', ?_, ?_, ?_⟩
      · rw [keptAliases, List.filter_cons_of_pos (by exact hkeep), List.map_cons]
        rw [List.append_assoc] at hseg
        exact hseg
      · rw [hgone]
        exact hmid
      · rw [hgone]
        exact hdel
    · rw [Bool.not_eq_true] at hkeep
      obtain ⟨rib, hstep⟩ := @RibWf.exists_deleteRoutingTable env _ hrib a.aliasAddr mainAddr
      obtain ⟨s₁, hs₁, hwalk, hmid₁, hrib₁⟩ := h.remove ha hstep
      obtain ⟨s', hs', hseg, hmid, hdel⟩ := pruneLoop_spec rest kept (s₁, x.2) next hwalk
        (by rw [hrib₁]; exact (hrib.stepTable hstep).1)
      have hgone : goneAliases now declared ((current, a) :: rest) = a.aliasAddr :: goneAliases now declared rest := by
        rw [goneAliases, List.filter_cons_of_pos (by simp [hkeep]), List.map_cons]
        rfl
      refine ⟨s', hrounds _ s' ?_ hs', ?_, ?_, ?_⟩
      · rw [pruneAlias_removed ha hkeep, hs₁]
        rfl
      · rw [keptAliases, List.filter_cons_of_neg (by simp [hkeep])]
        exact hseg
      · rw [hgone, List.foldl_cons, ← hmid₁]
        exact hmid
      · rw [hgone]
        refine Run.forEach_cons.2 ⟨rib, hstep, ?_⟩
        rw [← hrib₁]
        exact hdel

/-! ## What is to be pruned -/

/-- The chain in memory holds the aliases. -/
structure Represents (s : PruneState) (l : List (Ptr × MidAddress)) : Prop where
  seg : Seg s.node s.aliases l none
  nodup : (l.map Prod.fst).Nodup

/-- The chain of the entry, the reverse table and the paths agree about the aliases of a node. -/
structure Agreed (env : NodeEnv) (mainAddr : IpAddr) (s : PruneState) (aliases : List IpAddr) : Prop where
  keys : Neighbor.AliasKeys s.mid
  nodup : aliases.Nodup
  reverse : ∀ a, a ∈ aliases ↔ midLookupMainAddr s.mid a = some mainAddr
  rib : RibWf s.rib
  paths : ∀ a o, midLookupMainAddr s.mid a = some o → HasPath s.rib o (hostPrefix env.cnf a)

def addrsOf (l : List (Ptr × MidAddress)) : List IpAddr := l.map fun x => x.2.aliasAddr

/-- The aliases that are declared, or whose own time is not over. -/
def stays (now : Nat) (declared : List IpAddr) (x : Ptr × MidAddress) : Bool :=
  declared.contains x.2.aliasAddr || decide (now < x.2.vtime)

/-- The other aliases go, with their paths. What stays keeps its place and its data, but for the time of declared
aliases, and everything agrees. -/
def Pruned (env : NodeEnv) (now vtime : Nat) (mainAddr : IpAddr) (declared : List IpAddr) (s : PruneState)
    (l : List (Ptr × MidAddress)) : Prop :=
  ∃ s' l', (∀ rounds, l.length ≤ rounds → pruneChain env now vtime mainAddr declared rounds s = some s') ∧
    Represents s' l' ∧
    l' = (l.filter (stays now declared)).map (fun x => (x.1, refreshAlias now vtime declared x.2)) ∧
    Agreed env mainAddr s' (addrsOf l') ∧
    ∀ a ∈ addrsOf l, a ∉ addrsOf l' →
      midLookupMainAddr s'.mid a = none ∧ ¬HasPath s'.rib mainAddr (hostPrefix env.cnf a)

section
variable {s s' : PruneState} {l : List (Ptr × MidAddress)} {a : IpAddr}

theorem map_fst_keptAliases (l : List (Ptr × MidAddress)) : (keptAliases now vtime declared l).map Prod.fst =
    (l.filter fun x => keepsAlias now declared x.2).map Prod.fst := by
  rw [keptAliases, List.map_map]
  rfl

theorem addrsOf_keptAliases (l : List (Ptr × MidAddress)) :
    addrsOf (keptAliases now vtime declared l) = addrsOf (l.filter fun x => keepsAlias now declared x.2) := by
  rw [keptAliases, addrsOf, List.map_map]
  exact List.map_congr_left fun x _ => Neighbor.aliasAddr_refreshAlias ..

/-- No alias stays and goes at once. -/
theorem mem_addrsOf_keptAliases (hnodup : (addrsOf l).Nodup) :
    a ∈ addrsOf (keptAliases now vtime declared l) ↔ a ∈ addrsOf l ∧ a ∉ goneAliases now declared l := by
  rw [addrsOf_keptAliases]
  unfold addrsOf goneAliases
  simp only [List.mem_map, List.mem_filter, Bool.not_eq_true', not_exists, not_and]
  constructor
  · rintro ⟨x, ⟨hx, hkeep⟩, rfl⟩
    refine ⟨⟨x, hx, rfl⟩, fun y hy heq => ?_⟩
    obtain rfl := List.inj_on_of_nodup_map hnodup hy.1 hx heq
    rw [hkeep] at hy
    cases hy.2
  · rintro ⟨⟨x, hx, rfl⟩, hno⟩
    refine ⟨x, ⟨hx, ?_⟩, rfl⟩
    by_contra hnot
    exact hno x ⟨hx, eq_false_of_ne_true hnot⟩ rfl

/-- What the function does to an entry, whatever the message declares. -/
theorem pruneChain_spec (hrep : Represents s l) (hagree : Agreed env mainAddr s (addrsOf l)) : ∃ s',
    (∀ rounds, l.length ≤ rounds → pruneChain env now vtime mainAddr declared rounds s = some s') ∧
      Represents s' (keptAliases now vtime declared l) ∧
      Agreed env mainAddr s' (addrsOf (keptAliases now vtime declared l)) ∧
      s'.mid = (goneAliases now declared l).foldl (MidSet.dequeueAlias mainAddr) s.mid ∧
      deleteAliasPaths env mainAddr (goneAliases now declared l) s.rib = some s'.rib := by
  obtain ⟨s', hs', hseg, hmid, hdel⟩ := @pruneLoop_spec env now vtime mainAddr declared l [] (s, none) s.aliases
    ⟨rfl, hrep.seg, hrep.nodup, rfl⟩ hagree.rib
  have hremoved := deleteAliasPaths_paths hagree.rib hdel
  obtain ⟨hkeys, hlookup⟩ := hagree.keys.foldl_dequeueAlias (o := mainAddr) (l := goneAliases now declared l)
  rw [← hmid] at hkeys hlookup
  refine ⟨s', hs', ⟨hseg, ?_⟩, ⟨hkeys, ?_, fun b => ?_, hremoved.wf, fun b o hb => ?_⟩, hmid, hdel⟩
  · rw [map_fst_keptAliases]
    exact hrep.nodup.sublist (List.filter_sublist.map _)
  · rw [addrsOf_keptAliases]
    exact hagree.nodup.sublist (List.filter_sublist.map _)
  · rw [mem_addrsOf_keptAliases hagree.nodup, hlookup, hagree.reverse]
    simp
  · obtain ⟨hb, hnot⟩ := (hlookup b o).1 hb
    refine (hremoved.paths _ _).2 ⟨hagree.paths b o hb, ?_⟩
    rintro ⟨rfl, c, hc, hbc⟩
    exact hnot ⟨rfl, (hostPrefix_inj.1 hbc) ▸ hc⟩

/-- A message declares an alias, or no alias of the entry is still valid. -/
def Declares (now : Nat) (declared : List IpAddr) (l : List (Ptr × MidAddress)) : Prop :=
  declared ≠ [] ∨ ∀ x ∈ l, x.2.vtime ≤ now

theorem keptAliases_eq (h : Declares now declared l) : keptAliases now vtime declared l =
    (l.filter (stays now declared)).map fun x => (x.1, refreshAlias now vtime declared x.2) := by
  unfold keptAliases
  congr 1
  refine List.filter_congr fun x hx => ?_
  unfold keepsAlias stays
  rcases h with hne | hall
  · rw [List.isEmpty_eq_false_iff.2 hne, Bool.not_false, Bool.and_true]
  · rw [decide_eq_false (not_lt.2 (hall x hx)), Bool.false_and]

/-- An alias that is still valid does not survive a message that declares nothing. -/
theorem Represents.not_pruned (hrep : Represents s l) (hagree : Agreed env mainAddr s (addrsOf l))
    {x : Ptr × MidAddress} (hx : x ∈ l) (hvalid : now < x.2.vtime) : ¬Pruned env now vtime mainAddr [] s l := by
  rintro ⟨s', l', hs', hrep', hl', -⟩
  obtain ⟨s₁, hs₁, hrep₁, -⟩ := @pruneChain_spec env now vtime mainAddr [] s l hrep hagree
  obtain rfl := Option.some.inj ((hs₁ _ (le_refl _)).symm.trans (hs' _ (le_refl _)))
  have hnil : keptAliases now vtime [] l = [] := by
    rw [keptAliases, List.map_eq_nil_iff, List.filter_eq_nil_iff]
    intro y _
    simp [keepsAlias]
  have heq := hrep'.seg.unique hrep₁.seg
  rw [hnil] at heq
  rw [heq] at hl'
  have hmem : x ∈ l.filter (stays now []) := List.mem_filter.2 ⟨hx, by simp [stays, hvalid]⟩
  have hin := List.mem_map_of_mem (f := fun x : Ptr × MidAddress => (x.1, refreshAlias now vtime [] x.2)) hmem
  rw [← hl'] at hin
  exact List.not_mem_nil hin

/-- `olsr_prune_aliases` prunes as it should exactly if the message declares an alias, or no alias is still valid. -/
theorem pruned_iff (env : NodeEnv) (now vtime : Nat) (mainAddr : IpAddr) (declared : List IpAddr) (s : PruneState)
    (l : List (Ptr × MidAddress)) (hrep : Represents s l) (hagree : Agreed env mainAddr s (addrsOf l)) :
    Pruned env now vtime mainAddr declared s l ↔ Declares now declared l := by
  constructor
  · intro h
    by_contra hnot
    obtain ⟨hnil, hvalid⟩ := not_or.1 hnot
    obtain rfl := Classical.not_not.1 hnil
    obtain ⟨x, hx, hlt⟩ : ∃ x ∈ l, now < x.2.vtime := by simpa using hvalid
    exact hrep.not_pruned hagree hx hlt h
  · intro h
    obtain ⟨s', hs', hrep', hagree', hmid, hdel⟩ := @pruneChain_spec env now vtime mainAddr declared s l hrep hagree
    refine ⟨s', _, hs', hrep', keptAliases_eq h, hagree', fun a ha hgone => ?_⟩
    have hin : a ∈ goneAliases now declared l := by
      by_contra hout
      exact hgone ((mem_addrsOf_keptAliases hagree.nodup).2 ⟨ha, hout⟩)
    refine ⟨?_, fun hpath => ?_⟩
    · rw [Option.eq_none_iff_forall_ne_some]
      intro o ho
      rw [hmid] at ho
      obtain ⟨hold, hnot⟩ := (hagree.keys.foldl_dequeueAlias.2 a o).1 ho
      rw [(hagree.reverse a).1 ha] at hold
      exact hnot ⟨(Option.some.inj hold).symm, hin⟩
    · exact (((deleteAliasPaths_paths hagree.rib hdel).paths _ _).1 hpath).2 ⟨rfl, a, hin, rfl⟩

end

/-! ## The MID entry of a node -/

/-- The chain holds the aliases of an entry in the tables of a node. -/
structure ChainOf (n : Sources) (mid : MidEntry) (s : PruneState) (l : List (Ptr × MidAddress)) : Prop where
  rep : Represents s l
  aliases : l.map Prod.snd = mid.aliases
  mid : s.mid = n.mid
  rib : s.rib = n.rib

section
variable {n : Sources} {mid : MidEntry} {s : PruneState} {l : List (Ptr × MidAddress)}

theorem ChainOf.addrs (h : ChainOf n mid s l) : addrsOf l = mid.aliases.map MidAddress.aliasAddr := by
  rw [← h.aliases, List.map_map]
  rfl

/-- As long as the paths of a node are those that are needed, everything agrees about its aliases. -/
theorem ChainOf.agreed (h : ChainOf n mid s l) (hn : Owned env n)
    (hmid : midLookupEntryBymain n.mid mainAddr = some mid) : Agreed env mainAddr s (addrsOf l) where
  keys := h.mid ▸ hn.mid.keys
  nodup := by
    rw [h.addrs]
    exact hn.mid.nodup mainAddr mid hmid
  reverse a := by
    rw [h.addrs, h.mid]
    exact hn.mid.aliases mainAddr mid hmid a
  rib := h.rib ▸ hn.wf
  paths a o ha := by
    rw [h.mid] at ha
    rw [h.rib]
    exact (hn.paths o _).2 (.inr (.inl ⟨a, ha, rfl⟩))

/-- The walk along the chain does to the tables what pruning the entry does. -/
theorem ChainOf.pruneAliases (h : ChainOf n mid s l) (hn : Owned env n)
    (hmid : midLookupEntryBymain n.mid mainAddr = some mid) : ∃ s' n',
      (∀ rounds, l.length ≤ rounds → pruneChain env now vtime mainAddr declared rounds s = some s') ∧
        olsrPruneAliases env n now mainAddr vtime declared = some n' ∧ s'.rib = n'.rib ∧
        s'.mid.reverseMidSet = n'.mid.reverseMidSet ∧
        ∃ l', Represents s' l' ∧ ∀ mid', midLookupEntryBymain n'.mid mainAddr = some mid' →
          l'.map Prod.snd = mid'.aliases := by
  obtain rfl := Neighbor.midLookupEntryBymain_mainAddr hmid
  obtain ⟨s', hs', hrep, -, hmid', hdel⟩ :=
    @pruneChain_spec env now vtime mid.mainAddr declared s l h.rep (h.agreed hn hmid)
  have hgone : goneAliases now declared l = prunedAliases now declared mid := by
    rw [goneAliases, prunedAliases, ← h.aliases, List.filter_map, List.map_map]
    rfl
  rw [hgone, h.rib] at hdel
  refine ⟨s', { n with rib := s'.rib, mid := n.mid.prune now vtime declared mid }, hs', ?_, rfl, ?_, _, hrep,
    fun mid' hmid'' => ?_⟩
  · unfold olsrPruneAliases
    rw [hmid]
    simp only [hdel, Option.bind_eq_bind, Option.bind_some, Option.pure_def]
  · rw [hmid', hgone, h.mid]
    rfl
  · rw [Neighbor.midLookupEntryBymain_prune, if_pos rfl, hmid, Option.map_some] at hmid''
    rw [← Option.some.inj hmid'', keptAliases, List.map_map, ← h.aliases, List.filter_map, List.map_map]
    rfl

end

/-- The alias 10.0.1.9 of the node 10.0.0.9 comes. -/
def aliasComes : List SourceEvent := [.inputMidAlias 0 [10, 0, 0, 9] 6000 ⟨[10, 0, 1, 9], false, 0, 0, 1⟩]

/-- The chain of one alias that is valid up to a time. -/
def oneAliasState (n : Sources) (vtime : Nat) : PruneState where
  node p := if p = 0 then some (⟨[10, 0, 1, 9], vtime⟩, none) else none
  aliases := some 0
  mid := n.mid
  rib := n.rib

theorem represents_oneAlias (n : Sources) (vtime : Nat) :
    Represents (oneAliasState n vtime) [(0, ⟨[10, 0, 1, 9], vtime⟩)] :=
  ⟨⟨rfl, none, rfl, rfl⟩, List.nodup_singleton 0⟩

theorem agreed_oneAlias (vtime : Nat) : ∃ n, Run.forEach (stepSources linuxNode) aliasComes noSources = some n ∧
    Agreed linuxNode [10, 0, 0, 9] (oneAliasState n vtime) [[10, 0, 1, 9]] := by
  have hrun : ((Run.forEach (stepSources linuxNode) aliasComes noSources).any fun n =>
      (midLookupEntryBymain n.mid [10, 0, 0, 9]).any fun mid => mid.aliases.map MidAddress.aliasAddr ==
        [[10, 0, 1, 9]]) = true := by
    decide +kernel
  obtain ⟨n, hn, hmid⟩ := (Option.any_eq_true _ _).1 hrun
  obtain ⟨mid, hmid, haliases⟩ := (Option.any_eq_true _ _).1 hmid
  have howned : Owned linuxNode n := by
    obtain ⟨n₁, h₁, hend⟩ := Run.forEach_cons.1 hn
    obtain rfl := Option.some.inj hend
    have hok : SourceEvent.Unshared linuxNode noSources
        (.inputMidAlias 0 [10, 0, 0, 9] 6000 ⟨[10, 0, 1, 9], false, 0, 0, 1⟩) := fun _ => ⟨fun _ _ => nofun, nofun⟩
    exact (owned_noSources linuxNode).step hok h₁
  refine ⟨n, hn, howned.mid.keys, List.nodup_singleton _, fun a => ?_, howned.wf, fun a o ha => ?_⟩
  · rw [← beq_iff_eq.1 haliases]
    exact howned.mid.aliases _ mid hmid a
  · exact (howned.paths o _).2 (.inr (.inl ⟨a, ha, rfl⟩))

/-- A MID message that declares nothing takes an alias away that is still valid. -/
theorem emptyMessage_not_pruned : ∃ n, Agreed linuxNode [10, 0, 0, 9] (oneAliasState n 6000) [[10, 0, 1, 9]] ∧
    ¬Pruned linuxNode 1000 6000 [10, 0, 0, 9] [] (oneAliasState n 6000) [(0, ⟨[10, 0, 1, 9], 6000⟩)] := by
  obtain ⟨n, -, hagree⟩ := agreed_oneAlias 6000
  exact ⟨n, hagree, (represents_oneAlias n 6000).not_pruned hagree (List.mem_singleton_self _) (by decide)⟩

/-- A MID message that declares another alias takes this one away when its time is over, and not before. -/
theorem pruned_oneAlias : ∃ n, Agreed linuxNode [10, 0, 0, 9] (oneAliasState n 6000) [[10, 0, 1, 9]] ∧
    Pruned linuxNode 7000 6000 [10, 0, 0, 9] [[10, 0, 2, 9]] (oneAliasState n 6000) [(0, ⟨[10, 0, 1, 9], 6000⟩)] ∧
    Pruned linuxNode 1000 6000 [10, 0, 0, 9] [[10, 0, 2, 9]] (oneAliasState n 6000) [(0, ⟨[10, 0, 1, 9], 6000⟩)] := by
  obtain ⟨n, -, hagree⟩ := agreed_oneAlias 6000
  have hiff := fun now => pruned_iff linuxNode now 6000 [10, 0, 0, 9] [[10, 0, 2, 9]] _ _ (represents_oneAlias n 6000)
    hagree
  exact ⟨n, hagree, (hiff 7000).2 (.inl (by decide)), (hiff 1000).2 (.inl (by decide))⟩

end Olsrd.Routing
