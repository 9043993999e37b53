/-
The RIB over whole runs: paths come and go with the data of three modules, path calculations refresh them,
and RIB updates elect the best of them. The tables stay well linked in every run. Only the pointer to the
best path can be left behind, by a deletion that does not know it.
-/
import Olsrd.Routing.Operations

namespace Olsrd.Routing

open Keyed
open Olsrd.Topology (IpPrefix prefixLt maxplen olsrRtOriginInt)

variable {env : Env} {s s' : Rib}

/-! ## Operations on the tables -/

/-- What other modules and the path calculation do to the tables. The blocks are what the allocator hands out. -/
inductive TableOp where
  | insertRoutingTable (dst : IpPrefix) (originator : IpAddr) (origin : Nat) (p q : Ptr)
  | deleteRoutingTable (dst : IpPrefix) (originator : IpAddr)
  | insertRtPath (p : Ptr) (r : SpfResult) (e : Ptr)
  | updateRtPath (p : Ptr) (r : SpfResult)
  | deleteRtPath (p : Ptr)
  | deleteTcEntry (adr : IpAddr)
  | bumpRoutingtreeVersion

/-- The allocator hands out free blocks. A path calculation inserts a path only when it is not in use, and an entry
of the link state database goes after its prefixes. -/
def TableOp.enabled (s : Rib) : TableOp → Bool
  | .insertRoutingTable _ _ _ p q => (s.path p).isNone && (s.path q).isNone && p != q
  | .insertRtPath p _ e => (s.entry e).isNone && (s.path p).all fun x => x.rt.isNone
  | .deleteTcEntry adr => s.prefixTree adr == some []
  | _ => true

def stepTable (env : Env) (s : Rib) (op : TableOp) : Option Rib :=
  if op.enabled s then
    match op with
    | .insertRoutingTable dst originator origin p q => olsrInsertRoutingTable env s dst originator origin p q
    | .deleteRoutingTable dst originator => olsrDeleteRoutingTable env s dst originator
    | .insertRtPath p r e => olsrInsertRtPath env s p r e
    | .updateRtPath p r => olsrUpdateRtPath s p r
    | .deleteRtPath p => olsrDeleteRtPath s p
    | .deleteTcEntry adr => some { s with prefixTree := Function.update s.prefixTree adr none }
    | .bumpRoutingtreeVersion => some { s with version := s.version + 1 }
  else none

/-- The path an operation deletes. -/
def TableOp.deletes (env : Env) (s : Rib) : TableOp → Option Ptr
  | .deleteRtPath p => some p
  | .deleteRoutingTable dst originator => if dst.prefixLen > maxplen env.cnf then none else findPath s dst originator
  | _ => none

/-- The operation does not delete the best path of an entry. -/
def SparesBest (env : Env) (s : Rib) (op : TableOp) : Prop :=
  ∀ p, op.deletes env s = some p → ∀ e y, s.entry e = some y → y.best ≠ some p

/-- What can be looked up of `SparesBest` while best paths are paths of their entries. -/
def SparesOwn (env : Env) (s : Rib) (op : TableOp) : Prop :=
  ∀ p ∈ op.deletes env s, ∀ x ∈ s.path p, ∀ e ∈ x.rt, ∀ y ∈ s.entry e, y.best ≠ some p

instance (s : Rib) (op : TableOp) : Decidable (SparesOwn env s op) :=
  inferInstanceAs (Decidable (∀ p ∈ op.deletes env s, ∀ x ∈ s.path p, ∀ e ∈ x.rt, ∀ y ∈ s.entry e, y.best ≠ some p))

theorem BestOk.sparesBest (h : BestOk s) {op : TableOp} (hown : SparesOwn env s op) : SparesBest env s op := by
  intro p hp e y hy hbest
  obtain ⟨a, x, hx, hrt, -⟩ := h e y p hy hbest
  exact hown p hp x hx e hrt y hy hbest

theorem RibWf.insertPrefix (h : RibWf s) {a : IpAddr} {d : IpPrefix} {origin : Nat} {p : Ptr} (hp : s.path p = none)
    (hins : insertPrefix env s a d origin p = some s') :
    RibWf s' ∧ (BestOk s → BestOk s') ∧ ∀ q, q ≠ p → s'.path q = s.path q := by
  rcases insertPrefix_cases hins with ⟨rfl, -⟩ | ⟨t, ht, hno, rfl⟩
  · exact ⟨h, id, fun _ _ => rfl⟩
  · exact ⟨(h.alloc origin hp ht hno).of_eq rfl rfl rfl rfl, fun hb => (hb.alloc origin hp).of_eq rfl rfl,
      fun q hq => Function.update_of_ne hq _ _⟩

theorem RibWf.locateTcEntry (h : RibWf s) {a : IpAddr} {p : Ptr} (hp : s.path p = none)
    (hloc : olsrLocateTcEntry env s a p = some s') :
    RibWf s' ∧ (BestOk s → BestOk s') ∧ ∀ q, q ≠ p → s'.path q = s.path q := by
  rcases olsrLocateTcEntry_cases hloc with ⟨rfl, -⟩ | ⟨hnew, hins⟩
  · exact ⟨h, id, fun _ _ => rfl⟩
  · obtain ⟨hw, hb, hq⟩ := (h.newTc hnew).insertPrefix hp hins
    exact ⟨hw, fun hbest => hb (hbest.of_eq rfl rfl), hq⟩

theorem RibWf.insertRoutingTable (h : RibWf s) {d : IpPrefix} {a : IpAddr} {origin : Nat} {p q : Ptr}
    (hp : s.path p = none) (hq : s.path q = none) (hpq : p ≠ q)
    (hins : olsrInsertRoutingTable env s d a origin p q = some s') : RibWf s' ∧ (BestOk s → BestOk s') := by
  rcases olsrInsertRoutingTable_cases hins with ⟨rfl, -⟩ | ⟨s₁, hloc, hins⟩
  · exact ⟨h, id⟩
  · obtain ⟨hw₁, hb₁, hkept⟩ := h.locateTcEntry hp hloc
    obtain ⟨hw, hb, -⟩ := hw₁.insertPrefix ((hkept q hpq.symm).trans hq) hins
    exact ⟨hw, hb ∘ hb₁⟩

theorem RibWf.deleteRtPath (h : RibWf s) {p : Ptr} (hdel : olsrDeleteRtPath s p = some s') : RibWf s' := by
  obtain ⟨x, t, g, hx, ht, ⟨hrt, rfl⟩ | ⟨e, y, hrt, hy, rfl⟩⟩ := olsrDeleteRtPath_cases hdel
  · exact (h.freed hx hrt ht).of_eq rfl rfl rfl rfl
  · exact ((h.detached hx hrt hy).freed (x := { x with rt := none }) path_detached_self rfl ht).of_eq rfl rfl rfl rfl

theorem BestOk.deleteRtPath (h : BestOk s) {p : Ptr} (hspared : ∀ e y, s.entry e = some y → y.best ≠ some p)
    (hdel : olsrDeleteRtPath s p = some s') : BestOk s' := by
  obtain ⟨x, t, g, hx, ht, ⟨hrt, rfl⟩ | ⟨e, y, hrt, hy, rfl⟩⟩ := olsrDeleteRtPath_cases hdel
  · exact (h.freed (a := x.tc) (t := t) hx hrt).of_eq rfl rfl
  · have hdetached : BestOk (Routing.detached s e y p x y.best) :=
      h.detached hy (hspared e y hy) (.inr rfl) fun f z hz hb => absurd hb (hspared f z hz)
    exact (hdetached.freed (x := { x with rt := none }) (a := x.tc) (t := t) path_detached_self rfl).of_eq rfl rfl

theorem RibWf.insertRtPath (h : RibWf s) {p : Ptr} {r : SpfResult} {e : Ptr} (he : s.entry e = none)
    (hins : olsrInsertRtPath env s p r e = some s') : RibWf s' ∧ (BestOk s → BestOk s') := by
  rcases olsrInsertRtPath_cases hins with rfl | ⟨x, s₁, hx, hlink, hupd⟩
  · exact ⟨h, id⟩
  · obtain ⟨hw, hmem⟩ := @RibWf.locateRtEntry env s h x.dst e he
    have hb : BestOk s → BestOk (Routing.locateRtEntry env s x.dst e).1 := by
      intro hb
      rcases locateRtEntry_cases env s x.dst e with ⟨rt, -, heq⟩ | ⟨-, heq⟩
      · rw [heq]; exact hb
      · rw [heq]; exact hb.allocEntry
    have hx' : (Routing.locateRtEntry env s x.dst e).1.path p = some x := by rw [path_locateRtEntry]; exact hx
    have hsame := sameLinks_updateRtPath hupd
    have hentry : s'.entry = s₁.entry := by
      obtain ⟨z, -, rfl⟩ := olsrUpdateRtPath_cases hupd
      rfl
    rcases linkRtPath_cases hw hx' hmem hlink with ⟨y, hrt, hy, rfl⟩ | ⟨-, hlinks, heq⟩
    · exact ⟨hsame.wf (hw.attached hx' hrt hmem hy), fun hbest => ((hb hbest).attached hx' hrt hy).sameLinks
        hsame hentry⟩
    · exact ⟨hsame.wf (hlinks.wf hw), fun hbest => ((hb hbest).sameLinks hlinks heq).sameLinks hsame hentry⟩

theorem stepTable_cases {op : TableOp} (h : stepTable env s op = some s') :
    op.enabled s = true ∧
      match op with
      | .insertRoutingTable dst originator origin p q =>
        olsrInsertRoutingTable env s dst originator origin p q = some s'
      | .deleteRoutingTable dst originator => olsrDeleteRoutingTable env s dst originator = some s'
      | .insertRtPath p r e => olsrInsertRtPath env s p r e = some s'
      | .updateRtPath p r => olsrUpdateRtPath s p r = some s'
      | .deleteRtPath p => olsrDeleteRtPath s p = some s'
      | .deleteTcEntry adr => s' = { s with prefixTree := Function.update s.prefixTree adr none }
      | .bumpRoutingtreeVersion => s' = { s with version := s.version + 1 } := by
  unfold stepTable at h
  split at h
  · refine ⟨‹_›, ?_⟩
    cases op with
    | deleteTcEntry adr => exact (Option.some.inj h).symm
    | bumpRoutingtreeVersion => exact (Option.some.inj h).symm
    | _ => exact h
  · cases h

/-- What a path calculation does with a path is one of two operations on the tables. -/
theorem refreshPath_step {p : Ptr} {r : SpfResult} {e : Ptr} (he : s.entry e = none)
    (h : refreshPath env s p r e = some s') :
    stepTable env s (.updateRtPath p r) = some s' ∨ stepTable env s (.insertRtPath p r e) = some s' := by
  obtain ⟨x, hx, h⟩ := Option.bind_eq_some_iff.1 h
  by_cases hrt : x.rt.isSome = true
  · rw [if_pos hrt] at h
    exact .inl h
  · rw [if_neg hrt] at h
    refine .inr ?_
    rw [stepTable, if_pos]
    · exact h
    · simpa [TableOp.enabled, he, hx] using hrt

/-- Every operation on the tables keeps their structure; the best paths stay paths of their entries unless one of
them is deleted. -/
theorem RibWf.stepTable (h : RibWf s) {op : TableOp} (hstep : stepTable env s op = some s') :
    RibWf s' ∧ (SparesBest env s op → BestOk s → BestOk s') := by
  obtain ⟨hen, hstep⟩ := stepTable_cases hstep
  cases op with
  | insertRoutingTable dst originator origin p q =>
    simp only [TableOp.enabled, Bool.and_eq_true, Option.isNone_iff_eq_none, bne_iff_ne] at hen
    obtain ⟨hw, hb⟩ := h.insertRoutingTable hen.1.1 hen.1.2 hen.2 hstep
    exact ⟨hw, fun _ => hb⟩
  | deleteRoutingTable dst originator =>
    rcases olsrDeleteRoutingTable_cases hstep with ⟨rfl, -⟩ | ⟨p, s₁, hlen, hp, hdel, rfl⟩
    · exact ⟨h, fun _ => id⟩
    · refine ⟨(h.deleteRtPath hdel).of_eq rfl rfl rfl rfl, fun hspared hb => ?_⟩
      have hdeletes : TableOp.deletes env s (.deleteRoutingTable dst originator) = some p := by
        simp [TableOp.deletes, not_lt.2 hlen, hp]
      exact (hb.deleteRtPath (hspared p hdeletes) hdel).of_eq rfl rfl
  | insertRtPath p r e =>
    simp only [TableOp.enabled, Bool.and_eq_true, Option.isNone_iff_eq_none] at hen
    obtain ⟨hw, hb⟩ := h.insertRtPath hen.1 hstep
    exact ⟨hw, fun _ => hb⟩
  | updateRtPath p r =>
    have hsame := sameLinks_updateRtPath hstep
    obtain ⟨x, hx, rfl⟩ := olsrUpdateRtPath_cases hstep
    exact ⟨hsame.wf h, fun _ hb => hb.sameLinks hsame rfl⟩
  | deleteRtPath p => exact ⟨h.deleteRtPath hstep, fun hspared hb => hb.deleteRtPath (hspared p rfl) hstep⟩
  | deleteTcEntry adr =>
    simp only [TableOp.enabled, beq_iff_eq] at hen
    have hs' : s' = _ := hstep
    rw [hs']
    exact ⟨h.dropTc hen, fun _ hb => hb.of_eq rfl rfl⟩
  | bumpRoutingtreeVersion =>
    have hs' : s' = _ := hstep
    rw [hs']
    exact ⟨h.of_eq rfl rfl rfl rfl, fun _ hb => hb.of_eq rfl rfl⟩

/-! ## Runs -/

inductive RibEvent where
  | table (op : TableOp)
  | rtBest (e : Ptr)
  | updateRibRoutes

def stepRib (env : Env) (s : Rib) : RibEvent → Option Rib
  | .table op => stepTable env s op
  | .rtBest e => olsrRtBest env s e
  | .updateRibRoutes => olsrUpdateRibRoutes env s

/-- The states of the RIB after operations that meet `ok`. -/
def RibReachable (env : Env) (ok : Rib → RibEvent → Prop) : Rib → Prop :=
  Run.Reaches (fun s => s = emptyRib) ok (stepRib env)

/-- The operation does not delete the best path of an entry. -/
def RibEvent.SparesBest (env : Env) (s : Rib) : RibEvent → Prop
  | .table op => Routing.SparesBest env s op
  | .rtBest _ | .updateRibRoutes => True

def RibEvent.SparesOwn (env : Env) (s : Rib) : RibEvent → Prop
  | .table op => Routing.SparesOwn env s op
  | .rtBest _ | .updateRibRoutes => True

instance (s : Rib) : (ev : RibEvent) → Decidable (ev.SparesOwn env s)
  | .table op => inferInstanceAs (Decidable (Routing.SparesOwn env s op))
  | .rtBest _ | .updateRibRoutes => .isTrue trivial

/-- What the pointers of the RIB say about each other. -/
structure RibInvariant (s : Rib) : Prop where
  /-- the best path of an entry is one of its paths -/
  best : ∀ d e y b, (d, e) ∈ s.routingtree → s.entry e = some y → y.best = some b → b ∈ y.pathTree.map Prod.snd
  /-- the paths of an entry point to it and have its prefix -/
  paths : ∀ d e y p, (d, e) ∈ s.routingtree → s.entry e = some y → p ∈ y.pathTree.map Prod.snd →
    ∃ x, s.path p = some x ∧ x.rt = some e ∧ x.dst = y.dst
  /-- a path that points to an entry is in the trees of the entry and of its originator -/
  linked : ∀ p x e, s.path p = some x → x.rt = some e → ∃ y t, (x.dst, e) ∈ s.routingtree ∧ s.entry e = some y ∧
    p ∈ y.pathTree.map Prod.snd ∧ s.prefixTree x.originator = some t ∧ (x.dst, p) ∈ t
  /-- the tree has live entries under their own prefixes -/
  entries : ∀ d e, (d, e) ∈ s.routingtree → ∃ y, s.entry e = some y ∧ y.dst = d
  /-- a prefix has one entry at most -/
  unique : ∀ d e f, (d, e) ∈ s.routingtree → (d, f) ∈ s.routingtree → e = f

theorem ribWf_emptyRib : RibWf emptyRib := by
  refine ⟨List.nodup_nil, ?_, ?_, ?_, ?_, ?_⟩ <;> simp [emptyRib]

theorem RibWf.step (h : RibWf s) {ev : RibEvent} (hstep : stepRib env s ev = some s') :
    RibWf s' ∧ (ev.SparesBest env s → BestOk s → BestOk s') := by
  cases ev with
  | table op => exact h.stepTable hstep
  | rtBest e => exact ⟨h.rtBest hstep, fun _ hb => hb.rtBest h hstep⟩
  | updateRibRoutes =>
    have hloop := Run.forEach_invariant (P := fun s₁ => RibWf s₁ ∧ (BestOk s → BestOk s₁)) (s := s)
      (fun s₁ e s₂ _ h₁ h₂ => ⟨h₁.1.updateRibRoute h₂, fun hb => (h₁.2 hb).updateRibRoute h₁.1 h₂⟩) ⟨h, id⟩ hstep
    exact ⟨hloop.1, fun _ => hloop.2⟩

theorem RibWf.invariant (h : RibWf s) (hb : BestOk s) : RibInvariant s where
  best d e y b hmem hy hbest := by
    obtain ⟨a, ha⟩ := hb e y b hy hbest
    exact List.mem_map.2 ⟨(a, b), ((h.pathTree e y hy).mem a b).2 ha, rfl⟩
  paths d e y p hmem hy hp := by
    obtain ⟨⟨a, q⟩, haq, rfl⟩ := List.mem_map.1 hp
    obtain ⟨x, hx, hrt, -⟩ := ((h.pathTree e y hy).mem a q).1 haq
    exact ⟨x, hx, hrt, (h.tree_dst (h.rt q x e hx hrt).1 hy).symm⟩
  linked p x e hx hrt := by
    obtain ⟨hmem, horig⟩ := h.rt p x e hx hrt
    obtain ⟨y, hy, -⟩ := h.tree _ _ hmem
    obtain ⟨t, ht⟩ := Option.isSome_iff_exists.1 (h.tc p x hx)
    refine ⟨y, t, hmem, hy, ?_, horig ▸ ht, ((h.prefixTree _ t ht).mem x.dst p).2 ⟨x, hx, rfl, rfl⟩⟩
    exact List.mem_map.2 ⟨(x.originator, p), ((h.pathTree e y hy).mem _ p).2 ⟨x, hx, hrt, rfl⟩, rfl⟩
  entries := h.tree
  unique d e f he hf := h.tree_unique he hf

theorem RibReachable.wf (h : RibReachable env (fun s ev => ev.SparesBest env s) s) : RibWf s ∧ BestOk s := by
  refine Run.Reaches.invariant (P := fun s => RibWf s ∧ BestOk s) ?_ ?_ h
  · rintro _ rfl
    exact ⟨ribWf_emptyRib, nofun⟩
  · intro s ev s' hs hok hstep
    obtain ⟨hw, hb⟩ := hs.1.step hstep
    exact ⟨hw, hb hok hs.2⟩

/-- In every run that never deletes the best path of an entry, the tables are linked as they should be. -/
theorem reachable_rib (h : RibReachable env (fun s ev => ev.SparesBest env s) s) : RibInvariant s :=
  h.wf.1.invariant h.wf.2

/-! ## A path that is deleted -/

/-- A node with IPv4 routes under Linux. -/
def linuxRouter : Env where
  platform := ⟨true, 8⟩
  cnf := { ipVersion := .inet, mainAddr := [10, 0, 0, 1], lqLevel := 2, denyEntries := denyIpv4Defaults }
  hostEmul := false
  fibmCorrect := false
  netlink := true
  exportRoutes := false
  natThresh := id

/-- Runs can be checked by looking up the entry of each deleted path. -/
theorem ribReachable_of_sparesOwn {evs : List RibEvent}
    (hrounds : Run.Rounds (fun s ev => ev.SparesOwn env s) (stepRib env) evs emptyRib)
    (hs : Run.forEach (stepRib env) evs emptyRib = some s) : RibReachable env (fun s ev => ev.SparesBest env s) s := by
  refine Run.forEach_rounds (fun s ev s' h hok hstep => .step ev h ?_ hstep) hrounds (.init rfl) hs
  cases ev with
  | table op => exact (RibReachable.wf h).2.sparesBest hok
  | rtBest e => trivial
  | updateRibRoutes => trivial

/-- Two gateways announce a network, and both are reached. -/
def announcedTwice : List TableOp :=
  [.insertRoutingTable ⟨[192, 168, 1, 0], 24⟩ [10, 0, 0, 9] 0 0 1,
    .insertRoutingTable ⟨[192, 168, 1, 0], 24⟩ [10, 0, 0, 3] 0 2 3, .bumpRoutingtreeVersion,
    .insertRtPath 1 ⟨1024, 1, [10, 0, 0, 9], 1⟩ 0, .insertRtPath 3 ⟨2048, 1, [10, 0, 0, 3], 2⟩ 1]

/-- The worse one of them stops to announce it. -/
def spareGateway : List RibEvent :=
  announcedTwice.map .table ++ [.updateRibRoutes, .table (.deleteRoutingTable ⟨[192, 168, 1, 0], 24⟩ [10, 0, 0, 3])]

theorem reachable_rib_spareGateway : ∃ s, RibReachable linuxRouter (fun s ev => ev.SparesBest linuxRouter s) s ∧
    (∃ y, s.entry 0 = some y ∧ y.best = some 1 ∧ y.pathTree = [([10, 0, 0, 9], 1)]) ∧ RibInvariant s := by
  have hrounds : Run.Rounds (fun s ev => ev.SparesOwn linuxRouter s) (stepRib linuxRouter) spareGateway emptyRib := by
    decide +kernel
  have hrun : ((Run.forEach (stepRib linuxRouter) spareGateway emptyRib).any fun s => (s.entry 0).any fun y =>
      y.best == some 1 && y.pathTree == [([10, 0, 0, 9], 1)]) = true := by decide +kernel
  obtain ⟨s, hs, hrun⟩ := (Option.any_eq_true _ _).1 hrun
  obtain ⟨y, hy, hend⟩ := (Option.any_eq_true _ _).1 hrun
  rw [Bool.and_eq_true, beq_iff_eq, beq_iff_eq] at hend
  have hreach := ribReachable_of_sparesOwn hrounds hs
  exact ⟨s, hreach, ⟨y, hy, hend⟩, reachable_rib hreach⟩

/-- A neighbour is found, and its route is elected. -/
def foundRoute : List RibEvent :=
  [.table (.insertRoutingTable ⟨[10, 0, 0, 9], 32⟩ [10, 0, 0, 9] 0 0 1), .table .bumpRoutingtreeVersion,
    .table (.insertRtPath 0 ⟨1024, 1, [10, 0, 0, 9], 1⟩ 0), .updateRibRoutes]

/-- The data of the neighbour expire before the next path calculation. -/
theorem dangling_best : ∃ s, RibReachable linuxRouter (fun _ _ => True) s ∧ ¬ RibInvariant s := by
  have hrun : ((Run.forEach (stepRib linuxRouter)
    (foundRoute ++ [.table (.deleteRoutingTable ⟨[10, 0, 0, 9], 32⟩ [10, 0, 0, 9])])
      emptyRib).any fun s => s.routingtree == [(⟨[10, 0, 0, 9], 32⟩, 0)] &&
        (s.entry 0).any fun y => y.best == some 0 && y.pathTree.isEmpty) = true := by decide +kernel
  obtain ⟨s, hs, hend⟩ := (Option.any_eq_true _ _).1 hrun
  refine ⟨s, Run.reaches_forEach (.init rfl) (Run.rounds_of_forall (fun _ _ => trivial) _ _) hs, fun hinv => ?_⟩
  simp only [Bool.and_eq_true, beq_iff_eq] at hend
  obtain ⟨htree, hentry⟩ := hend
  obtain ⟨y, hy, hbest⟩ := (Option.any_eq_true _ _).1 hentry
  simp only [Bool.and_eq_true, beq_iff_eq, List.isEmpty_iff] at hbest
  have hmem := hinv.best _ 0 y 0 (by rw [htree]; exact List.mem_cons_self ..) hy hbest.1
  rw [hbest.2] at hmem
  cases hmem

end Olsrd.Routing
