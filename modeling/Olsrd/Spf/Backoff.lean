/-
When the routing table is calculated: `olsr_process_changes`, and the timer by which `olsr_calculate_routing_table`
keeps its runs apart. An update is lost if its flags are cleared while the timer runs: nothing runs when it expires.
-/
import Olsrd.Spf.HopCount
import Olsrd.Spf.SecondRun
import Olsrd.Spf.ShortestPaths

namespace Olsrd.Spf

open Olsrd.Topology (Lsdb)

/-! ## The routes of a node -/

section

variable {Lq Hq : Type} {env : Env Lq Hq} {n n' : Node Lq Hq}

/-- A reachable node with a next hop: its address, the link to the next hop, the cost of the path and its hops. -/
abbrev Route := IpAddr × Neighbor.Ptr × Nat × UInt8

/-- The path list of a run, without the entries that have no next hop. -/
def routesOf (s : Lsdb Lq) (w : SpfRun Neighbor.Ptr) : List Route :=
  w.pathList.filterMap fun tc => do pure ((← Topology.addrOf s tc), (← w.nextHop tc), w.pathCost tc, w.hops tc)

/-- The SPF run of `olsr_calculate_routing_table`, and the database that it leaves. -/
def spfRun (env : Env Lq Hq) (n : Node Lq Hq) : Option (Node Lq Hq × List Route) := do
  let own ← Topology.olsrChangeMyselfTc env.topology n.own
  match own.tcMyself with
  | none => pure ({ n with own := own }, [])
  | some _ => do
    let (n, w) ← spfPrepare env n blankRun
    let w ← w.olsrSpfRunFull n.own.lsdb (n.own.lsdb.tcTree.length + 1)
    pure (n, routesOf n.own.lsdb w)

theorem spfRun_cases (hn : NodeWf env n) {x : Node Lq Hq × List Route} (h : spfRun env n = some x) :
    (∃ w w', spfPrepare env n blankRun = some (x.1, w) ∧
      w.olsrSpfRunFull x.1.own.lsdb (x.1.own.lsdb.tcTree.length + 1) = some w' ∧ x.2 = routesOf x.1.own.lsdb w') ∨
    n.own.tcMyself = none ∧ x = ({ n with own := { n.own with changesTopology := true } }, []) := by
  obtain ⟨own, hown, h⟩ := Option.bind_eq_some_iff.1 h
  obtain ⟨p, hp, heq⟩ | ⟨hnone, heq⟩ := changeMyself_of_nodeWf hn
  · obtain rfl := Option.some.inj (heq.symm.trans hown)
    rw [hp] at h
    obtain ⟨⟨n', w⟩, hprep, h⟩ := Option.bind_eq_some_iff.1 h
    obtain ⟨w', hw', h⟩ := Option.bind_eq_some_iff.1 h
    obtain rfl := Option.some.inj h
    exact .inl ⟨w, w', hprep, hw', rfl⟩
  · obtain rfl := Option.some.inj (heq.symm.trans hown)
    simp only [hnone] at h
    refine .inr ⟨hnone, ?_⟩
    rw [← hnone] at h
    exact (Option.some.inj h).symm

/-- What a run has to find for a second one to give the same routes. -/
structure Sized (env : Env Lq Hq) (n : Node Lq Hq) : Prop where
  nodeWf : NodeWf env n
  own : OwnSized env n
  keys : Neighbor.KeysIn (fun a => a.length = env.cnf.ipsize) n.nbh

/-- A second run gives the same routes if the first one has created idle edges only. -/
theorem spfRun_again (h : Sized env n) (hidle : NewEdgesIdle env n) {routes : List Route}
    (hrun : spfRun env n = some (n', routes)) : ∃ n₂, spfRun env n' = some (n₂, routes) := by
  obtain ⟨w, w', hprep, hw', hroutes⟩ | ⟨hnone, heq⟩ := spfRun_cases h.nodeWf hrun
  · obtain rfl : routes = routesOf n'.own.lsdb w' := hroutes
    obtain ⟨n₂, hprep₂, hn', hn₂, htree, haddr, hgraph⟩ := spfPrepare_again h.nodeWf h.own h.keys hidle hprep
    obtain ⟨p, hp⟩ : ∃ p, n'.own.tcMyself = some p := by
      obtain ⟨p, hdone⟩ := spfPrepare_spec h.nodeWf hprep
      exact ⟨p, hdone.tcMyself⟩
    obtain ⟨q, -, hown⟩ | ⟨hnone, -⟩ := changeMyself_of_nodeWf hn'
    swap
    · rw [hp] at hnone; cases hnone
    have hrun₂ : w.olsrSpfRunFull n₂.own.lsdb (n₂.own.lsdb.tcTree.length + 1) = some w' := by
      rw [htree, olsrSpfRunFull_congr hn'.lsdb hn₂.lsdb haddr hgraph]
      exact hw'
    refine ⟨n₂, ?_⟩
    simp only [spfRun, hown, hp, hprep₂, hrun₂, Option.bind_eq_bind, Option.bind_some, routesOf, haddr]
    rfl
  · obtain ⟨rfl, rfl⟩ := Prod.mk.inj heq
    have hn' : NodeWf env { n with own := { n.own with changesTopology := true } } :=
      ⟨h.nodeWf.lsdb, h.nodeWf.ordered, h.nodeWf.own, h.nodeWf.main⟩
    obtain ⟨p, hp, -⟩ | ⟨-, hown⟩ := changeMyself_of_nodeWf hn'
    · rw [show n.own.tcMyself = some p from hp] at hnone; cases hnone
    refine ⟨{ n with own := { n.own with changesTopology := true } }, ?_⟩
    simp only [spfRun, hown, Option.bind_eq_bind, Option.bind_some]
    split
    · rfl
    · next hp => rw [show n.own.tcMyself = some _ from hp] at hnone; cases hnone

theorem spfRun_loop (hn : NodeWf env n) {x : Node Lq Hq × List Route} (h : spfRun env n = some x) :
    neighborLoop env n = some x.1 := by
  obtain ⟨w, w', hprep, -, -⟩ | ⟨hnone, rfl⟩ := spfRun_cases hn h
  · obtain ⟨p, hdone⟩ := spfPrepare_spec hn hprep
    exact hdone.loop
  · obtain ⟨p, hp, -⟩ | ⟨-, hown⟩ := changeMyself_of_nodeWf hn
    · rw [hnone] at hp; cases hp
    simp only [neighborLoop, hown, Option.bind_eq_bind, Option.bind_some]
    split
    · rfl
    · next hp => rw [show n.own.tcMyself = some _ from hp] at hnone; cases hnone

/-- The addresses that an event brings are of the configured family. -/
def Event.Sized (env : Env Lq Hq) : Event Hq → Prop
  | .nbh ev => ev.Brings fun a => a.length = env.cnf.ipsize
  | _ => True

theorem OwnFrame.sized (h : OwnFrame env n n') (hs : Spf.Sized env n) : Spf.Sized env n' := by
  refine ⟨h.nodeWf, fun p b x hp hx => ?_, h.nbh ▸ hs.keys⟩
  rw [h.tcMyself] at hp
  rw [h.edges p hp] at hx
  exact hs.own p b x hp hx

theorem Sized.nbhStep (h : Sized env n) {ev : Neighbor.Event} (hsized : Event.Sized env (.nbh ev))
    (hstep : step env n (.nbh ev) = some n') : Sized env n' := by
  have hdone := nbhStep_spec h.nodeWf hstep
  refine ⟨hdone.nodeWf, fun p b x hp hx => ?_, h.keys.step hsized hdone.nbh⟩
  rw [hdone.tcMyself] at hp
  by_cases hdel : ∃ l, ev = .deleteLink l
  · obtain ⟨l, rfl⟩ := hdel
    rw [hdone.deleted p l hp rfl] at hx
    by_cases hb : b = l.neighborIfaceAddr
    · rw [hb, Function.update_self] at hx; cases hx
    · rw [Function.update_of_ne hb] at hx
      exact h.own p b x hp hx
  · rw [hdone.same fun l hl => hdel ⟨l, hl⟩] at hx
    exact h.own p b x hp hx

theorem Sized.neighborLoop (h : Sized env n) (hloop : Spf.neighborLoop env n = some n') : Sized env n' := by
  obtain ⟨hn', hnbh⟩ := neighborLoop_frame h.nodeWf hloop
  refine ⟨hn', ?_, hnbh ▸ h.keys⟩
  obtain ⟨p, hp, hloop⟩ | ⟨-, rfl⟩ := neighborLoop_cases h.nodeWf hloop
  · exact ownSized_loop h.nodeWf hp hloop h.own h.keys
  · exact h.own

theorem Sized.step (h : Sized env n) {ev : Event Hq} (hen : ev.Enabled env n) (hsized : ev.Sized env)
    (hstep : Spf.step env n ev = some n') : Sized env n' := by
  cases ev with
  | nbh ev => exact h.nbhStep hsized hstep
  | spf => exact h.neighborLoop hstep
  | linkquality id quality => exact (OwnFrame.step h.nodeWf hen trivial hstep).sized h
  | inputTc symLink msg => exact (OwnFrame.step h.nodeWf hen trivial hstep).sized h
  | expireTc tc => exact (OwnFrame.step h.nodeWf hen trivial hstep).sized h
  | expireEdgeGc tc => exact (OwnFrame.step h.nodeWf hen trivial hstep).sized h

theorem sized_start (h : Start env n) : Sized env n := by
  obtain ⟨hn, hno⟩ := start_spec h
  refine ⟨hn, fun p b x _ hx => ?_, fun q a hq => ?_⟩
  · obtain ⟨-, -, e, he⟩ := (Topology.edgeAt_eq_some_iff hn.lsdb).1 hx
    rw [hno] at he; cases he
  · rw [h.1] at hq; cases hq

end

/-! ## The daemon -/

/-- What is calculated outside of the SPF run: the relays, and the routing table for the routes and what the nodes
announce. `E` is the state that they need, with the relays. -/
structure Calculation (Lq Hq E R : Type) where
  env : Env Lq Hq
  olsrCalculateMpr : Node Lq Hq → E → E
  olsrCalculateLqMpr : Node Lq Hq → E → E
  routingTable : E → List Route → R

structure Daemon (Lq Hq E R : Type) where
  node : Node Lq Hq
  announced : E
  routes : R
  changesNeighborhood : Bool
  changesTopology : Bool
  changesHna : Bool
  changesForce : Bool
  /-- `spf_backoff_timer` is running -/
  spfBackoffTimer : Bool

section

variable {Lq Hq E R : Type} {c : Calculation Lq Hq E R} {s s' : Daemon Lq Hq E R}

/-- A flag is set that `olsr_process_changes` looks at. -/
def Daemon.changed (s : Daemon Lq Hq E R) : Bool := s.changesNeighborhood || s.changesTopology || s.changesHna

def olsrExpireSpfBackoff (s : Daemon Lq Hq E R) : Daemon Lq Hq E R := { s with spfBackoffTimer := false }

def olsrCalculateRoutingTable (c : Calculation Lq Hq E R) (force : Bool) (s : Daemon Lq Hq E R) :
    Option (Daemon Lq Hq E R) :=
  if !force && s.spfBackoffTimer then some s
  else do
    let s := if force then s else { s with spfBackoffTimer := true }
    let (node, routes) ← spfRun c.env s.node
    pure { s with node := node, routes := c.routingTable s.announced routes }

/-- The calculation of the relays, if the neighbourhood has changed. -/
def calculateRelays (c : Calculation Lq Hq E R) (s : Daemon Lq Hq E R) : Daemon Lq Hq E R :=
  if s.changesNeighborhood then
    { s with announced :=
        if c.env.cnf.lqLevel < 1 then c.olsrCalculateMpr s.node s.announced
        else c.olsrCalculateLqMpr s.node s.announced }
  else s

def olsrProcessChanges (c : Calculation Lq Hq E R) (s : Daemon Lq Hq E R) : Option (Daemon Lq Hq E R) :=
  if !s.changed then some s
  else (olsrCalculateRoutingTable c false (calculateRelays c s)).map fun s =>
    { s with changesNeighborhood := false, changesTopology := false, changesHna := false, changesForce := false }

/-! ## Runs -/

inductive Action (Hq E : Type) where
  /-- the database changes, which sets some of the flags -/
  | change (ev : Event Hq) (neighborhood topology hna : Bool)
  /-- what is announced changes, for instance the networks of a node -/
  | announce (write : E → E) (neighborhood topology hna : Bool)
  | processChanges
  /-- the timer expires -/
  | expire

/-- Some flags are set. -/
def Daemon.set (s : Daemon Lq Hq E R) (neighborhood topology hna : Bool) : Daemon Lq Hq E R :=
  { s with
    changesNeighborhood := s.changesNeighborhood || neighborhood
    changesTopology := s.changesTopology || topology
    changesHna := s.changesHna || hna }

def Daemon.step (c : Calculation Lq Hq E R) (s : Daemon Lq Hq E R) : Action Hq E → Option (Daemon Lq Hq E R)
  | .change ev neighborhood topology hna =>
    if neighborhood || topology || hna then
      (Spf.step c.env s.node ev).map fun node => { s.set neighborhood topology hna with node := node }
    else none
  | .announce write neighborhood topology hna =>
    if neighborhood || topology || hna then
      some { s.set neighborhood topology hna with announced := write s.announced }
    else none
  | .processChanges => olsrProcessChanges c s
  | .expire => if s.spfBackoffTimer then some (olsrExpireSpfBackoff s) else none

/-- The routing table is the one that an SPF run on the database gives. -/
def UpToDate (c : Calculation Lq Hq E R) (s : Daemon Lq Hq E R) : Prop :=
  ∃ x ∈ spfRun c.env s.node, s.routes = c.routingTable s.announced x.2

instance [DecidableEq R] (c : Calculation Lq Hq E R) (s : Daemon Lq Hq E R) : Decidable (UpToDate c s) :=
  decidable_of_iff ((spfRun c.env s.node).any fun x => decide (s.routes = c.routingTable s.announced x.2))
    (by simp [UpToDate, Option.any_eq_true])

/-- The node has just been started, and has the routes of its database. -/
structure Daemon.Start (c : Calculation Lq Hq E R) (s : Daemon Lq Hq E R) : Prop where
  node : Spf.Start c.env s.node
  changed : s.changed = false
  timer : s.spfBackoffTimer = false
  routes : UpToDate c s

/-- The event of the node can happen. -/
def Action.Enabled (c : Calculation Lq Hq E R) (s : Daemon Lq Hq E R) : Action Hq E → Prop
  | .change ev .. => ev.Enabled c.env s.node ∧ ev.Sized c.env
  | _ => True

/-- Flags are cleared only when the timer is not running, and the run creates idle edges only. -/
def Unhindered (c : Calculation Lq Hq E R) (s : Daemon Lq Hq E R) : Action Hq E → Prop
  | .processChanges => s.changed = true → s.spfBackoffTimer = false ∧ NewEdgesIdle c.env s.node
  | _ => True

instance (c : Calculation Lq Hq E R) (s : Daemon Lq Hq E R) : ∀ a, Decidable (Unhindered c s a)
  | .processChanges => inferInstanceAs (Decidable (_ = true → _ ∧ _))
  | .change .. | .announce .. | .expire => .isTrue trivial

theorem calculateRelays_frame : (calculateRelays c s).spfBackoffTimer = s.spfBackoffTimer ∧
    (calculateRelays c s).node = s.node ∧ (calculateRelays c s).routes = s.routes := by
  unfold calculateRelays
  split <;> exact ⟨rfl, rfl, rfl⟩

/-- While the timer runs, the flags are cleared, and the database and the routes stay. -/
theorem olsrProcessChanges_backoff (htimer : s.spfBackoffTimer = true) (h : olsrProcessChanges c s = some s') :
    s'.changed = false ∧ s'.node = s.node ∧ s'.routes = s.routes := by
  obtain ⟨hrelays, hnode, hroutes⟩ := @calculateRelays_frame _ _ _ _ c s
  unfold olsrProcessChanges at h
  split at h
  · next hsame =>
    obtain rfl := Option.some.inj h
    exact ⟨by simpa using hsame, rfl, rfl⟩
  · rw [olsrCalculateRoutingTable, if_pos (by simp [hrelays, htimer]), Option.map_some] at h
    obtain rfl := Option.some.inj h
    exact ⟨rfl, hnode, hroutes⟩

/-- When the timer does not run, the routes are those of an SPF run on the database before. -/
theorem olsrProcessChanges_run (hchanged : s.changed = true) (htimer : s.spfBackoffTimer = false)
    (h : olsrProcessChanges c s = some s') : ∃ routes, spfRun c.env s.node = some (s'.node, routes) ∧
      s'.routes = c.routingTable s'.announced routes := by
  obtain ⟨hrelays, hnode, -⟩ := @calculateRelays_frame _ _ _ _ c s
  rw [olsrProcessChanges, if_neg (by simp [hchanged]), olsrCalculateRoutingTable,
    if_neg (by simp [hrelays, htimer])] at h
  obtain ⟨s₁, hs₁, rfl⟩ := Option.map_eq_some_iff.1 h
  obtain ⟨⟨node, routes⟩, hrun, hs₁⟩ := Option.bind_eq_some_iff.1 hs₁
  obtain rfl := Option.some.inj hs₁
  exact ⟨routes, hnode ▸ hrun, rfl⟩

/-- The node is in order, and its routes are up to date if no flag is set. -/
structure DaemonInv (c : Calculation Lq Hq E R) (s : Daemon Lq Hq E R) : Prop where
  sized : Sized c.env s.node
  upToDate : s.changed = false → UpToDate c s

theorem DaemonInv.processChanges (h : DaemonInv c s) (hok : Unhindered c s .processChanges)
    (hstep : olsrProcessChanges c s = some s') : DaemonInv c s' := by
  by_cases hchanged : s.changed = true
  · obtain ⟨htimer, hidle⟩ := hok hchanged
    obtain ⟨routes, hrun, hroutes⟩ := olsrProcessChanges_run hchanged htimer hstep
    obtain ⟨n, hagain⟩ := spfRun_again h.sized hidle hrun
    exact ⟨h.sized.neighborLoop (spfRun_loop h.sized.nodeWf hrun), fun _ => ⟨_, hagain, hroutes⟩⟩
  · rw [olsrProcessChanges, if_pos (by simpa using hchanged)] at hstep
    obtain rfl := Option.some.inj hstep
    exact h

theorem changed_set {neighborhood topology hna : Bool} (h : (neighborhood || topology || hna) = true) :
    (s.set neighborhood topology hna).changed = true := by
  simp only [Daemon.changed, Daemon.set, Bool.or_eq_true] at h ⊢
  tauto

theorem DaemonInv.step (h : DaemonInv c s) {a : Action Hq E} (hen : a.Enabled c s) (hok : Unhindered c s a)
    (hstep : s.step c a = some s') : DaemonInv c s' := by
  cases a with
  | change ev neighborhood topology hna =>
    dsimp only [Daemon.step] at hstep
    split at hstep
    · next hflag =>
      obtain ⟨node, hnode, rfl⟩ := Option.map_eq_some_iff.1 hstep
      exact ⟨h.sized.step hen.1 hen.2 hnode, fun hsame => absurd ((changed_set hflag).symm.trans hsame) nofun⟩
    · cases hstep
  | announce write neighborhood topology hna =>
    dsimp only [Daemon.step] at hstep
    split at hstep
    · next hflag =>
      obtain rfl := Option.some.inj hstep
      exact ⟨h.sized, fun hsame => absurd ((changed_set hflag).symm.trans hsame) nofun⟩
    · cases hstep
  | processChanges => exact h.processChanges hok hstep
  | expire =>
    dsimp only [Daemon.step] at hstep
    split at hstep
    · obtain rfl := Option.some.inj hstep
      exact ⟨h.sized, h.upToDate⟩
    · cases hstep

/-- If no flag is cleared while the timer runs, and every run creates idle edges only, the routes are up to date
whenever no flag is set and no timer runs. -/
theorem reachable_upToDate (c : Calculation Lq Hq E R) (s : Daemon Lq Hq E R)
    (h : Run.Reaches (Daemon.Start c) (fun s a => a.Enabled c s ∧ Unhindered c s a) (Daemon.step c) s)
    (hsame : s.changed = false) (_ : s.spfBackoffTimer = false) : UpToDate c s :=
  (Run.Reaches.invariant (fun _ hs => ⟨sized_start hs.node, fun _ => hs.routes⟩)
    (fun _ _ _ hinv hok hstep => DaemonInv.step hinv hok.1 hok.2 hstep) h).upToDate hsame

end

/-! ## Two runs -/

/-- SPF runs of a node with nothing announced. -/
def ffCalculation : Calculation (UInt8 × UInt8) (UInt8 × UInt8) Unit (List Route) where
  env := ffEnv
  olsrCalculateMpr _ := id
  olsrCalculateLqMpr _ := id
  routingTable _ routes := routes

/-- A node that has just been started. -/
def ffDaemon : Option (Daemon (UInt8 × UInt8) (UInt8 × UInt8) Unit (List Route)) :=
  ffStart.map fun n => ⟨n, (), [], false, false, false, false, false⟩

/-- A perfect link to a neighbour, whose TC comes after the first SPF run. -/
def neighborFound : List (Action (UInt8 × UInt8) Unit) :=
  (newNeighbor [10, 0, 0, 2] 255).map (.change · true true false) ++
    [.processChanges, .expire, .change (.inputTc true ownTc) false true false, .processChanges]

theorem start_ffDaemon {s : Daemon (UInt8 × UInt8) (UInt8 × UInt8) Unit (List Route)} (h : ffDaemon = some s)
    (hroutes : UpToDate ffCalculation s) : Daemon.Start ffCalculation s := by
  obtain ⟨n, hn, rfl⟩ := Option.map_eq_some_iff.1 h
  exact ⟨start_ffStart hn, rfl, rfl, hroutes⟩

theorem enabled_neighborFound : ∀ a ∈ neighborFound, ∀ s, a.Enabled ffCalculation s := by
  have hforeign : (Topology.headerOf ffEnv.topology ownTc).originator ≠ ffEnv.cnf.mainAddr := by decide
  simp only [neighborFound, newNeighbor, List.map_cons, List.map_nil, List.cons_append, List.nil_append,
    List.forall_mem_cons]
  exact ⟨fun _ => ⟨trivial, rfl⟩, fun _ => ⟨trivial, trivial⟩, fun _ => ⟨trivial, trivial⟩, fun _ => trivial,
    fun _ => trivial, fun _ => ⟨hforeign, trivial⟩, fun _ => trivial, by simp⟩

/-- When the timer has expired, there is a route to the neighbour. -/
theorem reachable_upToDate_neighborFound : ∃ s : Daemon (UInt8 × UInt8) (UInt8 × UInt8) Unit (List Route),
    s.routes = [([10, 0, 0, 2], 0, 1024, 1)] ∧ UpToDate ffCalculation s := by
  have hrun : (ffDaemon.any fun s₀ => decide (UpToDate ffCalculation s₀) &&
      decide (Run.Rounds (Unhindered ffCalculation) (Daemon.step ffCalculation) (neighborFound ++ [.expire]) s₀) &&
      (Run.forEach (Daemon.step ffCalculation) (neighborFound ++ [.expire]) s₀).any fun s =>
        s.routes == [([10, 0, 0, 2], 0, 1024, 1)] && s.changed == false && s.spfBackoffTimer == false) = true := by
    decide +kernel
  obtain ⟨s₀, h₀, hrun⟩ := (Option.any_eq_true _ _).1 hrun
  simp only [Bool.and_eq_true, decide_eq_true_iff] at hrun
  obtain ⟨⟨hstart, hrounds⟩, hrun⟩ := hrun
  obtain ⟨s, hs, hrun⟩ := (Option.any_eq_true _ _).1 hrun
  simp only [Bool.and_eq_true, beq_iff_eq] at hrun
  obtain ⟨⟨hroutes, hsame⟩, htimer⟩ := hrun
  have henabled : Run.Rounds (fun s a => a.Enabled ffCalculation s) (Daemon.step ffCalculation)
      (neighborFound ++ [.expire]) s₀ := Run.rounds_of_mem s₀ fun a ha s => by
    obtain ha | ha := List.mem_append.1 ha
    · exact enabled_neighborFound a ha s
    · obtain rfl := List.mem_singleton.1 ha
      trivial
  exact ⟨s, hroutes, reachable_upToDate _ s
    (Run.reaches_forEach (.init (start_ffDaemon h₀ hstart)) (henabled.and hrounds) hs) hsame htimer⟩

/-- The neighbour goes while the timer runs, and the route to it stays. -/
theorem neighborGone_not_upToDate : ∃ s : Daemon (UInt8 × UInt8) (UInt8 × UInt8) Unit (List Route),
    Run.Reaches (Daemon.Start ffCalculation) (fun s a => a.Enabled ffCalculation s) (Daemon.step ffCalculation) s ∧
      s.changed = false ∧ s.spfBackoffTimer = false ∧ ¬UpToDate ffCalculation s := by
  have hrun : (ffDaemon.any fun s₀ => decide (UpToDate ffCalculation s₀) &&
      (Run.forEach (Daemon.step ffCalculation) neighborFound s₀).any fun s₁ => s₁.node.own.tcMyself != some 3 &&
        (Run.forEach (Daemon.step ffCalculation)
        [.change (.expireTc 3) false true false, .processChanges, .expire] s₁).any
          fun s => s.changed == false && s.spfBackoffTimer == false && !decide (UpToDate ffCalculation s)) = true := by
    decide +kernel
  obtain ⟨s₀, h₀, hrun⟩ := (Option.any_eq_true _ _).1 hrun
  simp only [Bool.and_eq_true, decide_eq_true_iff] at hrun
  obtain ⟨hstart, hrun⟩ := hrun
  obtain ⟨s₁, hs₁, hrun⟩ := (Option.any_eq_true _ _).1 hrun
  simp only [Bool.and_eq_true, bne_iff_ne] at hrun
  obtain ⟨hforeign, hrun⟩ := hrun
  obtain ⟨s, hs, hrun⟩ := (Option.any_eq_true _ _).1 hrun
  simp only [Bool.and_eq_true, beq_iff_eq, Bool.not_eq_true', decide_eq_false_iff_not] at hrun
  obtain ⟨⟨hsame, htimer⟩, hnot⟩ := hrun
  have hreach := Run.reaches_forEach (.init (start_ffDaemon h₀ hstart))
    (Run.rounds_of_mem s₀ fun a ha s => enabled_neighborFound a ha s) hs₁
  have hlater : Run.Rounds (fun s a => a.Enabled ffCalculation s) (Daemon.step ffCalculation)
      [.change (.expireTc 3) false true false, .processChanges, .expire] s₁ :=
    ⟨⟨hforeign, trivial⟩, fun _ _ => ⟨trivial, fun _ _ => ⟨trivial, fun _ _ => trivial⟩⟩⟩
  exact ⟨s, Run.reaches_forEach hreach hlater hs, hsame, htimer, hnot⟩

end Olsrd.Spf
