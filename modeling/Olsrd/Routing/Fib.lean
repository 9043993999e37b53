/-
The forwarding table of the kernel follows the routing information base: over any run of table operations
and route updates, a route update leaves exactly the prefixes of the routing tree in the kernel, each by
the next hop of its best path, and orders its operations so that gateways can be reached.
-/
import Olsrd.Routing.Kernel

namespace Olsrd.Routing

open Keyed
open Olsrd.Topology (IpPrefix prefixLt maxplen olsrRtOriginInt)

variable {env : Env} {s s' : Rib}

/-! ## Between route updates -/

/-- What a path has to be like to be installed. -/
def Installable (env : Env) (x : RtPath) : Prop :=
  0 ≤ x.nexthop.iifIndex ∧ ipIsLinklocal env.cnf x.dst.addr = false

/-- No work is pending, every entry is in the routing tree, and the kernel has what is installed. -/
structure FibInv (env : Env) (s : Rib) : Prop where
  wf : RibWf s
  mirrors : Mirrors s
  live : ∀ e y, s.entry e = some y → (y.dst, e) ∈ s.routingtree
  chg : s.chgKernelList = []
  del : s.delKernelList = []
  paths : ∀ p x, s.path p = some x → Installable env x
  dsts : ∀ e y, s.entry e = some y → ipIsLinklocal env.cnf y.dst.addr = false

theorem FibInv.global (h : FibInv env s) : Global env s := ⟨h.dsts, fun p x hx => (h.paths p x hx).2⟩

/-- The routes and the work lists are the same. -/
structure SameRoutes (s s' : Rib) : Prop where
  entries : ∀ e, (s'.entry e).map RtEntry.route = (s.entry e).map RtEntry.route
  kernel : s'.kernel = s.kernel
  tree : s'.routingtree = s.routingtree
  chg : s'.chgKernelList = s.chgKernelList
  del : s'.delKernelList = s.delKernelList

theorem SameRoutes.setEntry {e : Ptr} {y y' : RtEntry} (hy : s.entry e = some y) (hroute : y'.route = y.route) :
    SameRoutes s (s.setEntry e y') := by
  refine ⟨fun f => ?_, rfl, rfl, rfl, rfl⟩
  by_cases hf : f = e
  · subst hf; simp [Rib.setEntry, hy, hroute]
  · simp [Rib.setEntry, Function.update_of_ne hf]

theorem FibInv.sameRoutes (h : FibInv env s) (hsame : SameRoutes s s') (hwf : RibWf s')
    (hpaths : ∀ p x, s'.path p = some x → Installable env x) : FibInv env s' := by
  have hold {e : Ptr} {y' : RtEntry} (hy' : s'.entry e = some y') : ∃ y, s.entry e = some y ∧ y'.dst = y.dst := by
    have he := hsame.entries e
    rw [hy', Option.map_some, eq_comm, Option.map_eq_some_iff] at he
    obtain ⟨y, hy, hroute⟩ := he
    exact ⟨y, hy, (congrArg Prod.fst hroute).symm⟩
  refine ⟨hwf, h.mirrors.of_eq hsame.entries hsame.kernel, ?_, hsame.chg.trans h.chg, hsame.del.trans h.del, hpaths, ?_⟩
  · intro e y' hy'
    obtain ⟨y, hy, hdst⟩ := hold hy'
    rw [hsame.tree, hdst]
    exact h.live e y hy
  · intro e y' hy'
    obtain ⟨y, hy, hdst⟩ := hold hy'
    rw [hdst]
    exact h.dsts e y hy

/-- A new entry is not installed. -/
theorem FibInv.allocEntry (h : FibInv env s) {d : IpPrefix} {e : Ptr} (he : s.entry e = none)
    (hno : ∀ f, (d, f) ∉ s.routingtree) (hglobal : ipIsLinklocal env.cnf d.addr = false) :
    FibInv env (olsrAllocRtEntry env s d e) := by
  have hold {f : Ptr} {z : RtEntry} (hz : (olsrAllocRtEntry env s d e).entry f = some z) :
      (f = e ∧ z.dst = d ∧ z.nexthop.iifIndex = -1) ∨ s.entry f = some z := by
    change Function.update s.entry e _ f = some z at hz
    by_cases hf : f = e
    · rw [hf, Function.update_self] at hz
      obtain rfl := Option.some.inj hz
      exact .inl ⟨hf, rfl, rfl⟩
    · rw [Function.update_of_ne hf] at hz
      exact .inr hz
  have hnew {f : Ptr} {z : RtEntry} (hz : s.entry f = some z) : (olsrAllocRtEntry env s d e).entry f = some z := by
    have hf : f ≠ e := by rintro rfl; rw [he] at hz; cases hz
    exact (Function.update_of_ne hf _ _).trans hz
  have hdst {f : Ptr} {z : RtEntry} (hz : s.entry f = some z) : z.dst ≠ d := by
    rintro rfl
    exact hno f (h.live f z hz)
  refine ⟨h.wf.allocEntry he hno, ⟨?_, fun d' nh => ?_⟩, ?_, h.chg, h.del, h.paths, ?_⟩
  · intro f g y z hy hz hyz
    rcases hold hy with ⟨hf, hyd, -⟩ | hy'
    · rcases hold hz with ⟨hg, -⟩ | hz'
      · exact hf.trans hg.symm
      · exact absurd (hyz.symm.trans hyd) (hdst hz')
    · rcases hold hz with ⟨-, hzd, -⟩ | hz'
      · exact absurd (hyz.trans hzd) (hdst hy')
      · exact h.mirrors.unique f g y z hy' hz' hyz
  · rw [show (olsrAllocRtEntry env s d e).kernel = s.kernel from rfl, h.mirrors.kernel]
    constructor
    · rintro ⟨f, z, hz, hrest⟩
      exact ⟨f, z, hnew hz, hrest⟩
    · rintro ⟨f, z, hz, hd, hnh, hif⟩
      rcases hold hz with ⟨rfl, -, hnot⟩ | hz
      · rw [← hnh, hnot] at hif
        cases hif
      · exact ⟨f, z, hz, hd, hnh, hif⟩
  · intro f z hz
    rcases hold hz with ⟨rfl, rfl, -⟩ | hz
    · exact mem_insert.2 (.inl rfl)
    · exact mem_insert.2 (.inr (h.live f z hz))
  · intro f z hz
    rcases hold hz with ⟨rfl, rfl, -⟩ | hz
    · exact hglobal
    · exact h.dsts f z hz

/-- The destinations an operation brings in are no link local addresses. -/
def TableOp.GlobalDst (env : Env) : TableOp → Prop
  | .insertRoutingTable dst originator _ _ _ =>
    ipIsLinklocal env.cnf dst.addr = false ∧ ipIsLinklocal env.cnf originator = false
  | _ => True

theorem FibInv.insertPrefix (h : FibInv env s) {a : IpAddr} {d : IpPrefix} {origin : Nat} {p : Ptr}
    (hp : s.path p = none)
    (hglobal : ipIsLinklocal env.cnf d.addr = false) (hins : insertPrefix env s a d origin p = some s') :
    FibInv env s' := by
  have hwf := (h.wf.insertPrefix hp hins).1
  rcases insertPrefix_cases hins with ⟨rfl, -⟩ | ⟨t, ht, hno, rfl⟩
  · exact h
  · refine h.sameRoutes ⟨fun _ => rfl, rfl, rfl, rfl, rfl⟩ hwf fun q x hx => ?_
    rcases (exists_path_alloc hp).1 hx with hx | ⟨-, rfl⟩
    · exact h.paths q x hx
    · exact ⟨le_refl _, hglobal⟩

theorem FibInv.insertRoutingTable (h : FibInv env s) {d : IpPrefix} {a : IpAddr} {origin : Nat} {p q : Ptr}
    (hp : s.path p = none) (hq : s.path q = none) (hpq : p ≠ q) (hd : ipIsLinklocal env.cnf d.addr = false)
    (ha : ipIsLinklocal env.cnf a = false) (hins : olsrInsertRoutingTable env s d a origin p q = some s') :
    FibInv env s' := by
  rcases olsrInsertRoutingTable_cases hins with ⟨rfl, -⟩ | ⟨s₁, hloc, hins⟩
  · exact h
  · have hkept := (h.wf.locateTcEntry hp hloc).2.2
    refine FibInv.insertPrefix ?_ ((hkept q hpq.symm).trans hq) hd hins
    rcases olsrLocateTcEntry_cases hloc with ⟨rfl, -⟩ | ⟨hnew, hown⟩
    · exact h
    · have h₁ : FibInv env (s.setPrefixTree a []) :=
        h.sameRoutes ⟨fun _ => rfl, rfl, rfl, rfl, rfl⟩ (h.wf.newTc hnew) h.paths
      exact h₁.insertPrefix hp ha hown

theorem FibInv.deleteRtPath (h : FibInv env s) {p : Ptr} (hdel : olsrDeleteRtPath s p = some s') : FibInv env s' := by
  have hwf := h.wf.deleteRtPath hdel
  obtain ⟨x, t, g, hx, ht, ⟨hrt, rfl⟩ | ⟨e, y, hrt, hy, rfl⟩⟩ := olsrDeleteRtPath_cases hdel
  · refine h.sameRoutes ⟨fun _ => rfl, rfl, rfl, rfl, rfl⟩ hwf fun q z hz => ?_
    exact h.paths q z ((exists_path_freed (a := x.tc) (t := t)).1 hz).1
  · have hroutes := @SameRoutes.setEntry _ _ y { y with pathTree := Keyed.erase p y.pathTree } hy rfl
    refine h.sameRoutes ⟨hroutes.entries, rfl, rfl, rfl, rfl⟩ hwf fun q z hz => ?_
    obtain ⟨hz, hq⟩ := (exists_path_freed (a := x.tc) (t := t)).1 hz
    rw [path_detached_of_ne hq] at hz
    exact h.paths q z hz

theorem FibInv.updateRtPath (h : FibInv env s) {p : Ptr} {r : SpfResult} (hupd : olsrUpdateRtPath s p r = some s') :
    FibInv env s' := by
  have hwf := (sameLinks_updateRtPath hupd).wf h.wf
  obtain ⟨x, hx, rfl⟩ := olsrUpdateRtPath_cases hupd
  refine h.sameRoutes ⟨fun _ => rfl, rfl, rfl, rfl, rfl⟩ hwf fun q z hz => ?_
  change Function.update s.path p _ q = some z at hz
  by_cases hq : q = p
  · rw [hq, Function.update_self] at hz
    obtain rfl := Option.some.inj hz
    exact ⟨Int.natCast_nonneg _, (h.paths p x hx).2⟩
  · rw [Function.update_of_ne hq] at hz
    exact h.paths q z hz

theorem FibInv.locateRtEntry (h : FibInv env s) {d : IpPrefix} {e : Ptr} (he : s.entry e = none)
    (hglobal : ipIsLinklocal env.cnf d.addr = false) : FibInv env (locateRtEntry env s d e).1 := by
  rcases locateRtEntry_cases env s d e with ⟨rt, hf, heq⟩ | ⟨hf, heq⟩
  · rw [heq]; exact h
  · rw [heq]; exact h.allocEntry he (h.wf.find_eq_none.1 hf) hglobal

theorem FibInv.insertRtPath (h : FibInv env s) {p : Ptr} {r : SpfResult} {e : Ptr} (he : s.entry e = none)
    (hunused : ∀ x, s.path p = some x → x.rt = none) (hins : olsrInsertRtPath env s p r e = some s') :
    FibInv env s' := by
  rcases olsrInsertRtPath_cases hins with rfl | ⟨x, s₁, hx, hlink, hupd⟩
  · exact h
  · have h₀ : FibInv env (Routing.locateRtEntry env s x.dst e).1 := h.locateRtEntry he (h.paths p x hx).2
    have hmem := (@RibWf.locateRtEntry env s h.wf x.dst e he).2
    have hx₀ : (Routing.locateRtEntry env s x.dst e).1.path p = some x := by rw [path_locateRtEntry]; exact hx
    refine FibInv.updateRtPath ?_ hupd
    rcases linkRtPath_cases h₀.wf hx₀ hmem hlink with ⟨y, hrt, hy, rfl⟩ | ⟨hrt, -⟩
    · have hroutes := @SameRoutes.setEntry _ _ y { y with pathTree := Keyed.insert env.addrLt x.tc p y.pathTree } hy rfl
      refine h₀.sameRoutes ⟨hroutes.entries, rfl, rfl, rfl, rfl⟩ (h₀.wf.attached hx₀ hrt hmem hy) fun q z hz => ?_
      by_cases hq : q = p
      · rw [hq, path_attached_self] at hz
        obtain rfl := Option.some.inj hz
        exact h.paths p x hx
      · rw [path_attached_of_ne hq] at hz
        exact h₀.paths q z hz
    · rw [hunused x hx] at hrt
      cases hrt

theorem FibInv.stepTable (h : FibInv env s) {op : TableOp} (hglobal : op.GlobalDst env)
    (hstep : stepTable env s op = some s') : FibInv env s' := by
  have hwf := (h.wf.stepTable hstep).1
  obtain ⟨hen, hstep⟩ := stepTable_cases hstep
  cases op with
  | insertRoutingTable dst originator origin p q =>
    simp only [TableOp.enabled, Bool.and_eq_true, Option.isNone_iff_eq_none, bne_iff_ne] at hen
    exact h.insertRoutingTable hen.1.1 hen.1.2 hen.2 hglobal.1 hglobal.2 hstep
  | deleteRoutingTable dst originator =>
    rcases olsrDeleteRoutingTable_cases hstep with ⟨rfl, -⟩ | ⟨p, s₁, -, -, hdel, rfl⟩
    · exact h
    · have h₁ := h.deleteRtPath hdel
      exact h₁.sameRoutes ⟨fun _ => rfl, rfl, rfl, rfl, rfl⟩ hwf h₁.paths
  | insertRtPath p r e =>
    simp only [TableOp.enabled, Bool.and_eq_true, Option.isNone_iff_eq_none] at hen
    refine h.insertRtPath hen.1 (fun x hx => ?_) hstep
    simpa [hx] using hen.2
  | updateRtPath p r => exact h.updateRtPath hstep
  | deleteRtPath p => exact h.deleteRtPath hstep
  | deleteTcEntry adr =>
    have hs' : s' = _ := hstep
    subst hs'
    exact h.sameRoutes ⟨fun _ => rfl, rfl, rfl, rfl, rfl⟩ hwf h.paths
  | bumpRoutingtreeVersion =>
    have hs' : s' = _ := hstep
    subst hs'
    exact h.sameRoutes ⟨fun _ => rfl, rfl, rfl, rfl, rfl⟩ hwf h.paths

/-! ## A route update -/

/-- The end of `olsr_calculate_routing_table`. -/
def updateRoutes (env : Env) (s : Rib) : Option Rib := do
  let s ← olsrUpdateRibRoutes env s
  olsrUpdateKernelRoutes env s

/-- The state after the RIB update, after the deletions and after the changes. -/
structure Phases (env : Env) (s s₁ s₂ s₃ : Rib) : Prop where
  rib : Updating s [] s₁
  del : Deleting env { s₁ with ops := [] } s₁.delKernelList.reverse [] s₂
  chg : Changing env s₂ s₁.chgKernelList [] s₃

section

variable {s₁ s₂ s₃ : Rib}

theorem Updating.installable (h : Updating s [] s₁) (hs : FibInv env s) {p : Ptr} {x : RtPath}
    (hx : s₁.path p = some x) : Installable env x := by
  have hroute := h.paths p
  rw [hx, Option.map_some, eq_comm, Option.map_eq_some_iff] at hroute
  obtain ⟨x₀, hx₀, hroute⟩ := hroute
  simp only [RtPath.route, Prod.mk.injEq] at hroute
  obtain ⟨hnh, -, hdst, -⟩ := hroute
  have hold := hs.paths p x₀ hx₀
  unfold Installable at hold
  rwa [hnh, hdst] at hold

theorem Updating.exists_entry (h : Updating s [] s₁) {e : Ptr} {y : RtEntry} (hy : s₁.entry e = some y) :
    ∃ y₀, s.entry e = some y₀ ∧ y₀.dst = y.dst ∧ y₀.nexthop = y.nexthop := by
  have hroute := h.entries e
  rw [hy, Option.map_some, eq_comm, Option.map_eq_some_iff] at hroute
  obtain ⟨y₀, hy₀, hroute⟩ := hroute
  simp only [RtEntry.route, Prod.mk.injEq] at hroute
  exact ⟨y₀, hy₀, hroute.1, hroute.2.1⟩

theorem Updating.global (h : Updating s [] s₁) (hs : FibInv env s) : Global env s₁ := by
  refine ⟨fun e y hy => ?_, fun p x hx => (h.installable hs hx).2⟩
  obtain ⟨y₀, hy₀, hdst, -⟩ := h.exists_entry hy
  rw [← hdst]
  exact hs.dsts e y₀ hy₀

/-- A route on the list of changes has a best path. -/
theorem Updating.routed (h : Updating s [] s₁) {e : Ptr} {y : RtEntry} (hy : s₁.entry e = some y)
    (hdel : e ∉ s₁.delKernelList) : ∃ b x, (y.dst, e) ∈ s₁.routingtree ∧ y.best = some b ∧ s₁.path b = some x ∧
      x.rt = some e ∧ (e ∈ s₁.chgKernelList ∨ x.nexthop = y.nexthop) := by
  cases h.settled e y List.not_mem_nil hy with
  | lost hin hbest => exact absurd hin hdel
  | routed b x htree hbest hx hrt hq => exact ⟨b, x, htree, hbest, hx, hrt, hq⟩

theorem Updating.not_mem_del (h : Updating s [] s₁) {d : IpPrefix} {e : Ptr} (he : (d, e) ∈ s₁.routingtree) :
    e ∉ s₁.delKernelList :=
  fun hin => (h.queues.del_tree e hin).2 d he

theorem updateRoutes_spec (h : FibInv env s) (hemul : env.hostEmul = false)
    (hok : ∀ e y, s.entry e = some y → FlushOk s y) :
    ∃ s₁ s₂ s₃, updateRoutes env s = some s₃ ∧ Phases env s s₁ s₂ s₃ := by
  obtain ⟨s₁, hs₁, hrib⟩ := @olsrUpdateRibRoutes_spec env s h.wf h.live h.chg h.del hok
  have hmirrors : Mirrors s₁ := h.mirrors.of_eq hrib.entries hrib.kernel
  have hglobal : Global env { s₁ with ops := [] } := ⟨(hrib.global h).entry, (hrib.global h).path⟩
  obtain ⟨s₂, hs₂, hdel⟩ :=
    olsrDelKernelRoutes_spec (s := { s₁ with ops := [] }) (hmirrors.of_eq (fun _ => rfl) rfl) hemul
    hglobal hrib.queues.del_nodup fun e he => (hrib.queues.del_tree e he).1
  have hchg : s₂.chgKernelList = s₁.chgKernelList := by rw [hdel.frame]
  have hpath : s₂.path = s₁.path := by rw [hdel.frame]
  have hglobal₂ : Global env s₂ := by
    refine ⟨fun e y hy => ?_, fun p x hx => hglobal.path p x (by rw [← hpath]; exact hx)⟩
    by_cases he : e ∈ s₁.delKernelList.reverse
    · rw [hdel.gone e he] at hy
      cases hy
    · rw [hdel.kept e he] at hy
      exact hglobal.entry e y hy
  have hroutes : ∀ e ∈ s₂.chgKernelList, ∃ y x, HasRoute s₂ e y x ∧ 0 ≤ x.nexthop.iifIndex := by
    intro e he
    rw [hchg] at he
    obtain ⟨d, hd⟩ := hrib.queues.chg_tree e he
    obtain ⟨y, hy, -⟩ := hrib.wf.tree d e hd
    have hnot := hrib.not_mem_del hd
    obtain ⟨b, x, -, hbest, hx, -, -⟩ := hrib.routed hy hnot
    have hkept : s₂.entry e = some y := (hdel.kept e (by rw [List.mem_reverse]; exact hnot)).trans hy
    exact ⟨y, x, ⟨hkept, b, hbest, by rw [hpath]; exact hx⟩, (hrib.installable h hx).1⟩
  obtain ⟨s₃, hs₃, hchanged⟩ := olsrChgKernelRoutes_spec hdel.mirrors hemul hglobal₂
    (by rw [hchg]; exact hrib.queues.chg_nodup) hroutes
  refine ⟨s₁, s₂, s₃, ?_, hrib, hdel, hchg ▸ hchanged⟩
  simp only [updateRoutes, olsrUpdateKernelRoutes, hs₁, hs₂, hs₃, Option.bind_eq_bind, Option.bind_some]

namespace Phases

theorem path (h : Phases env s s₁ s₂ s₃) : s₃.path = s₁.path := by rw [h.chg.frame, h.del.frame]

theorem prefixTree (h : Phases env s s₁ s₂ s₃) : s₃.prefixTree = s₁.prefixTree := by rw [h.chg.frame, h.del.frame]

theorem routingtree (h : Phases env s s₁ s₂ s₃) : s₃.routingtree = s₁.routingtree := by rw [h.chg.frame, h.del.frame]

theorem entry_two (h : Phases env s s₁ s₂ s₃) {e : Ptr} {y : RtEntry} (hy : s₂.entry e = some y) :
    s₁.entry e = some y ∧ e ∉ s₁.delKernelList := by
  by_cases he : e ∈ s₁.delKernelList.reverse
  · rw [h.del.gone e he] at hy
    cases hy
  · exact ⟨(h.del.kept e he).symm.trans hy, by rwa [List.mem_reverse] at he⟩

/-- An entry that is left is in the tree, and its best path is installed. -/
theorem exists_entry (h : Phases env s s₁ s₂ s₃) {e : Ptr} {y' : RtEntry} (hy' : s₃.entry e = some y') :
    ∃ y b x, s₁.entry e = some y ∧ (y.dst, e) ∈ s₁.routingtree ∧ y.best = some b ∧ s₁.path b = some x ∧ x.rt = some e ∧
      y' = { y with nexthop := x.nexthop, metric := y'.metric } := by
  by_cases he : e ∈ s₁.chgKernelList
  · obtain ⟨y, x, ⟨hy, b, hb, hx⟩, hinst⟩ := h.chg.installed e he
    obtain ⟨hy₁, hnot⟩ := h.entry_two hy
    obtain ⟨b', x', htree, hb', hx', hrt, -⟩ := h.rib.routed hy₁ hnot
    obtain rfl := Option.some.inj (hb.symm.trans hb')
    have hpath : s₂.path b = s₁.path b := by rw [h.del.frame]
    obtain rfl := Option.some.inj (hx'.symm.trans (hpath.symm.trans hx))
    obtain rfl := Option.some.inj (hy'.symm.trans hinst)
    exact ⟨y, b, x', hy₁, htree, hb, hx', hrt, rfl⟩
  · obtain ⟨hy₁, hnot⟩ := h.entry_two ((h.chg.kept e he).symm.trans hy')
    obtain ⟨b, x, htree, hb, hx, hrt, hq⟩ := h.rib.routed hy₁ hnot
    refine ⟨y', b, x, hy₁, htree, hb, hx, hrt, ?_⟩
    rw [hq.resolve_left he]

theorem isSome_entry (h : Phases env s s₁ s₂ s₃) {d : IpPrefix} {e : Ptr} (he : (d, e) ∈ s₁.routingtree) :
    (s₃.entry e).isSome := by
  by_cases hchg : e ∈ s₁.chgKernelList
  · obtain ⟨y, x, -, hinst⟩ := h.chg.installed e hchg
    rw [hinst]; rfl
  · obtain ⟨y, hy, -⟩ := h.rib.wf.tree d e he
    have hnot : e ∉ s₁.delKernelList.reverse := by
      rw [List.mem_reverse]
      exact h.rib.not_mem_del he
    rw [h.chg.kept e hchg, h.del.kept e hnot]
    show (s₁.entry e).isSome
    rw [hy]; rfl

theorem wf (h : Phases env s s₁ s₂ s₃) : RibWf s₃ := by
  refine h.rib.wf.ofEntries h.path h.prefixTree h.routingtree (fun e y' hy' => ?_) fun d e he => h.isSome_entry he
  obtain ⟨y, b, x, hy, -, -, -, -, heq⟩ := h.exists_entry hy'
  exact ⟨y, hy, by rw [heq]; rfl⟩

theorem chgKernelList (h : Phases env s s₁ s₂ s₃) : s₃.chgKernelList = [] :=
  List.eq_nil_iff_forall_not_mem.2 fun e he => List.not_mem_nil (h.chg.queue e he)

theorem delKernelList (h : Phases env s s₁ s₂ s₃) : s₃.delKernelList = [] := by
  have hsame : s₃.delKernelList = s₂.delKernelList := by rw [h.chg.frame]
  rw [hsame]
  exact List.eq_nil_iff_forall_not_mem.2 fun e he => List.not_mem_nil (h.del.queue e he)

theorem fibInv (h : Phases env s s₁ s₂ s₃) (hs : FibInv env s) : FibInv env s₃ := by
  refine ⟨h.wf, h.chg.mirrors, ?_, h.chgKernelList, h.delKernelList, ?_, ?_⟩
  · intro e y' hy'
    obtain ⟨y, b, x, -, htree, -, -, -, heq⟩ := h.exists_entry hy'
    rw [h.routingtree, heq]
    exact htree
  · intro p x hx
    rw [h.path] at hx
    exact h.rib.installable hs hx
  · intro e y' hy'
    obtain ⟨y, b, x, hy, -, -, -, -, heq⟩ := h.exists_entry hy'
    rw [heq]
    exact (h.rib.global hs).entry e y hy

theorem ops (h : Phases env s s₁ s₂ s₃) : s₃.ops =
    s₁.delKernelList.reverse.flatMap (delOps env { s₁ with ops := [] }) ++
    s₁.chgKernelList.flatMap (chgOps env s₂) := by
  rw [h.chg.ops, h.del.ops]
  rfl

end Phases

/-! ## The operations of a route update -/

/-- The prefix has no route entry. -/
def Absent (s : Rib) (d : IpPrefix) : Prop := ∀ e, (d, e) ∉ s.routingtree

def KernelOp.deletes (d : IpPrefix) : KernelOp → Bool
  | .delete d' _ => d' == d
  | .add _ _ => false

/-- Routes to gateways are added before other routes; of the routes of lost prefixes, they are deleted last. -/
def InOrder (s : Rib) : KernelOp → KernelOp → Prop
  | .add d nh, .add d' nh' => d'.addr = nh'.gateway → d.addr = nh.gateway
  | .delete d nh, .delete d' nh' => Absent s d → Absent s d' → d.addr = nh.gateway → d'.addr = nh'.gateway
  | _, _ => True

theorem mem_delOps {e : Ptr} {op : KernelOp} (h : op ∈ delOps env s e) :
    ∃ y, s.entry e = some y ∧ op = .delete y.dst y.nexthop := by
  unfold delOps at h
  cases hy : s.entry e with
  | none => rw [hy] at h; cases h
  | some y =>
    rw [hy] at h
    dsimp only at h
    split at h
    · exact ⟨y, rfl, List.mem_singleton.1 h⟩
    · cases h

theorem mem_chgOps {e : Ptr} {op : KernelOp} (h : op ∈ chgOps env s e) : ∃ y, s.entry e = some y ∧
    (op = .delete y.dst y.nexthop ∨ ∃ nh, olsrGetNh s y = some nh ∧ op = .add y.dst nh) := by
  unfold chgOps at h
  cases hy : s.entry e with
  | none => rw [hy] at h; cases h
  | some y =>
    rw [hy] at h
    refine ⟨y, rfl, ?_⟩
    rcases List.mem_append.1 h with h | h
    · split at h
      · exact .inl (List.mem_singleton.1 h)
      · cases h
    · obtain ⟨nh, hnh, rfl⟩ := List.mem_map.1 h
      exact .inr ⟨nh, Option.mem_toList.1 hnh, rfl⟩

theorem pairwise_delOps (env : Env) (s : Rib) (e : Ptr) (R : KernelOp → KernelOp → Prop) :
    (delOps env s e).Pairwise R := by
  unfold delOps
  split
  · split
    · exact List.pairwise_singleton _ _
    · exact .nil
  · exact .nil

theorem pairwise_chgOps (env : Env) (s t : Rib) (e : Ptr) : (chgOps env s e).Pairwise (InOrder t) := by
  unfold chgOps
  split
  · rename_i y hy
    refine List.pairwise_append.2 ⟨?_, ?_, ?_⟩
    · split
      · exact List.pairwise_singleton _ _
      · exact .nil
    · cases olsrGetNh s y with
      | none => exact .nil
      | some nh => exact List.pairwise_singleton _ _
    · intro op hop op' hop'
      split at hop
      · obtain rfl := List.mem_singleton.1 hop
        obtain ⟨nh, -, rfl⟩ := List.mem_map.1 hop'
        trivial
      · cases hop
  · exact .nil

namespace Phases

/-- A route on the list of deletions has no best path. -/
theorem lost (h : Phases env s s₁ s₂ s₃) {e : Ptr} (he : e ∈ s₁.delKernelList) :
    ∃ y, s₁.entry e = some y ∧ y.best = none ∧ (ToGateway s₁ e ↔ y.dst.addr = y.nexthop.gateway) := by
  obtain ⟨hsome, hnot⟩ := h.rib.queues.del_tree e he
  obtain ⟨y, hy⟩ := Option.isSome_iff_exists.1 hsome
  cases h.rib.settled e y List.not_mem_nil hy with
  | lost _ hbest => exact ⟨y, hy, hbest, toGateway_iff hy (by simp [olsrGetNh, hbest])⟩
  | routed b x htree => exact absurd htree (hnot _)

theorem mem_chgOps (h : Phases env s s₁ s₂ s₃) {e : Ptr} {op : KernelOp}
    (hop : op ∈ chgOps env s₂ e) : ∃ y, s₁.entry e = some y ∧ (y.dst, e) ∈ s₁.routingtree ∧
      (op = .delete y.dst y.nexthop ∨ ∃ nh, op = .add y.dst nh ∧ (ToGateway s₁ e ↔ y.dst.addr = nh.gateway)) := by
  obtain ⟨y, hy, hcases⟩ := Routing.mem_chgOps hop
  obtain ⟨hy₁, hnot⟩ := h.entry_two hy
  obtain ⟨b, x, htree, -⟩ := h.rib.routed hy₁ hnot
  refine ⟨y, hy₁, htree, hcases.imp id ?_⟩
  rintro ⟨nh, hnh, rfl⟩
  have hpath : s₂.path = s₁.path := by rw [h.del.frame]
  have hnh₁ : olsrGetNh s₁ y = some nh := by
    rw [← hnh]
    unfold olsrGetNh
    rw [hpath]
  exact ⟨nh, rfl, toGateway_iff hy₁ hnh₁⟩

theorem inOrder (h : Phases env s s₁ s₂ s₃) : s₃.ops.Pairwise (InOrder s₃) := by
  have hpresent {e : Ptr} {d : IpPrefix} (htree : (d, e) ∈ s₁.routingtree) : ¬ Absent s₃ d :=
    fun hno => hno e (by rw [h.routingtree]; exact htree)
  rw [h.ops]
  refine List.pairwise_append.2 ⟨?_, ?_, ?_⟩
  · -- the list of deletions is walked from its tail
    refine List.pairwise_flatMap.2 ⟨fun e _ => pairwise_delOps .., List.pairwise_reverse.2 ?_⟩
    refine List.Pairwise.imp_of_mem ?_ h.rib.queues.del_order
    intro f e hf he hfirst op hop op' hop'
    obtain ⟨y, hy, -, hto⟩ := h.lost he
    obtain ⟨z, hz, -, hto'⟩ := h.lost hf
    obtain ⟨y', hy', rfl⟩ := mem_delOps hop
    obtain ⟨z', hz', rfl⟩ := mem_delOps hop'
    obtain rfl := Option.some.inj (hy.symm.trans hy')
    obtain rfl := Option.some.inj (hz.symm.trans hz')
    exact fun _ _ hgw => hto'.1 (hfirst (hto.2 hgw))
  · refine List.pairwise_flatMap.2 ⟨fun e _ => pairwise_chgOps .., ?_⟩
    refine List.Pairwise.imp_of_mem ?_ h.rib.queues.chg_order
    intro e f _ _ hfirst op hop op' hop'
    obtain ⟨y, hy, htree, rfl | ⟨nh, rfl, hto⟩⟩ := h.mem_chgOps hop
    · obtain ⟨z, hz, -, rfl | ⟨nh', rfl, -⟩⟩ := h.mem_chgOps hop'
      · exact fun hno => absurd hno (hpresent htree)
      · trivial
    · obtain ⟨z, hz, -, rfl | ⟨nh', rfl, hto'⟩⟩ := h.mem_chgOps hop'
      · trivial
      · exact fun hgw => hto.1 (hfirst (hto'.2 hgw))
  · intro op hop op' hop'
    obtain ⟨e, he, hop⟩ := List.mem_flatMap.1 hop
    obtain ⟨f, hf, hop'⟩ := List.mem_flatMap.1 hop'
    obtain ⟨y, hy, rfl⟩ := mem_delOps hop
    obtain ⟨z, hz, htree, rfl | ⟨nh', rfl, -⟩⟩ := h.mem_chgOps hop'
    · exact fun _ hno => absurd hno (hpresent htree)
    · trivial

/-- A prefix that has lost its route is deleted once. -/
theorem countP_deletes (h : Phases env s s₁ s₂ s₃) (hs : FibInv env s) {d : IpPrefix} (hd : (s.kernel d).isSome)
    (hno : Absent s₃ d) : s₃.ops.countP (KernelOp.deletes d) = 1 := by
  obtain ⟨nh, hnh⟩ := Option.isSome_iff_exists.1 hd
  rw [← h.rib.kernel] at hnh
  have hmirrors : Mirrors s₁ := hs.mirrors.of_eq h.rib.entries h.rib.kernel
  obtain ⟨e, y, hy, rfl, rfl, hif⟩ := (hmirrors.kernel d nh).1 hnh
  have hdel : e ∈ s₁.delKernelList := by
    by_contra hnot
    obtain ⟨b, x, htree, -⟩ := h.rib.routed hy hnot
    exact hno e (by rw [h.routingtree]; exact htree)
  have hothers : ∀ l : List Ptr, e ∉ l →
      (l.flatMap (delOps env { s₁ with ops := [] })).countP (KernelOp.deletes y.dst) = 0 := by
    intro l hl
    refine List.countP_eq_zero.2 fun op hop => ?_
    obtain ⟨f, hf, hop⟩ := List.mem_flatMap.1 hop
    obtain ⟨z, hz, rfl⟩ := mem_delOps hop
    intro heq
    obtain rfl := hmirrors.unique f e z y hz hy (beq_iff_eq.1 heq)
    exact hl hf
  have hchg : (s₁.chgKernelList.flatMap (chgOps env s₂)).countP (KernelOp.deletes y.dst) = 0 := by
    refine List.countP_eq_zero.2 fun op hop => ?_
    obtain ⟨f, hf, hop⟩ := List.mem_flatMap.1 hop
    obtain ⟨z, hz, htree, rfl | ⟨nh', rfl, -⟩⟩ := h.mem_chgOps hop
    · intro heq
      rw [beq_iff_eq.1 heq] at htree
      exact hno f (by rw [h.routingtree]; exact htree)
    · exact nofun
  obtain ⟨l, r, hlr⟩ := List.append_of_mem (List.mem_reverse.2 hdel)
  have hnodup := List.nodup_reverse.2 h.rib.queues.del_nodup
  rw [hlr, List.nodup_middle, List.nodup_cons, List.mem_append, not_or] at hnodup
  have hself : delOps env { s₁ with ops := [] } e = [.delete y.dst y.nexthop] := by
    simp [delOps, hy, hif]
  rw [h.ops, List.countP_append, hchg, hlr, List.flatMap_append, List.countP_append, List.flatMap_cons,
    List.countP_append, hothers l hnodup.1.1, hothers r hnodup.1.2, hself]
  simp [KernelOp.deletes]

/-- A prefix without a route is left alone. -/
theorem not_deletes (h : Phases env s s₁ s₂ s₃) (hs : FibInv env s) {d : IpPrefix} (hno : Absent s d) {op : KernelOp}
    (hop : op ∈ s₃.ops) : op.deletes d = false := by
  have hpresent {e : Ptr} {y : RtEntry} (hy : s₁.entry e = some y) :
      (KernelOp.delete y.dst y.nexthop).deletes d = false := by
    refine beq_eq_false_iff_ne.2 ?_
    rintro rfl
    obtain ⟨y₀, hy₀, hdst, -⟩ := h.rib.exists_entry hy
    exact hno e (hdst ▸ hs.live e y₀ hy₀)
  rw [h.ops, List.mem_append, List.mem_flatMap, List.mem_flatMap] at hop
  rcases hop with ⟨e, -, hop⟩ | ⟨e, he, hop⟩
  · obtain ⟨y, hy, rfl⟩ := mem_delOps hop
    exact hpresent hy
  · obtain ⟨y, hy, -, rfl | ⟨nh, rfl, -⟩⟩ := h.mem_chgOps hop
    · exact hpresent hy
    · rfl

end Phases

end

/-! ## Runs -/

inductive FibEvent where
  | table (op : TableOp)
  | updateRoutes

def stepFib (env : Env) (s : Rib) : FibEvent → Option Rib
  | .table op => stepTable env s op
  | .updateRoutes => updateRoutes env s

def FibEvent.GlobalDst (env : Env) : FibEvent → Prop
  | .table op => op.GlobalDst env
  | .updateRoutes => True

/-- A route update finds no entry whose best path has been deleted and whose other paths are all outdated. -/
def FibEvent.FlushesClean (s : Rib) : FibEvent → Prop
  | .table _ => True
  | .updateRoutes => ∀ e y, s.entry e = some y → FlushOk s y

/-- The states of RIB and kernel after events that meet `ok`, without link local destinations. -/
def FibReachable (env : Env) (ok : Rib → FibEvent → Prop) : Rib → Prop :=
  Run.Reaches (fun s => s = emptyRib) (fun s ev => ev.GlobalDst env ∧ ok s ev) (stepFib env)

/-- What a route update from `s` to `s'` does. -/
structure Synced (s s' : Rib) : Prop where
  chg : s'.chgKernelList = []
  del : s'.delKernelList = []
  /-- every entry has a best path, and the kernel its next hop -/
  routed : ∀ d e, (d, e) ∈ s'.routingtree → ∃ y b x, s'.entry e = some y ∧ y.best = some b ∧
    b ∈ y.pathTree.map Prod.snd ∧ s'.path b = some x ∧ s'.kernel d = some x.nexthop
  /-- the kernel has no other prefixes -/
  absent : ∀ d, Absent s' d → s'.kernel d = none
  /-- what was in the kernel and has no entry any more is deleted once -/
  lost : ∀ d, (s.kernel d).isSome → Absent s' d → s'.ops.countP (KernelOp.deletes d) = 1
  /-- what had no entry before is not deleted -/
  unknown : ∀ d, Absent s d → ∀ op ∈ s'.ops, op.deletes d = false
  order : s'.ops.Pairwise (InOrder s')

theorem Phases.synced {s₁ s₂ s₃ : Rib} (h : Phases env s s₁ s₂ s₃) (hs : FibInv env s) : Synced s s₃ := by
  have hinv := h.fibInv hs
  refine ⟨h.chgKernelList, h.delKernelList, ?_, ?_, fun d => h.countP_deletes hs,
    fun d hno op => h.not_deletes hs hno, h.inOrder⟩
  · intro d e he
    obtain ⟨y', hy', rfl⟩ := h.wf.tree d e he
    obtain ⟨y, b, x, hy, -, hb, hx, hrt, heq⟩ := h.exists_entry hy'
    have hx₃ : s₃.path b = some x := by rw [h.path]; exact hx
    refine ⟨y', b, x, hy', ?_, (h.wf.mem_pathTree hy').2 ⟨x, hx₃, hrt⟩, hx₃, ?_⟩
    · rw [heq]; exact hb
    · exact (hinv.mirrors.kernel_dst hy' x.nexthop).2 ⟨by rw [heq], (h.rib.installable hs hx).1⟩
  · intro d hno
    refine Option.eq_none_iff_forall_ne_some.2 fun nh hnh => ?_
    obtain ⟨e, y, hy, rfl, -⟩ := (hinv.mirrors.kernel d nh).1 hnh
    exact hno e (hinv.live e y hy)

theorem fibInv_emptyRib (env : Env) : FibInv env emptyRib := by
  refine ⟨ribWf_emptyRib, ⟨?_, ?_⟩, ?_, rfl, rfl, ?_, ?_⟩ <;> simp [emptyRib]

theorem FibInv.step (h : FibInv env s) (hemul : env.hostEmul = false) {ev : FibEvent} (hglobal : ev.GlobalDst env)
    (hok : ev.FlushesClean s) (hstep : stepFib env s ev = some s') : FibInv env s' := by
  cases ev with
  | table op => exact h.stepTable hglobal hstep
  | updateRoutes =>
    obtain ⟨s₁, s₂, s₃, hupdate, hphases⟩ := updateRoutes_spec h hemul hok
    obtain rfl := Option.some.inj (hstep.symm.trans hupdate)
    exact hphases.fibInv h

theorem FibReachable.inv (hemul : env.hostEmul = false) (h : FibReachable env (fun s ev => ev.FlushesClean s) s) :
    FibInv env s := by
  refine Run.Reaches.invariant (P := FibInv env) ?_ ?_ h
  · rintro _ rfl
    exact fibInv_emptyRib env
  · exact fun s ev s' hs hev hstep => hs.step hemul hev.1 hev.2 hstep

/-- In every run in which no route update has to flush an entry whose best path was deleted, every route update brings
the kernel into line with the routing tree. -/
theorem reachable_fib (hemul : env.hostEmul = false) (h : FibReachable env (fun s ev => ev.FlushesClean s) s)
    (hok : FibEvent.updateRoutes.FlushesClean s) : ∃ s', updateRoutes env s = some s' ∧ Synced s s' := by
  have hinv := h.inv hemul
  obtain ⟨s₁, s₂, s₃, hupdate, hphases⟩ := updateRoutes_spec hinv hemul hok
  exact ⟨s₃, hupdate, hphases.synced hinv⟩

/-- There are no link local addresses in IPv4. -/
theorem globalDst_inet (h : env.cnf.ipVersion = .inet) (ev : FibEvent) : ev.GlobalDst env := by
  have hnot (a : IpAddr) : ipIsLinklocal env.cnf a = false := by simp [ipIsLinklocal, h]
  cases ev with
  | updateRoutes => trivial
  | table op =>
    cases op with
    | insertRoutingTable dst originator origin p q => exact ⟨hnot _, hnot _⟩
    | _ => trivial

/-! ## Best paths that are deleted -/

instance (s : Rib) (y : RtEntry) : Decidable (FlushOk s y) :=
  decidable_of_iff ((∀ b ∈ y.best, b ∈ y.pathTree.map Prod.snd) ∨
    ∃ p ∈ y.pathTree.map Prod.snd, ∃ x ∈ s.path p, x.version = s.version) <| by
      unfold FlushOk
      refine or_congr Iff.rfl ⟨?_, ?_⟩
      · rintro ⟨p, hp, x, hx, hv⟩
        exact ⟨p, x, hp, hx, hv⟩
      · rintro ⟨p, x, hp, hx, hv⟩
        exact ⟨p, hp, x, hx, hv⟩

/-- What can be looked up of `FlushesClean` while all entries are in the routing tree. -/
def FibEvent.TreeClean (s : Rib) : FibEvent → Prop
  | .table _ => True
  | .updateRoutes => ∀ de ∈ s.routingtree, ∀ y ∈ s.entry de.2, FlushOk s y

instance (s : Rib) : (ev : FibEvent) → Decidable (ev.TreeClean s)
  | .table _ => .isTrue trivial
  | .updateRoutes => inferInstanceAs (Decidable (∀ de ∈ s.routingtree, ∀ y ∈ s.entry de.2, FlushOk s y))

theorem FibInv.flushesClean (h : FibInv env s) {ev : FibEvent} (hok : ev.TreeClean s) : ev.FlushesClean s := by
  cases ev with
  | table op => trivial
  | updateRoutes => exact fun e y hy => hok _ (h.live e y hy) y hy

theorem fibReachable_of_treeClean (hv : env.cnf.ipVersion = .inet) (hemul : env.hostEmul = false) {evs : List FibEvent}
    (hrounds : Run.Rounds (fun s ev => ev.TreeClean s) (stepFib env) evs emptyRib)
    (hs : Run.forEach (stepFib env) evs emptyRib = some s) : FibReachable env (fun s ev => ev.FlushesClean s) s := by
  refine Run.forEach_rounds (fun s ev s' h hok hstep => .step ev h ⟨globalDst_inet hv ev, ?_⟩ hstep) hrounds
    (.init rfl) hs
  exact (FibReachable.inv hemul h).flushesClean hok

/-- The better one of two gateways of a network stops to announce it. -/
def betterGateway : List FibEvent :=
  announcedTwice.map .table ++ [.updateRoutes, .table (.deleteRoutingTable ⟨[192, 168, 1, 0], 24⟩ [10, 0, 0, 9])]

/-- The next route update gives the kernel the route over the other one. -/
theorem reachable_fib_betterGateway : ∃ s s', FibReachable linuxRouter (fun s ev => ev.FlushesClean s) s ∧
    updateRoutes linuxRouter s = some s' ∧ Synced s s' ∧ s.kernel ⟨[192, 168, 1, 0], 24⟩ = some ⟨[10, 0, 0, 9], 1⟩ ∧
    s'.kernel ⟨[192, 168, 1, 0], 24⟩ = some ⟨[10, 0, 0, 3], 2⟩ := by
  have hrounds : Run.Rounds (fun s ev => ev.TreeClean s) (stepFib linuxRouter) betterGateway emptyRib := by
    decide +kernel
  have hrun : ((Run.forEach (stepFib linuxRouter) betterGateway emptyRib).any fun s =>
      decide (FibEvent.updateRoutes.TreeClean s) && s.kernel ⟨[192, 168, 1, 0], 24⟩ == some ⟨[10, 0, 0, 9], 1⟩ &&
        (updateRoutes linuxRouter s).any fun s' =>
          s'.kernel ⟨[192, 168, 1, 0], 24⟩ == some ⟨[10, 0, 0, 3], 2⟩) = true := by
    decide +kernel
  obtain ⟨s, hs, hrun⟩ := (Option.any_eq_true _ _).1 hrun
  rw [Bool.and_eq_true, Bool.and_eq_true, decide_eq_true_eq, beq_iff_eq] at hrun
  obtain ⟨⟨hclean, hold⟩, hrun⟩ := hrun
  obtain ⟨s', hs', hnew⟩ := (Option.any_eq_true _ _).1 hrun
  have hreach := fibReachable_of_treeClean rfl rfl hrounds hs
  obtain ⟨t, ht, hsynced⟩ := reachable_fib rfl hreach ((FibReachable.inv rfl hreach).flushesClean hclean)
  obtain rfl := Option.some.inj (hs'.symm.trans ht)
  exact ⟨s, s', hreach, hs', hsynced, hold, beq_iff_eq.1 hnew⟩

/-- The neighbour 10.0.0.9, and 10.0.0.3 behind it. -/
def twoRoutes : List TableOp :=
  [.insertRoutingTable ⟨[10, 0, 0, 9], 32⟩ [10, 0, 0, 9] 0 0 7,
    .insertRoutingTable ⟨[10, 0, 0, 3], 32⟩ [10, 0, 0, 3] 0 1 7,
    .bumpRoutingtreeVersion, .insertRtPath 1 ⟨2048, 2, [10, 0, 0, 9], 1⟩ 1,
      .insertRtPath 0 ⟨1024, 1, [10, 0, 0, 9], 1⟩ 0]

/-- The path to the neighbour is deleted and its block used again, before neither prefix is reached any more. -/
def lostGateway : List FibEvent :=
  twoRoutes.map .table ++ [.updateRoutes, .table (.deleteRoutingTable ⟨[10, 0, 0, 9], 32⟩ [10, 0, 0, 9]),
    .table (.insertRoutingTable ⟨[10, 0, 0, 5], 32⟩ [10, 0, 0, 5] 0 0 7), .table .bumpRoutingtreeVersion]

theorem lostGateway_synced : ∃ s, FibReachable linuxRouter (fun _ _ => True) s ∧
    ¬ ∃ s', updateRoutes linuxRouter s = some s' ∧ Synced s s' := by
  have hrun : ((Run.forEach (stepFib linuxRouter) lostGateway emptyRib).any fun s =>
      (updateRoutes linuxRouter s).any fun s' => s'.routingtree.isEmpty && s'.ops ==
        [.delete ⟨[10, 0, 0, 9], 32⟩ ⟨[10, 0, 0, 9], 1⟩, .delete ⟨[10, 0, 0, 3], 32⟩ ⟨[10, 0, 0, 9], 1⟩]) = true := by
    decide +kernel
  obtain ⟨s, hs, hrun⟩ := (Option.any_eq_true _ _).1 hrun
  obtain ⟨t, ht, hrun⟩ := (Option.any_eq_true _ _).1 hrun
  simp only [Bool.and_eq_true, List.isEmpty_iff, beq_iff_eq] at hrun
  obtain ⟨htree, hops⟩ := hrun
  refine ⟨s, Run.reaches_forEach (.init rfl)
    (Run.rounds_of_forall (fun _ ev => ⟨globalDst_inet rfl ev, trivial⟩) _ _) hs, ?_⟩
  rintro ⟨s', hs', hsynced⟩
  obtain rfl := Option.some.inj (ht.symm.trans hs')
  have horder := hsynced.order
  rw [hops] at horder
  have habsent (d : IpPrefix) : Absent t d := fun e => by rw [htree]; exact List.not_mem_nil
  have hgw := (List.pairwise_cons.1 horder).1 _ (List.mem_cons_self ..) (habsent _) (habsent _) rfl
  exact absurd hgw (by decide)

end Olsrd.Routing
