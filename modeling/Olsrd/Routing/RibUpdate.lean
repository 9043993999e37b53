/-
`olsr_update_rib_routes` over the whole routing tree: what becomes of every route entry, and what the two
work lists for the kernel hold afterwards, in which order.
-/
import Olsrd.Routing.BestPath

namespace Olsrd.Routing

open Keyed
open Olsrd.Topology (IpPrefix prefixLt maxplen)

variable {env : Env} {s s' : Rib}

/-! ## One entry -/

/-- What the kernel is told of a path. -/
def RtPath.route (x : RtPath) : Nexthop × Metric × IpPrefix × UInt32 := (x.nexthop, x.metric, x.dst, x.version)

/-- What is installed of an entry. -/
def RtEntry.route (y : RtEntry) : IpPrefix × Nexthop × Metric := (y.dst, y.nexthop, y.metric)

/-- An entry whose last path goes has no best path that was deleted before. -/
def FlushOk (s : Rib) (y : RtEntry) : Prop :=
  (∀ b, y.best = some b → b ∈ y.pathTree.map Prod.snd) ∨
    ∃ p x, p ∈ y.pathTree.map Prod.snd ∧ s.path p = some x ∧ x.version = s.version

theorem RibWf.mem_pathTree (h : RibWf s) {e : Ptr} {y : RtEntry} (hy : s.entry e = some y) {p : Ptr} :
    p ∈ y.pathTree.map Prod.snd ↔ ∃ x, s.path p = some x ∧ x.rt = some e := by
  constructor
  · intro hp
    obtain ⟨⟨a, q⟩, haq, rfl⟩ := List.mem_map.1 hp
    obtain ⟨x, hx, hrt, -⟩ := ((h.pathTree e y hy).mem a q).1 haq
    exact ⟨x, hx, hrt⟩
  · rintro ⟨x, hx, hrt⟩
    exact List.mem_map.2 ⟨(x.originator, p), ((h.pathTree e y hy).mem _ p).2 ⟨x, hx, hrt, rfl⟩, rfl⟩

theorem electBest_total : ∀ (ps : List Ptr) (b : Ptr), (∀ p ∈ ps, (s.path p).isSome) → (s.path b).isSome →
    ∃ c, electBest env s ps b = some c
  | [], b, _, _ => ⟨b, rfl⟩
  | p :: ps, b, hps, hb => by
    obtain ⟨x, hx⟩ := Option.isSome_iff_exists.1 (hps p (List.mem_cons_self ..))
    obtain ⟨y, hy⟩ := Option.isSome_iff_exists.1 hb
    have hrest : ∀ q ∈ ps, (s.path q).isSome := fun q hq => hps q (List.mem_cons_of_mem _ hq)
    have hnext : (s.path (if olsrCmpRtp env s.currentInetgw p x b y then p else b)).isSome := by
      split
      · rw [hx]; rfl
      · exact hb
    obtain ⟨c, hc⟩ := electBest_total ps _ hrest hnext
    exact ⟨c, by simpa [electBest, hx, hy] using hc⟩

/-- An entry with paths gets a best path. -/
theorem olsrRtBest_total (h : RibWf s) {e : Ptr} {y : RtEntry} (hy : s.entry e = some y) (hne : y.pathTree ≠ []) :
    ∃ s', olsrRtBest env s e = some s' := by
  have hlive : ∀ p ∈ y.pathTree.map Prod.snd, (s.path p).isSome := by
    intro p hp
    obtain ⟨x, hx, -⟩ := (h.mem_pathTree hy).1 hp
    rw [hx]; rfl
  cases ht : y.pathTree with
  | nil => exact absurd ht hne
  | cons ap rest =>
    rw [ht, List.map_cons] at hlive
    obtain ⟨b, hb⟩ := @electBest_total env s (rest.map Prod.snd) ap.2
      (fun p hp => hlive p (List.mem_cons_of_mem _ hp)) (hlive _ (List.mem_cons_self ..))
    exact Option.isSome_iff_exists.1 (by simp [olsrRtBest, hy, ht, hb])

/-- What a round of `olsr_update_rib_routes` makes of the entry `e`: it leaves the tree with its last path, or has a
best path, and is enqueued if the next hop of that is not the installed one. -/
inductive Outcome (s : Rib) (e : Ptr) (y : RtEntry) (s' : Rib) : Prop
  | flushed : s'.entry e = some { y with pathTree := [], best := none } →
      s'.routingtree = Keyed.erase e s.routingtree → s'.chgKernelList = s.chgKernelList →
      s'.delKernelList = enqueueAt y.dst y.nexthop e s.delKernelList → Outcome s e y s'
  | kept (t : List (IpAddr × Ptr)) (b : Ptr) (x : RtPath) : s'.entry e = some { y with pathTree := t, best := some b } →
      s'.path b = some x → x.rt = some e → s'.routingtree = s.routingtree → s'.delKernelList = s.delKernelList →
      (s'.chgKernelList = s.chgKernelList ∧ x.nexthop = y.nexthop ∨
        s'.chgKernelList = enqueueAt y.dst x.nexthop e s.chgKernelList) → Outcome s e y s'

structure RouteUpdated (s : Rib) (e : Ptr) (y : RtEntry) (s' : Rib) : Prop where
  wf : RibWf s'
  kernel : s'.kernel = s.kernel
  version : s'.version = s.version
  paths : ∀ p, (s'.path p).map RtPath.route = (s.path p).map RtPath.route
  others : ∀ f, f ≠ e → s'.entry f = s.entry f
  outcome : Outcome s e y s'

theorem Purging.route_path {e : Ptr} {y : RtEntry} (h : Purging s e y [] s') (p : Ptr) :
    (s'.path p).map RtPath.route = (s.path p).map RtPath.route := by
  by_cases hp : Purged s e [] p
  · obtain ⟨x, hx, -⟩ := hp.1
    rw [h.gone p x hp hx, hx]
    rfl
  · rw [h.kept p hp]

/-- A best path that is not current goes with the other paths. -/
theorem Purging.best_eq_none {e : Ptr} {y y' : RtEntry} (h : Purging s e y [] s') (hw : RibWf s)
    (hy : s.entry e = some y)
    (hok : FlushOk s y) (hy' : s'.entry e = some y') (hnil : y'.pathTree = []) : y'.best = none := by
  have hgone : ∀ p ∈ y.pathTree.map Prod.snd, Purged s e [] p := by
    intro p hp
    by_contra hnot
    obtain ⟨x, hx, hrt⟩ := (hw.mem_pathTree hy).1 hp
    have hin := (h.wf.mem_pathTree hy').2 ⟨x, (h.kept p hnot).trans hx, hrt⟩
    rw [hnil] at hin
    cases hin
  obtain ⟨t, best, hentry, hbest⟩ := h.entry
  obtain rfl := Option.some.inj (hy'.symm.trans hentry)
  rcases hok with hold | ⟨p, x, hp, hx, hcur⟩
  · refine Option.eq_none_iff_forall_ne_some.2 fun b hb => ?_
    obtain ⟨hyb, hnot⟩ := (hbest b).1 hb
    exact hnot (hgone b (hold b hyb))
  · obtain ⟨⟨x', hx', -, hne⟩, -⟩ := hgone p hp
    obtain rfl := Option.some.inj (hx.symm.trans hx')
    exact absurd hcur hne

theorem olsrEnqueueRt_spec {queue : Queue} {e : Ptr} {y : RtEntry} {nh : Nexthop} (hchg : e ∉ s.chgKernelList)
    (hdel : e ∉ s.delKernelList) (hy : s.entry e = some y) (hnh : olsrGetNh s y = some nh) :
    olsrEnqueueRt queue s e = some (match queue with
      | .chg => { s with chgKernelList := enqueueAt y.dst nh e s.chgKernelList }
      | .del => { s with delKernelList := enqueueAt y.dst nh e s.delKernelList }) := by
  have hnot : ¬ (e ∈ s.chgKernelList ∨ e ∈ s.delKernelList) := by rintro (h | h); exacts [hchg h, hdel h]
  unfold olsrEnqueueRt
  rw [if_neg hnot, hy]
  cases queue with
  | chg => simp [hnh]
  | del => simp [hnh]

theorem enqueueIfChanged_spec {e b : Ptr} {y : RtEntry} {x : RtPath} (hchg : e ∉ s.chgKernelList)
    (hdel : e ∉ s.delKernelList) (hy : s.entry e = some y) (hb : y.best = some b) (hx : s.path b = some x) :
    ∃ chg, enqueueIfChanged env s e = some { s with chgKernelList := chg } ∧
      (chg = s.chgKernelList ∧ x.nexthop = y.nexthop ∨ chg = enqueueAt y.dst x.nexthop e s.chgKernelList) := by
  by_cases hchange : (olsrNhChange x.nexthop y.nexthop || (env.fibmCorrect && olsrHopcountChange x.metric y.metric)) =
    true
  · refine ⟨enqueueAt y.dst x.nexthop e s.chgKernelList, ?_, .inr rfl⟩
    have hnh : olsrGetNh s y = some x.nexthop := by simp [olsrGetNh, hb, hx]
    have henq := @olsrEnqueueRt_spec _ .chg _ _ _ hchg hdel hy hnh
    simp only [enqueueIfChanged, hy, hb, hx, Option.bind_eq_bind, Option.bind_some, if_pos hchange, henq]
  · refine ⟨s.chgKernelList, ?_, .inl ⟨rfl, ?_⟩⟩
    · simp only [enqueueIfChanged, hy, hb, hx, Option.bind_eq_bind, Option.bind_some, if_neg hchange]
      rfl
    · simp only [olsrNhChange, Bool.or_eq_true, bne_iff_ne, not_or, not_not] at hchange
      obtain ⟨⟨hgw, hif⟩, -⟩ := hchange
      cases hxn : x.nexthop
      cases hyn : y.nexthop
      simp_all

theorem updateRibRoute_spec (h : RibWf s) {e : Ptr} {y : RtEntry} (hy : s.entry e = some y) (hok : FlushOk s y)
    (hchg : e ∉ s.chgKernelList) (hdel : e ∉ s.delKernelList) :
    ∃ s', updateRibRoute env s e = some s' ∧ RouteUpdated s e y s' := by
  obtain ⟨s₁, hs₁, hpurged⟩ := olsrDeleteOutdatedRoutes_spec h hy
  obtain ⟨t, best, hy₁, hbest₁⟩ := id hpurged.entry
  have hframe := hpurged.frame
  have hchg₁ : s₁.chgKernelList = s.chgKernelList := by rw [hframe]
  have hdel₁ : s₁.delKernelList = s.delKernelList := by rw [hframe]
  have htree₁ : s₁.routingtree = s.routingtree := by rw [hframe]
  have hkernel₁ : s₁.kernel = s.kernel := by rw [hframe]
  have hversion₁ : s₁.version = s.version := by rw [hframe]
  by_cases hnil : t = []
  · -- the entry leaves the tree
    subst hnil
    have hnone : best = none := hpurged.best_eq_none h hy hok hy₁ rfl
    subst hnone
    let s₂ : Rib := { s₁ with routingtree := Keyed.erase e s₁.routingtree }
    have henq := @olsrEnqueueRt_spec s₂ .del _ _ _ (hchg₁ ▸ hchg) (hdel₁ ▸ hdel) hy₁ rfl
    have hstep : updateRibRoute env s e = olsrEnqueueRt .del s₂ e := by
      simp only [updateRibRoute, hs₁, Option.bind_eq_bind, Option.bind_some, hy₁]
      rfl
    refine ⟨_, hstep.trans henq, (hpurged.wf.flush hy₁ rfl).of_eq rfl rfl rfl rfl, hkernel₁, hversion₁,
      hpurged.route_path, hpurged.others, ?_⟩
    refine .flushed hy₁ ?_ hchg₁ ?_
    · show Keyed.erase e s₁.routingtree = _
      rw [htree₁]
    · show enqueueAt y.dst y.nexthop e s₁.delKernelList = _
      rw [hdel₁]
  · obtain ⟨s₂, hs₂⟩ := @olsrRtBest_total env _ hpurged.wf _ _ hy₁ hnil
    have hw₂ := hpurged.wf.rtBest hs₂
    obtain ⟨y', b, g, hy', hmem, rfl⟩ := olsrRtBest_cases hs₂
    obtain rfl := Option.some.inj (hy₁.symm.trans hy')
    obtain ⟨x, hx, hrt⟩ := (hpurged.wf.mem_pathTree hy₁).1 hmem
    obtain ⟨chg, henq, hchanged⟩ := @enqueueIfChanged_spec env
      { s₁.setEntry e { y with pathTree := t, best := some b } with currentInetgw := g } e b
      { y with pathTree := t, best := some b } x (hchg₁ ▸ hchg) (hdel₁ ▸ hdel) (Function.update_self _ _ _) rfl hx
    have hempty : t.isEmpty = false := by simpa using hnil
    have hstep : updateRibRoute env s e = enqueueIfChanged env
        { s₁.setEntry e { y with pathTree := t, best := some b } with currentInetgw := g } e := by
      simp only [updateRibRoute, hs₁, Option.bind_eq_bind, Option.bind_some, hy₁, hempty, hs₂]
      rfl
    refine ⟨_, hstep.trans henq, hw₂.of_eq rfl rfl rfl rfl, hkernel₁, hversion₁, hpurged.route_path, ?_, ?_⟩
    · exact fun f hf => (Function.update_of_ne hf _ _).trans (hpurged.others f hf)
    · refine .kept t b x (Function.update_self _ _ _) hx hrt htree₁ hdel₁ ?_
      rw [← hchg₁]
      exact hchanged

/-! ## The queues -/

/-- The route goes to its own gateway. -/
def ToGateway (s : Rib) (e : Ptr) : Prop :=
  ∃ y nh, s.entry e = some y ∧ olsrGetNh s y = some nh ∧ y.dst.addr = nh.gateway

/-- Such routes stand before the others. -/
def GatewaysFirst (s : Rib) (queue : List Ptr) : Prop := queue.Pairwise fun e f => ToGateway s f → ToGateway s e

section

variable {dst : IpPrefix} {nh : Nexthop} {e f : Ptr} {queue : List Ptr}

theorem mem_enqueueAt : f ∈ enqueueAt dst nh e queue ↔ f = e ∨ f ∈ queue := by
  unfold enqueueAt
  split
  · exact List.mem_cons
  · rw [List.mem_append, List.mem_singleton, or_comm]

theorem nodup_enqueueAt (h : queue.Nodup) (he : e ∉ queue) : (enqueueAt dst nh e queue).Nodup := by
  unfold enqueueAt
  split
  · exact List.nodup_cons.2 ⟨he, h⟩
  · exact List.nodup_append_comm.1 (List.nodup_cons.2 ⟨he, h⟩)

theorem GatewaysFirst.enqueueAt (h : GatewaysFirst s queue) (he : ToGateway s e ↔ dst.addr = nh.gateway) :
    GatewaysFirst s (enqueueAt dst nh e queue) := by
  unfold Routing.enqueueAt
  split
  · rename_i hgw
    exact List.pairwise_cons.2 ⟨fun f _ _ => he.2 hgw, h⟩
  · rename_i hgw
    refine List.pairwise_append.2 ⟨h, List.pairwise_singleton _ _, fun f _ g hg hto => ?_⟩
    obtain rfl := List.mem_singleton.1 hg
    exact absurd (he.1 hto) hgw

theorem toGateway_iff {y : RtEntry} (hy : s.entry e = some y) (hnh : olsrGetNh s y = some nh) :
    ToGateway s e ↔ y.dst.addr = nh.gateway := by
  constructor
  · rintro ⟨y', nh', hy', hnh', hgw⟩
    obtain rfl := Option.some.inj (hy.symm.trans hy')
    obtain rfl := Option.some.inj (hnh.symm.trans hnh')
    exact hgw
  · exact fun hgw => ⟨y, nh, hy, hnh, hgw⟩

theorem route_nexthop {p : Ptr} (h : (s'.path p).map RtPath.route = (s.path p).map RtPath.route) :
    (s'.path p).map RtPath.nexthop = (s.path p).map RtPath.nexthop := by
  have hfst := congrArg (Option.map Prod.fst) h
  simpa [Option.map_map, Function.comp_def, RtPath.route] using hfst

theorem toGateway_congr (hpaths : ∀ p, (s'.path p).map RtPath.route = (s.path p).map RtPath.route)
    (hentry : s'.entry e = s.entry e) : ToGateway s' e ↔ ToGateway s e := by
  have hnh (y : RtEntry) : olsrGetNh s' y = olsrGetNh s y := by
    unfold olsrGetNh
    cases y.best with
    | none => rfl
    | some b => exact route_nexthop (hpaths b)
  simp only [ToGateway, hentry, hnh]

theorem GatewaysFirst.congr (h : GatewaysFirst s queue)
    (hpaths : ∀ p, (s'.path p).map RtPath.route = (s.path p).map RtPath.route)
    (hentry : ∀ f ∈ queue, s'.entry f = s.entry f) : GatewaysFirst s' queue := by
  refine List.Pairwise.imp_of_mem ?_ h
  intro e f he hf hef
  rw [toGateway_congr hpaths (hentry e he), toGateway_congr hpaths (hentry f hf)]
  exact hef

end

/-! ## The whole tree -/

/-- What the walk has made of an entry. -/
inductive Settled (s : Rib) (e : Ptr) (y : RtEntry) : Prop
  | lost : e ∈ s.delKernelList → y.best = none → Settled s e y
  | routed (b : Ptr) (x : RtPath) : (y.dst, e) ∈ s.routingtree → y.best = some b → s.path b = some x → x.rt = some e →
      (e ∈ s.chgKernelList ∨ x.nexthop = y.nexthop) → Settled s e y

/-- The work lists while the entries `rest` are still to come. -/
structure Queues (rest : List Ptr) (s : Rib) : Prop where
  rest_queues : ∀ e ∈ rest, e ∉ s.chgKernelList ∧ e ∉ s.delKernelList
  chg_nodup : s.chgKernelList.Nodup
  del_nodup : s.delKernelList.Nodup
  chg_tree : ∀ e ∈ s.chgKernelList, ∃ d, (d, e) ∈ s.routingtree
  del_tree : ∀ e ∈ s.delKernelList, (s.entry e).isSome ∧ ∀ d, (d, e) ∉ s.routingtree
  chg_order : GatewaysFirst s s.chgKernelList
  del_order : GatewaysFirst s s.delKernelList

/-- The walk has come to the entries `rest`. -/
structure Updating (s : Rib) (rest : List Ptr) (s' : Rib) : Prop where
  wf : RibWf s'
  kernel : s'.kernel = s.kernel
  version : s'.version = s.version
  paths : ∀ p, (s'.path p).map RtPath.route = (s.path p).map RtPath.route
  entries : ∀ e, (s'.entry e).map RtEntry.route = (s.entry e).map RtEntry.route
  rest_nodup : rest.Nodup
  rest_entry : ∀ e ∈ rest, s'.entry e = s.entry e
  rest_tree : ∀ e ∈ rest, ∃ d, (d, e) ∈ s'.routingtree
  settled : ∀ e y, e ∉ rest → s'.entry e = some y → Settled s' e y
  queues : Queues rest s'

/-- Another entry stays as it is settled. -/
theorem RouteUpdated.settled {e f : Ptr} {y z : RtEntry} (h : RouteUpdated s e y s') (hw : RibWf s) (hf : f ≠ e)
    (hz : s.entry f = some z) (hs : Settled s f z) : Settled s' f z := by
  have hz' : s'.entry f = some z := (h.others f hf).trans hz
  have hchg : f ∈ s.chgKernelList → f ∈ s'.chgKernelList := by
    rcases h.outcome with ⟨-, -, heq, -⟩ | ⟨t, b, x, -, -, -, -, -, ⟨heq, -⟩ | heq⟩
    · rw [heq]; exact id
    · rw [heq]; exact id
    · rw [heq, mem_enqueueAt]; exact .inr
  cases hs with
  | lost hdel hbest =>
    refine .lost ?_ hbest
    rcases h.outcome with ⟨-, -, -, heq⟩ | ⟨t, b, x, -, -, -, -, heq, -⟩
    · rw [heq, mem_enqueueAt]; exact .inr hdel
    · rw [heq]; exact hdel
  | routed b x htree hbest hx hrt hq =>
    obtain ⟨x', hx', hrt'⟩ := (h.wf.mem_pathTree hz').1 ((hw.mem_pathTree hz).2 ⟨x, hx, hrt⟩)
    have hnh : x'.nexthop = x.nexthop := by
      have hroute := route_nexthop (h.paths b)
      rw [hx, hx'] at hroute
      exact Option.some.inj hroute
    refine .routed b x' ?_ hbest hx' hrt' (hq.imp hchg fun hq => hnh.trans hq)
    rcases h.outcome with ⟨-, heq, -⟩ | ⟨t, b, x, -, -, -, heq, -⟩
    · rw [heq, mem_erase]; exact ⟨htree, hf⟩
    · rw [heq]; exact htree

theorem RouteUpdated.entries {e : Ptr} {y : RtEntry} (h : RouteUpdated s e y s') (hy : s.entry e = some y) (f : Ptr) :
    (s'.entry f).map RtEntry.route = (s.entry f).map RtEntry.route := by
  by_cases hf : f = e
  · subst hf
    rcases h.outcome with ⟨heq, -⟩ | ⟨t, b, x, heq, -⟩
    · rw [heq, hy]; rfl
    · rw [heq, hy]; rfl
  · rw [h.others f hf]

theorem RouteUpdated.queues {e : Ptr} {y : RtEntry} {rest : List Ptr} (h : RouteUpdated s e y s')
    (hq : Queues (e :: rest) s) (hnot : e ∉ rest) (hmem : ∃ d, (d, e) ∈ s.routingtree) : Queues rest s' := by
  obtain ⟨hchg, hdel⟩ := hq.rest_queues e (List.mem_cons_self ..)
  have hrest {f : Ptr} (hf : f ∈ rest) : f ∉ s.chgKernelList ∧ f ∉ s.delKernelList ∧ f ≠ e :=
    ⟨(hq.rest_queues f (List.mem_cons_of_mem _ hf)).1, (hq.rest_queues f (List.mem_cons_of_mem _ hf)).2,
      by rintro rfl; exact hnot hf⟩
  have horder {queue : List Ptr} (hfirst : GatewaysFirst s queue) (he : e ∉ queue) : GatewaysFirst s' queue :=
    hfirst.congr h.paths fun f hf => h.others f (by rintro rfl; exact he hf)
  have hlive {f : Ptr} (hf : f ∈ s.delKernelList) : (s'.entry f).isSome := by
    rw [h.others f (by rintro rfl; exact hdel hf)]
    exact (hq.del_tree f hf).1
  rcases h.outcome with ⟨hentry, htree, hchg', hdel'⟩ | ⟨t, b, x, hentry, hx, hrt, htree, hdel', hchanged⟩
  · refine ⟨?_, hchg' ▸ hq.chg_nodup, hdel' ▸ nodup_enqueueAt hq.del_nodup hdel, ?_, ?_,
      hchg' ▸ horder hq.chg_order hchg, ?_⟩
    · intro f hf
      rw [hchg', hdel', mem_enqueueAt]
      exact ⟨(hrest hf).1, by rintro (rfl | hin); exacts [hnot hf, (hrest hf).2.1 hin]⟩
    · intro f hf
      rw [hchg'] at hf
      obtain ⟨d, hd⟩ := hq.chg_tree f hf
      exact ⟨d, by rw [htree, mem_erase]; exact ⟨hd, by rintro rfl; exact hchg hf⟩⟩
    · intro f hf
      rw [hdel', mem_enqueueAt] at hf
      rw [htree]
      rcases hf with rfl | hf
      · exact ⟨by rw [hentry]; rfl, fun d hd => (mem_erase.1 hd).2 rfl⟩
      · exact ⟨hlive hf, fun d hd => (hq.del_tree f hf).2 d (mem_erase.1 hd).1⟩
    · rw [hdel']
      exact (horder hq.del_order hdel).enqueueAt
        (toGateway_iff (y := { y with pathTree := [], best := none }) hentry rfl)
  · have hto : ToGateway s' e ↔ y.dst.addr = x.nexthop.gateway :=
      toGateway_iff (y := { y with pathTree := t, best := some b }) hentry (by simp [olsrGetNh, hx])
    have hchgmem {f : Ptr} (hf : f ∈ s'.chgKernelList) : f = e ∨ f ∈ s.chgKernelList := by
      rcases hchanged with ⟨heq, -⟩ | heq
      · exact .inr (heq ▸ hf)
      · rwa [heq, mem_enqueueAt] at hf
    refine ⟨?_, ?_, hdel' ▸ hq.del_nodup, ?_, ?_, ?_, hdel' ▸ horder hq.del_order hdel⟩
    · intro f hf
      rw [hdel']
      exact ⟨fun hin => (hchgmem hin).elim (hrest hf).2.2 (hrest hf).1, (hrest hf).2.1⟩
    · rcases hchanged with ⟨heq, -⟩ | heq
      · rw [heq]; exact hq.chg_nodup
      · rw [heq]; exact nodup_enqueueAt hq.chg_nodup hchg
    · intro f hf
      rw [htree]
      rcases hchgmem hf with rfl | hf
      · exact hmem
      · exact hq.chg_tree f hf
    · intro f hf
      rw [hdel'] at hf
      rw [htree]
      exact ⟨hlive hf, (hq.del_tree f hf).2⟩
    · rcases hchanged with ⟨heq, -⟩ | heq
      · rw [heq]; exact horder hq.chg_order hchg
      · rw [heq]; exact (horder hq.chg_order hchg).enqueueAt hto

theorem Updating.step {e : Ptr} {rest : List Ptr} {s₁ : Rib} (h : Updating s (e :: rest) s₁)
    (hok : ∀ y, s.entry e = some y → FlushOk s y) : ∃ s₂, updateRibRoute env s₁ e = some s₂ ∧ Updating s rest s₂ := by
  obtain ⟨hnot, hnodup⟩ := List.nodup_cons.1 h.rest_nodup
  obtain ⟨d, hd⟩ := h.rest_tree e (List.mem_cons_self ..)
  obtain ⟨y, hy, rfl⟩ := h.wf.tree d e hd
  have hy₀ : s.entry e = some y := (h.rest_entry e (List.mem_cons_self ..)).symm.trans hy
  have hflush : FlushOk s₁ y := by
    refine (hok y hy₀).imp id ?_
    rintro ⟨p, x, hp, hx, hcur⟩
    obtain ⟨x', hx', -⟩ := (h.wf.mem_pathTree hy).1 hp
    have hroute := h.paths p
    rw [hx, hx', Option.map_some, Option.map_some, Option.some.injEq] at hroute
    simp only [RtPath.route, Prod.mk.injEq] at hroute
    exact ⟨p, x', hp, hx', by rw [hroute.2.2.2, h.version]; exact hcur⟩
  obtain ⟨hchg, hdel⟩ := h.queues.rest_queues e (List.mem_cons_self ..)
  obtain ⟨s₂, hs₂, hu⟩ := @updateRibRoute_spec env _ h.wf _ _ hy hflush hchg hdel
  have hne {f : Ptr} (hf : f ∈ rest) : f ≠ e := by rintro rfl; exact hnot hf
  refine ⟨s₂, hs₂, hu.wf, hu.kernel.trans h.kernel, hu.version.trans h.version, fun p => (hu.paths p).trans (h.paths p),
    fun f => (hu.entries hy f).trans (h.entries f), hnodup, ?_, ?_, ?_, hu.queues h.queues hnot ⟨_, hd⟩⟩
  · exact fun f hf => (hu.others f (hne hf)).trans (h.rest_entry f (List.mem_cons_of_mem _ hf))
  · intro f hf
    obtain ⟨d', hd'⟩ := h.rest_tree f (List.mem_cons_of_mem _ hf)
    refine ⟨d', ?_⟩
    rcases hu.outcome with ⟨-, htree, -⟩ | ⟨t, b, x, -, -, -, htree, -⟩
    · rw [htree, mem_erase]; exact ⟨hd', hne hf⟩
    · rw [htree]; exact hd'
  · intro f z hf hz
    by_cases hfe : f = e
    · subst hfe
      rcases hu.outcome with ⟨hentry, -, -, hdel'⟩ | ⟨t, b, x, hentry, hx, hrt, htree, -, hchanged⟩
      · obtain rfl := Option.some.inj (hz.symm.trans hentry)
        exact .lost (by rw [hdel', mem_enqueueAt]; exact .inl rfl) rfl
      · obtain rfl := Option.some.inj (hz.symm.trans hentry)
        refine .routed b x (htree ▸ hd) rfl hx hrt ?_
        rcases hchanged with ⟨-, hnh⟩ | heq
        · exact .inr hnh
        · exact .inl (by rw [heq, mem_enqueueAt]; exact .inl rfl)
    · have hz₁ : s₁.entry f = some z := (hu.others f hfe).symm.trans hz
      refine hu.settled h.wf hfe hz₁ (h.settled f z ?_ hz₁)
      rw [List.mem_cons, not_or]
      exact ⟨hfe, hf⟩

/-- `olsr_update_rib_routes` from a state without pending work, in which every entry is in the tree. -/
theorem olsrUpdateRibRoutes_spec (h : RibWf s) (hlive : ∀ e y, s.entry e = some y → (y.dst, e) ∈ s.routingtree)
    (hchg : s.chgKernelList = []) (hdel : s.delKernelList = []) (hok : ∀ e y, s.entry e = some y → FlushOk s y) :
    ∃ s', olsrUpdateRibRoutes env s = some s' ∧ Updating s [] s' := by
  have hstart : Updating s (s.routingtree.map Prod.snd) s := by
    refine ⟨h, rfl, rfl, fun _ => rfl, fun _ => rfl, ?_, fun _ _ => rfl, ?_, ?_, ?_⟩
    · refine List.Nodup.map_on ?_ (List.Nodup.of_map _ h.keys)
      rintro ⟨d, e⟩ hd ⟨d', e'⟩ hd' hee
      obtain rfl : e = e' := hee
      rw [h.tree_key hd hd']
    · intro e he
      obtain ⟨⟨d, e'⟩, hd, rfl⟩ := List.mem_map.1 he
      exact ⟨d, hd⟩
    · exact fun e y he hy => absurd (List.mem_map.2 ⟨_, hlive e y hy, rfl⟩) he
    · refine ⟨?_, ?_, ?_, ?_, ?_, ?_, ?_⟩ <;> simp [hchg, hdel, GatewaysFirst]
  refine Run.forEach_total (P := fun rest s₁ => Updating s rest s₁) (fun e rest s₁ h₁ => ?_) hstart
  exact h₁.step (hok e)

end Olsrd.Routing
