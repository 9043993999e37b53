/-
`olsr_update_kernel_routes`: the two work lists are emptied into the kernel, whose table mirrors what is
installed of the route entries at every moment.
-/
import Olsrd.Routing.RibUpdate

namespace Olsrd.Routing

open Olsrd.Topology (IpPrefix)

variable {env : Env} {s s' : Rib}

/-! ## The table of the kernel -/

/-- The kernel has a route for every entry that is installed, and no other. -/
structure Mirrors (s : Rib) : Prop where
  unique : ∀ e f y z, s.entry e = some y → s.entry f = some z → y.dst = z.dst → e = f
  kernel : ∀ d nh, s.kernel d = some nh ↔ ∃ e y, s.entry e = some y ∧ y.dst = d ∧ y.nexthop = nh ∧ 0 ≤ nh.iifIndex

section

variable {e : Ptr} {y : RtEntry}

theorem Mirrors.of_eq (h : Mirrors s) (hentry : ∀ e, (s'.entry e).map RtEntry.route = (s.entry e).map RtEntry.route)
    (hkernel : s'.kernel = s.kernel) : Mirrors s' := by
  have hold {e : Ptr} {y' : RtEntry} (hy' : s'.entry e = some y') : ∃ y, s.entry e = some y ∧ y'.route = y.route := by
    have he := hentry e
    rw [hy', Option.map_some, eq_comm, Option.map_eq_some_iff] at he
    obtain ⟨y, hy, hroute⟩ := he
    exact ⟨y, hy, hroute.symm⟩
  have hnew {e : Ptr} {y : RtEntry} (hy : s.entry e = some y) : ∃ y', s'.entry e = some y' ∧ y'.route = y.route := by
    have he := hentry e
    rw [hy, Option.map_some, Option.map_eq_some_iff] at he
    exact he
  refine ⟨?_, fun d nh => ?_⟩
  · intro e f y' z' hy' hz' hdst
    obtain ⟨y, hy, hroute⟩ := hold hy'
    obtain ⟨z, hz, hroute'⟩ := hold hz'
    simp only [RtEntry.route, Prod.mk.injEq] at hroute hroute'
    exact h.unique e f y z hy hz (hroute.1.symm.trans (hdst.trans hroute'.1))
  · rw [hkernel, h.kernel]
    constructor
    · rintro ⟨e, y, hy, hd, hnh, hif⟩
      obtain ⟨y', hy', hroute⟩ := hnew hy
      simp only [RtEntry.route, Prod.mk.injEq] at hroute
      exact ⟨e, y', hy', hroute.1.trans hd, hroute.2.1.trans hnh, hif⟩
    · rintro ⟨e, y', hy', hd, hnh, hif⟩
      obtain ⟨y, hy, hroute⟩ := hold hy'
      simp only [RtEntry.route, Prod.mk.injEq] at hroute
      exact ⟨e, y, hy, hroute.1.symm.trans hd, hroute.2.1.symm.trans hnh, hif⟩

/-- The next hop of an entry is the only one the kernel can have for its prefix. -/
theorem Mirrors.kernel_dst (h : Mirrors s) (hy : s.entry e = some y) (nh : Nexthop) :
    s.kernel y.dst = some nh ↔ y.nexthop = nh ∧ 0 ≤ nh.iifIndex := by
  rw [h.kernel]
  constructor
  · rintro ⟨f, z, hz, hd, hnh, hif⟩
    obtain rfl := h.unique f e z y hz hy hd
    obtain rfl := Option.some.inj (hz.symm.trans hy)
    exact ⟨hnh, hif⟩
  · rintro ⟨hnh, hif⟩
    exact ⟨e, y, hy, rfl, hnh, hif⟩

/-- An entry that is not installed has no route to be deleted. -/
theorem Mirrors.update_kernel_none (h : Mirrors s) (hy : s.entry e = some y) (hif : ¬ 0 ≤ y.nexthop.iifIndex) :
    Function.update s.kernel y.dst none = s.kernel := by
  refine Function.update_eq_self_iff.2 (Option.eq_none_iff_forall_ne_some.2 fun nh hnh => ?_).symm
  obtain ⟨rfl, hif'⟩ := (h.kernel_dst hy nh).1 hnh
  exact hif hif'

theorem Mirrors.remove (h : Mirrors s) (hy : s.entry e = some y) :
    Mirrors { s with entry := Function.update s.entry e none, kernel := Function.update s.kernel y.dst none } := by
  have hold {f : Ptr} {z : RtEntry} : Function.update s.entry e none f = some z ↔ s.entry f = some z ∧ f ≠ e := by
    by_cases hf : f = e
    · subst hf; simp
    · simp [hf]
  refine ⟨?_, fun d nh => ?_⟩
  · intro f g y' z' hy' hz'
    exact h.unique f g y' z' (hold.1 hy').1 (hold.1 hz').1
  · show Function.update s.kernel y.dst none d = some nh ↔
      ∃ f z, Function.update s.entry e none f = some z ∧ z.dst = d ∧ z.nexthop = nh ∧ 0 ≤ nh.iifIndex
    simp only [hold]
    by_cases hd : d = y.dst
    · subst hd
      rw [Function.update_self]
      refine iff_of_false nofun ?_
      rintro ⟨f, z, ⟨hz, hf⟩, hd, -⟩
      exact hf (h.unique f e z y hz hy hd)
    · rw [Function.update_of_ne hd, h.kernel]
      constructor
      · rintro ⟨f, z, hz, hzd, hnh⟩
        refine ⟨f, z, ⟨hz, ?_⟩, hzd, hnh⟩
        rintro rfl
        obtain rfl := Option.some.inj (hz.symm.trans hy)
        exact hd hzd.symm
      · rintro ⟨f, z, ⟨hz, -⟩, hzd, hnh⟩
        exact ⟨f, z, hz, hzd, hnh⟩

theorem Mirrors.install (h : Mirrors s) (hy : s.entry e = some y) {nh : Nexthop} (metric : Metric)
    (hif : 0 ≤ nh.iifIndex) : Mirrors { s.setEntry e { y with nexthop := nh, metric := metric } with
      kernel := Function.update s.kernel y.dst (some nh) } := by
  have hold {f : Ptr} {z : RtEntry}
    (hz : Function.update s.entry e (some { y with nexthop := nh, metric := metric }) f = some z) :
      ∃ z', s.entry f = some z' ∧ z.dst = z'.dst ∧ (f ≠ e → z = z') ∧ (f = e → z.nexthop = nh) := by
    by_cases hf : f = e
    · rw [hf, Function.update_self] at hz
      obtain rfl := Option.some.inj hz
      exact ⟨y, hf ▸ hy, rfl, fun hne => absurd hf hne, fun _ => rfl⟩
    · rw [Function.update_of_ne hf] at hz
      exact ⟨z, hz, rfl, fun _ => rfl, fun heq => absurd heq hf⟩
  refine ⟨?_, fun d nh' => ?_⟩
  · intro f g y' z' hy' hz' hdst
    obtain ⟨y₀, hy₀, hyd, -⟩ := hold hy'
    obtain ⟨z₀, hz₀, hzd, -⟩ := hold hz'
    exact h.unique f g y₀ z₀ hy₀ hz₀ (hyd.symm.trans (hdst.trans hzd))
  · show Function.update s.kernel y.dst (some nh) d = some nh' ↔ ∃ f z,
      Function.update s.entry e (some { y with nexthop := nh, metric := metric }) f = some z ∧ z.dst = d ∧
      z.nexthop = nh' ∧
        0 ≤ nh'.iifIndex
    by_cases hd : d = y.dst
    · subst hd
      rw [Function.update_self]
      constructor
      · rintro heq
        obtain rfl := Option.some.inj heq
        exact ⟨e, _, Function.update_self _ _ _, rfl, rfl, hif⟩
      · rintro ⟨f, z, hz, hd, hnh, -⟩
        obtain ⟨z', hz', hzd, -, hself⟩ := hold hz
        rw [← hnh, hself (h.unique f e z' y hz' hy (hzd.symm.trans hd))]
    · rw [Function.update_of_ne hd, h.kernel]
      constructor
      · rintro ⟨f, z, hz, hzd, hnh⟩
        have hf : f ≠ e := by
          rintro rfl
          obtain rfl := Option.some.inj (hz.symm.trans hy)
          exact hd hzd.symm
        exact ⟨f, z, by rw [Function.update_of_ne hf]; exact hz, hzd, hnh⟩
      · rintro ⟨f, z, hz, hzd, hnh⟩
        obtain ⟨z', hz', hzd', hother, -⟩ := hold hz
        have hf : f ≠ e := by
          rintro rfl
          obtain rfl := Option.some.inj (hz'.symm.trans hy)
          exact hd (hzd.symm.trans hzd')
        exact ⟨f, z, by rw [hother hf]; exact hz', hzd, hnh⟩

end

/-! ## Deleted routes -/

/-- No destination is a link local address. -/
structure Global (env : Env) (s : Rib) : Prop where
  entry : ∀ e y, s.entry e = some y → ipIsLinklocal env.cnf y.dst.addr = false
  path : ∀ p x, s.path p = some x → ipIsLinklocal env.cnf x.dst.addr = false

theorem skipsRoute_eq_false {dst : IpPrefix} (h : ipIsLinklocal env.cnf dst.addr = false) (metric : Metric) :
    skipsRoute env metric dst = false := by
  simp [skipsRoute, h]

/-- The kernel operations for a lost route. -/
def delOps (env : Env) (s : Rib) (e : Ptr) : List KernelOp :=
  match s.entry e with
  | some y => if !env.netlink || decide (y.nexthop.iifIndex ≥ 0) then [.delete y.dst y.nexthop] else []
  | none => []

/-- The entries `done` have been deleted, those in `rest` are still on the list. -/
structure Deleting (env : Env) (s : Rib) (done rest : List Ptr) (s' : Rib) : Prop where
  mirrors : Mirrors s'
  frame : s' = { s with entry := s'.entry, kernel := s'.kernel, ops := s'.ops, delKernelList := s'.delKernelList }
  gone : ∀ e ∈ done, s'.entry e = none
  kept : ∀ e, e ∉ done → s'.entry e = s.entry e
  ops : s'.ops = s.ops ++ done.flatMap (delOps env s)
  queue : ∀ e ∈ s'.delKernelList, e ∈ rest

theorem Deleting.step {done rest : List Ptr} {e : Ptr} {y : RtEntry} {s₁ : Rib} (h : Deleting env s done (e :: rest) s₁)
    (hemul : env.hostEmul = false) (hglobal : Global env s) (he : e ∉ done) (hnodup : s₁.delKernelList.Nodup)
    (hy : s.entry e = some y) :
    ∃ s₂, delKernelRoute env s₁ e = some s₂ ∧ Deleting env s (done ++ [e]) rest s₂ ∧ s₂.delKernelList.Nodup := by
  have hy₁ : s₁.entry e = some y := (h.kept e he).trans hy
  have hskip := skipsRoute_eq_false (hglobal.entry e y hy) y.metric
  have hdefs : delKernelRoute env s₁ e = some { s₁ with
      entry := Function.update s₁.entry e none, kernel := Function.update s₁.kernel y.dst none,
      delKernelList := s₁.delKernelList.erase e, ops := s₁.ops ++ delOps env s e } := by
    by_cases hif : (!env.netlink || decide (y.nexthop.iifIndex ≥ 0)) = true
    · simp only [delKernelRoute, hy₁, Option.bind_eq_bind, Option.bind_some, if_pos hif, olsrDeleteKernelRoute,
        hskip, hemul, delOps, hy]
      rfl
    · have hnone := h.mirrors.update_kernel_none hy₁ (by simp_all)
      simp only [delKernelRoute, hy₁, Option.bind_eq_bind, Option.bind_some, if_neg hif, delOps, hy, hnone,
        List.append_nil]
      rfl
  refine ⟨_, hdefs, ⟨(h.mirrors.remove hy₁).of_eq (fun _ => rfl) rfl, ?_, ?_, ?_, ?_, ?_⟩, hnodup.erase e⟩
  · rw [h.frame]
  · intro f hf
    rcases List.mem_append.1 hf with hf | hf
    · by_cases hfe : f = e
      · rw [hfe]; exact Function.update_self _ _ _
      · exact (Function.update_of_ne hfe _ _).trans (h.gone f hf)
    · obtain rfl := List.mem_singleton.1 hf
      exact Function.update_self _ _ _
  · intro f hf
    rw [List.mem_append, List.mem_singleton, not_or] at hf
    exact (Function.update_of_ne hf.2 _ _).trans (h.kept f hf.1)
  · show s₁.ops ++ delOps env s e = _
    rw [h.ops, List.flatMap_append, List.append_assoc, List.flatMap_singleton]
  · intro f hf
    obtain ⟨hne, hin⟩ := (hnodup.mem_erase_iff).1 hf
    exact (List.mem_cons.1 (h.queue f hin)).resolve_left hne

theorem olsrDelKernelRoutes_spec (h : Mirrors s) (hemul : env.hostEmul = false) (hglobal : Global env s)
    (hnodup : s.delKernelList.Nodup) (hlive : ∀ e ∈ s.delKernelList, (s.entry e).isSome) :
    ∃ s', olsrDelKernelRoutes env s = some s' ∧ Deleting env s s.delKernelList.reverse [] s' := by
  let Inv (rest : List Ptr) (s₁ : Rib) : Prop := ∃ done, s.delKernelList.reverse = done ++ rest ∧
    Deleting env s done rest s₁ ∧ s₁.delKernelList.Nodup
  have hstart : Inv s.delKernelList.reverse s :=
    ⟨[], rfl, ⟨h, rfl, nofun, fun _ _ => rfl, by simp, fun e he => List.mem_reverse.2 he⟩, hnodup⟩
  have hstep : ∀ e rest s₁, Inv (e :: rest) s₁ → ∃ s₂, delKernelRoute env s₁ e = some s₂ ∧ Inv rest s₂ := by
    rintro e rest s₁ ⟨done, hsplit, hdel, hnd⟩
    have hmem : e ∈ s.delKernelList := by
      rw [← List.mem_reverse, hsplit]
      simp
    have hnot : e ∉ done := by
      have hall := List.nodup_reverse.2 hnodup
      rw [hsplit] at hall
      exact fun hin => (List.disjoint_of_nodup_append hall) hin (List.mem_cons_self ..)
    obtain ⟨y, hy⟩ := Option.isSome_iff_exists.1 (hlive e hmem)
    obtain ⟨s₂, hs₂, hdel₂, hnd₂⟩ := hdel.step hemul hglobal hnot hnd hy
    exact ⟨s₂, hs₂, done ++ [e], by rw [hsplit, List.append_assoc]; rfl, hdel₂, hnd₂⟩
  obtain ⟨s', hs', done, hsplit, hdel, -⟩ := Run.forEach_total hstep hstart
  rw [List.append_nil] at hsplit
  exact ⟨s', hs', hsplit ▸ hdel⟩

/-! ## Changed routes -/

/-- The kernel operations for a changed route. -/
def chgOps (env : Env) (s : Rib) (e : Ptr) : List KernelOp :=
  match s.entry e with
  | some y => (if deletesFirst env && decide (y.nexthop.iifIndex > -1) then [.delete y.dst y.nexthop] else []) ++
      (olsrGetNh s y).toList.map (.add y.dst)
  | none => []

/-- The best path of an entry, which can be installed. -/
def HasRoute (s : Rib) (e : Ptr) (y : RtEntry) (x : RtPath) : Prop :=
  s.entry e = some y ∧ ∃ b, y.best = some b ∧ s.path b = some x

/-- The entries `done` have been installed, those in `rest` are still on the list. -/
structure Changing (env : Env) (s : Rib) (done rest : List Ptr) (s' : Rib) : Prop where
  mirrors : Mirrors s'
  frame : s' = { s with entry := s'.entry, kernel := s'.kernel, ops := s'.ops, chgKernelList := s'.chgKernelList }
  installed : ∀ e ∈ done, ∃ y x, HasRoute s e y x ∧ s'.entry e =
    some { y with nexthop := x.nexthop, metric := x.metric }
  kept : ∀ e, e ∉ done → s'.entry e = s.entry e
  ops : s'.ops = s.ops ++ done.flatMap (chgOps env s)
  queue : ∀ e ∈ s'.chgKernelList, e ∈ rest

theorem olsrAddKernelRoute_spec {e b : Ptr} {y : RtEntry} {x : RtPath} (hy : s.entry e = some y) (hb : y.best = some b)
    (hx : s.path b = some x) (hemul : env.hostEmul = false) (hglobal : ipIsLinklocal env.cnf x.dst.addr = false) :
    olsrAddKernelRoute env s e = some { s.setEntry e { y with nexthop := x.nexthop, metric := x.metric } with
      kernel := Function.update s.kernel y.dst (some x.nexthop), ops := s.ops ++ [.add y.dst x.nexthop] } := by
  simp only [olsrAddKernelRoute, hy, hb, hx, Option.bind_eq_bind, Option.bind_some, skipsRoute_eq_false hglobal, hemul]
  rfl

theorem Changing.step {done rest : List Ptr} {e : Ptr} {y : RtEntry} {x : RtPath} {s₁ : Rib}
    (h : Changing env s done (e :: rest) s₁) (hemul : env.hostEmul = false) (hglobal : Global env s) (he : e ∉ done)
    (hnodup : s₁.chgKernelList.Nodup) (hroute : HasRoute s e y x) (hif : 0 ≤ x.nexthop.iifIndex) :
    ∃ s₂, chgKernelRoute env s₁ e = some s₂ ∧ Changing env s (done ++ [e]) rest s₂ ∧ s₂.chgKernelList.Nodup := by
  obtain ⟨hy, b, hb, hx⟩ := id hroute
  have hy₁ : s₁.entry e = some y := (h.kept e he).trans hy
  have hx₁ : s₁.path b = some x := by rw [h.frame]; exact hx
  have hskip := skipsRoute_eq_false (hglobal.entry e y hy) y.metric
  have hnh : olsrGetNh s y = some x.nexthop := by simp [olsrGetNh, hb, hx]
  have hdefs : chgKernelRoute env s₁ e = some { s₁.setEntry e { y with nexthop := x.nexthop, metric := x.metric } with
      kernel := Function.update s₁.kernel y.dst (some x.nexthop), chgKernelList := s₁.chgKernelList.erase e,
      ops := s₁.ops ++ chgOps env s e } := by
    by_cases hfirst : (deletesFirst env && decide (y.nexthop.iifIndex > -1)) = true
    · let s₂ : Rib := { s₁ with kernel := Function.update s₁.kernel y.dst none, ops :=
        s₁.ops ++ [.delete y.dst y.nexthop] }
      have hdel : olsrDeleteKernelRoute env s₁ y = s₂ := by simp [olsrDeleteKernelRoute, hskip, hemul, s₂]
      have hadd : olsrAddKernelRoute env s₂ e = _ := olsrAddKernelRoute_spec hy₁ hb hx₁ hemul (hglobal.path b x hx)
      simp only [chgKernelRoute, hy₁, Option.bind_eq_bind, Option.bind_some, if_pos hfirst, hdel, hadd, chgOps,
        hy, hnh, s₂, Function.update_idem, List.append_assoc]
      rfl
    · have hadd := olsrAddKernelRoute_spec hy₁ hb hx₁ hemul (hglobal.path b x hx)
      simp only [chgKernelRoute, hy₁, Option.bind_eq_bind, Option.bind_some, if_neg hfirst, hadd, chgOps, hy, hnh]
      rfl
  refine ⟨_, hdefs, ⟨(h.mirrors.install hy₁ x.metric hif).of_eq (fun _ => rfl) rfl, ?_, ?_, ?_, ?_, ?_⟩, hnodup.erase e⟩
  · unfold Rib.setEntry
    rw [h.frame]
  · intro f hf
    by_cases hfe : f = e
    · rw [hfe]
      exact ⟨y, x, hroute, Function.update_self _ _ _⟩
    · obtain ⟨z, w, hzw, hf'⟩ := h.installed f ((List.mem_append.1 hf).resolve_right (by simpa using hfe))
      exact ⟨z, w, hzw, (Function.update_of_ne hfe _ _).trans hf'⟩
  · intro f hf
    rw [List.mem_append, List.mem_singleton, not_or] at hf
    exact (Function.update_of_ne hf.2 _ _).trans (h.kept f hf.1)
  · show s₁.ops ++ chgOps env s e = _
    rw [h.ops, List.flatMap_append, List.append_assoc, List.flatMap_singleton]
  · intro f hf
    obtain ⟨hne, hin⟩ := (hnodup.mem_erase_iff).1 hf
    exact (List.mem_cons.1 (h.queue f hin)).resolve_left hne

theorem olsrChgKernelRoutes_spec (h : Mirrors s) (hemul : env.hostEmul = false) (hglobal : Global env s)
    (hnodup : s.chgKernelList.Nodup)
    (hroutes : ∀ e ∈ s.chgKernelList, ∃ y x, HasRoute s e y x ∧ 0 ≤ x.nexthop.iifIndex) :
    ∃ s', olsrChgKernelRoutes env s = some s' ∧ Changing env s s.chgKernelList [] s' := by
  let Inv (rest : List Ptr) (s₁ : Rib) : Prop := ∃ done, s.chgKernelList = done ++ rest ∧
    Changing env s done rest s₁ ∧ s₁.chgKernelList.Nodup
  have hstart : Inv s.chgKernelList s := ⟨[], rfl, ⟨h, rfl, nofun, fun _ _ => rfl, by simp, fun _ => id⟩, hnodup⟩
  have hstep : ∀ e rest s₁, Inv (e :: rest) s₁ → ∃ s₂, chgKernelRoute env s₁ e = some s₂ ∧ Inv rest s₂ := by
    rintro e rest s₁ ⟨done, hsplit, hchg, hnd⟩
    have hnot : e ∉ done := by
      rw [hsplit] at hnodup
      exact fun hin => (List.disjoint_of_nodup_append hnodup) hin (List.mem_cons_self ..)
    obtain ⟨y, x, hroute, hif⟩ := hroutes e (by rw [hsplit]; simp)
    obtain ⟨s₂, hs₂, hchg₂, hnd₂⟩ := hchg.step hemul hglobal hnot hnd hroute hif
    exact ⟨s₂, hs₂, done ++ [e], by rw [hsplit, List.append_assoc]; rfl, hchg₂, hnd₂⟩
  obtain ⟨s', hs', done, hsplit, hchg, -⟩ := Run.forEach_total hstep hstart
  rw [List.append_nil] at hsplit
  exact ⟨s', hs', hsplit ▸ hchg⟩

end Olsrd.Routing
