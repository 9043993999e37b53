/-
Where the paths of a node come from. Who the nodes are, which interfaces they have and which networks they announce is
given here; as long as nothing else comes in, the aliases, the paths and the kernel routes of a node are those of the
nodes they are for. Nothing is asked of the tables, so that this holds in every run.
-/
import Olsrd.Routing.Fib
import Olsrd.Routing.Ownership

namespace Olsrd.Announce

open Olsrd.Neighbor (MidSet MidEntry midLookupMainAddr olsrDeleteMidEntry)
open Olsrd.Routing
open Olsrd.Topology (IpPrefix maxplen)

/-! ## The routing information base -/

section

variable {L : IpAddr → IpPrefix → Prop} {env : Env} {s s' : Rib}

/-- Every path is for a destination of its originator, and every route entry and kernel route for one of some
originator. -/
structure RibTrue (L : IpAddr → IpPrefix → Prop) (s : Rib) : Prop where
  paths : ∀ p x, s.path p = some x → L x.tc x.dst
  entries : ∀ e y, s.entry e = some y → ∃ o, L o y.dst
  kernel : ∀ d nh, s.kernel d = some nh → ∃ o, L o d

theorem RibTrue.mono {L' : IpAddr → IpPrefix → Prop} (h : RibTrue L s) (hle : ∀ o d, L o d → L' o d) :
    RibTrue L' s := by
  refine ⟨fun p x hx => hle _ _ (h.paths p x hx), fun e y hy => ?_, fun d nh hd => ?_⟩
  · obtain ⟨o, ho⟩ := h.entries e y hy
    exact ⟨o, hle _ _ ho⟩
  · obtain ⟨o, ho⟩ := h.kernel d nh hd
    exact ⟨o, hle _ _ ho⟩

theorem RibTrue.of_eq (h : RibTrue L s) (hpath : s'.path = s.path) (hentry : s'.entry = s.entry)
    (hkernel : s'.kernel = s.kernel) : RibTrue L s' :=
  ⟨hpath ▸ h.paths, hentry ▸ h.entries, hkernel ▸ h.kernel⟩

/-- What an update of a map holds is the new value or what was there. -/
theorem update_cases {α β : Type} [DecidableEq α] {f : α → Option β} {a b : α} {o : Option β} {y : β}
    (h : Function.update f a o b = some y) : (b = a ∧ o = some y) ∨ f b = some y := by
  by_cases hb : b = a
  · subst hb
    rw [Function.update_self] at h
    exact .inl ⟨rfl, h⟩
  · rw [Function.update_of_ne hb] at h
    exact .inr h

theorem RibTrue.updatePath (h : RibTrue L s) {p : Ptr} {o : Option RtPath} (hx : ∀ x, o = some x → L x.tc x.dst) :
    RibTrue L { s with path := Function.update s.path p o } := by
  refine ⟨fun q x hq => ?_, h.entries, h.kernel⟩
  rcases update_cases hq with ⟨-, ho⟩ | hold
  · exact hx x ho
  · exact h.paths q x hold

theorem RibTrue.updateEntry (h : RibTrue L s) {e : Ptr} {o : Option RtEntry} (hy : ∀ y, o = some y → ∃ a, L a y.dst) :
    RibTrue L { s with entry := Function.update s.entry e o } := by
  refine ⟨h.paths, fun f y hf => ?_, h.kernel⟩
  rcases update_cases hf with ⟨-, ho⟩ | hold
  · exact hy y ho
  · exact h.entries f y hold

theorem RibTrue.updateKernel (h : RibTrue L s) {d : IpPrefix} {o : Option Nexthop}
    (hd : ∀ nh, o = some nh → ∃ a, L a d) : RibTrue L { s with kernel := Function.update s.kernel d o } := by
  refine ⟨h.paths, h.entries, fun d' nh hd' => ?_⟩
  rcases update_cases hd' with ⟨rfl, ho⟩ | hold
  · exact hd nh ho
  · exact h.kernel d' nh hold

theorem RibTrue.setPath (h : RibTrue L s) {p : Ptr} {x : RtPath} (hx : L x.tc x.dst) : RibTrue L (s.setPath p x) :=
  h.updatePath fun z hz => by
    obtain rfl := Option.some.inj hz
    exact hx

/-- An entry may change, but for its destination. -/
theorem RibTrue.setEntry (h : RibTrue L s) {e : Ptr} {y y' : RtEntry} (hy : s.entry e = some y)
    (hdst : y'.dst = y.dst) : RibTrue L (s.setEntry e y') :=
  h.updateEntry fun z hz => by
    obtain rfl := Option.some.inj hz
    exact hdst ▸ h.entries e y hy

theorem RibTrue.freed (h : RibTrue L s) {p : Ptr} {a : IpAddr} {t : List (IpPrefix × Ptr)} :
    RibTrue L (Routing.freed s p a t) :=
  RibTrue.updatePath (s := s.setPrefixTree a (Keyed.erase p t)) (h.of_eq rfl rfl rfl) nofun

theorem RibTrue.detached (h : RibTrue L s) {e p : Ptr} {x : RtPath} {y : RtEntry} {best : Option Ptr}
    (hx : s.path p = some x) (hy : s.entry e = some y) : RibTrue L (Routing.detached s e y p x best) := by
  have hset : RibTrue L (s.setEntry e { y with pathTree := Keyed.erase p y.pathTree, best := best }) :=
    h.setEntry hy rfl
  exact hset.setPath (h.paths p x hx)

/-! ## Operations of the tables -/

theorem RibTrue.insertPrefix (h : RibTrue L s) {o : IpAddr} {d : IpPrefix} {origin : Nat} {p : Ptr} (hd : L o d)
    (hins : insertPrefix env s o d origin p = some s') : RibTrue L s' := by
  rcases insertPrefix_cases hins with ⟨rfl, -⟩ | ⟨t, -, -, rfl⟩
  · exact h
  · have htree : RibTrue L (s.setPrefixTree o (Keyed.insert Topology.prefixLt d p t)) := h.of_eq rfl rfl rfl
    have halloc : RibTrue L (olsrAllocRtPath env s o t d origin p) := htree.setPath hd
    exact halloc.of_eq rfl rfl rfl

theorem RibTrue.locateTcEntry (h : RibTrue L s) {o : IpAddr} {p : Ptr} (ho : L o (hostPrefix env.cnf o))
    (hloc : olsrLocateTcEntry env s o p = some s') : RibTrue L s' := by
  rcases olsrLocateTcEntry_cases hloc with ⟨rfl, -⟩ | ⟨-, hins⟩
  · exact h
  · exact RibTrue.insertPrefix (s := s.setPrefixTree o []) (h.of_eq rfl rfl rfl) ho hins

theorem RibTrue.deleteRtPath (h : RibTrue L s) {p : Ptr} (hdel : olsrDeleteRtPath s p = some s') : RibTrue L s' := by
  obtain ⟨x, t, g, hx, -, ⟨-, rfl⟩ | ⟨e, y, -, hy, rfl⟩⟩ := olsrDeleteRtPath_cases hdel
  · exact (h.freed (p := p) (a := x.tc) (t := t)).of_eq rfl rfl rfl
  · have hdetached : RibTrue L (Routing.detached s e y p x y.best) := h.detached hx hy
    exact (hdetached.freed (p := p) (a := x.tc) (t := t)).of_eq rfl rfl rfl

theorem RibTrue.updateRtPath (h : RibTrue L s) {p : Ptr} {r : SpfResult} (hupd : olsrUpdateRtPath s p r = some s') :
    RibTrue L s' := by
  obtain ⟨x, hx, rfl⟩ := olsrUpdateRtPath_cases hupd
  exact h.setPath (h.paths p x hx)

/-- A new route entry has the destination of a path. -/
theorem RibTrue.insertRtPath (h : RibTrue L s) {p e : Ptr} {r : SpfResult}
    (hins : olsrInsertRtPath env s p r e = some s') : RibTrue L s' := by
  rcases olsrInsertRtPath_cases hins with rfl | ⟨x, s₁, hx, hlink, hupd⟩
  · exact h
  · have halloc : RibTrue L (locateRtEntry env s x.dst e).1 := by
      rcases locateRtEntry_cases env s x.dst e with ⟨rt, -, heq⟩ | ⟨-, heq⟩
      · rw [heq]
        exact h
      · rw [heq]
        refine RibTrue.of_eq (s := s.setEntry e _) (h.updateEntry fun y hy => ?_) rfl rfl rfl
        obtain rfl := Option.some.inj hy
        exact ⟨x.tc, h.paths p x hx⟩
    obtain ⟨y, hy, hlink⟩ := Option.bind_eq_some_iff.1 hlink
    obtain rfl := Option.some.inj hlink
    refine RibTrue.updateRtPath (RibTrue.setPath ?_ ?_) hupd
    · split
      · exact halloc
      · exact halloc.setEntry hy rfl
    · exact h.paths p x hx

/-- What an operation brings: the destinations of an originator. -/
def TableOp.Tells (L : IpAddr → IpPrefix → Prop) (cnf : Cnf) : TableOp → Prop
  | .insertRoutingTable d o _ _ _ => L o d ∧ L o (hostPrefix cnf o)
  | _ => True

theorem RibTrue.stepTable (h : RibTrue L s) {op : TableOp} (hstep : stepTable env s op = some s')
    (htells : TableOp.Tells L env.cnf op) : RibTrue L s' := by
  obtain ⟨-, hstep⟩ := stepTable_cases hstep
  cases op with
  | insertRoutingTable d o origin p q =>
    rcases olsrInsertRoutingTable_cases hstep with ⟨rfl, -⟩ | ⟨s₁, hloc, hins⟩
    · exact h
    · exact (h.locateTcEntry htells.2 hloc).insertPrefix htells.1 hins
  | deleteRoutingTable d o =>
    rcases olsrDeleteRoutingTable_cases hstep with ⟨rfl, -⟩ | ⟨p, s₁, -, -, hdel, rfl⟩
    · exact h
    · exact (h.deleteRtPath hdel).of_eq rfl rfl rfl
  | insertRtPath p r e => exact h.insertRtPath hstep
  | updateRtPath p r => exact h.updateRtPath hstep
  | deleteRtPath p => exact h.deleteRtPath hstep
  | deleteTcEntry adr =>
    have hs' : s' = _ := hstep
    exact hs' ▸ h.of_eq rfl rfl rfl
  | bumpRoutingtreeVersion =>
    have hs' : s' = _ := hstep
    exact hs' ▸ h.of_eq rfl rfl rfl

/-! ## Route updates -/

theorem RibTrue.enqueueRt (h : RibTrue L s) {queue : Queue} {e : Ptr} (henq : olsrEnqueueRt queue s e = some s') :
    RibTrue L s' := by
  unfold olsrEnqueueRt at henq
  split at henq
  · obtain rfl := Option.some.inj henq
    exact h
  · obtain ⟨y, -, henq⟩ := Option.bind_eq_some_iff.1 henq
    obtain ⟨nh, -, henq⟩ := Option.bind_eq_some_iff.1 henq
    cases queue with
    | chg =>
      obtain rfl := Option.some.inj henq
      exact h.of_eq rfl rfl rfl
    | del =>
      obtain rfl := Option.some.inj henq
      exact h.of_eq rfl rfl rfl

theorem RibTrue.deleteOutdatedRoutes (h : RibTrue L s) {e : Ptr} (hdel : olsrDeleteOutdatedRoutes s e = some s') :
    RibTrue L s' := by
  obtain ⟨y, -, hdel⟩ := Option.bind_eq_some_iff.1 hdel
  refine Run.forEach_invariant (P := RibTrue L) (fun s₁ p s₂ _ h₁ hround => ?_) h hdel
  obtain ⟨x, z, hx, hz, ⟨-, rfl⟩ | ⟨-, rfl⟩⟩ := deleteIfOutdated_cases hround
  · exact h₁
  · exact h₁.detached hx hz

theorem RibTrue.updateRibRoute (h : RibTrue L s) {e : Ptr} (hupd : updateRibRoute env s e = some s') :
    RibTrue L s' := by
  obtain ⟨s₁, hdel, hupd⟩ := Option.bind_eq_some_iff.1 hupd
  obtain ⟨y, hy, hupd⟩ := Option.bind_eq_some_iff.1 hupd
  have h₁ := h.deleteOutdatedRoutes hdel
  split at hupd
  · exact RibTrue.enqueueRt (s := { s₁ with routingtree := Keyed.erase e s₁.routingtree }) (h₁.of_eq rfl rfl rfl) hupd
  · obtain ⟨s₂, hbest, hupd⟩ := Option.bind_eq_some_iff.1 hupd
    obtain ⟨z, b, g, hz, -, rfl⟩ := olsrRtBest_cases hbest
    have hset : RibTrue L (s₁.setEntry e { z with best := some b }) := h₁.setEntry hz rfl
    obtain ⟨y', -, hupd⟩ := Option.bind_eq_some_iff.1 hupd
    obtain ⟨b', -, hupd⟩ := Option.bind_eq_some_iff.1 hupd
    obtain ⟨x', -, hupd⟩ := Option.bind_eq_some_iff.1 hupd
    have hbest : RibTrue L { s₁.setEntry e { z with best := some b } with currentInetgw := g } := hset.of_eq rfl rfl rfl
    split at hupd
    · exact hbest.enqueueRt hupd
    · obtain rfl := Option.some.inj hupd
      exact hbest

theorem RibTrue.deleteKernelRoute (h : RibTrue L s) (env : Env) (y : RtEntry) :
    RibTrue L (olsrDeleteKernelRoute env s y) := by
  unfold olsrDeleteKernelRoute
  split
  · exact h
  · have hkernel : RibTrue L { s with kernel := Function.update s.kernel y.dst none } := h.updateKernel nofun
    exact hkernel.of_eq rfl rfl rfl

theorem RibTrue.delKernelRoute (h : RibTrue L s) {e : Ptr} (hdel : delKernelRoute env s e = some s') :
    RibTrue L s' := by
  obtain ⟨y, -, hdel⟩ := Option.bind_eq_some_iff.1 hdel
  have hdeleted : RibTrue L
      (if !env.netlink || decide (y.nexthop.iifIndex ≥ 0) then olsrDeleteKernelRoute env s y else s) := by
    split
    · exact h.deleteKernelRoute env y
    · exact h
  obtain rfl := Option.some.inj hdel
  exact (hdeleted.updateEntry (e := e) (o := none) nofun).of_eq rfl rfl rfl

/-- A kernel route has the destination of a route entry. -/
theorem RibTrue.chgKernelRoute (h : RibTrue L s) {e : Ptr} (hchg : chgKernelRoute env s e = some s') :
    RibTrue L s' := by
  obtain ⟨y, -, hchg⟩ := Option.bind_eq_some_iff.1 hchg
  obtain ⟨s₁, hadd, hchg⟩ := Option.bind_eq_some_iff.1 hchg
  obtain rfl := Option.some.inj hchg
  obtain ⟨z, hz, hadd⟩ := Option.bind_eq_some_iff.1 hadd
  obtain ⟨b, -, hadd⟩ := Option.bind_eq_some_iff.1 hadd
  obtain ⟨x, -, hadd⟩ := Option.bind_eq_some_iff.1 hadd
  have hdeleted : RibTrue L
      (if deletesFirst env && decide (y.nexthop.iifIndex > -1) then olsrDeleteKernelRoute env s y else s) := by
    split
    · exact h.deleteKernelRoute env y
    · exact h
  split at hadd
  · obtain rfl := Option.some.inj hadd
    exact hdeleted.of_eq rfl rfl rfl
  · obtain rfl := Option.some.inj hadd
    have hdst := hdeleted.entries e z hz
    have hset : RibTrue L (Rib.setEntry _ e { z with nexthop := x.nexthop, metric := x.metric }) :=
      hdeleted.setEntry hz rfl
    exact (hset.updateKernel (d := z.dst) (o := some x.nexthop) fun _ _ => hdst).of_eq rfl rfl rfl

/-- The end of a path calculation makes no routes to other destinations. -/
theorem RibTrue.updateRoutes (h : RibTrue L s) (hupd : updateRoutes env s = some s') : RibTrue L s' := by
  obtain ⟨s₁, hrib, hupd⟩ := Option.bind_eq_some_iff.1 hupd
  obtain ⟨s₂, hdel, hchg⟩ := Option.bind_eq_some_iff.1 hupd
  have h₁ : RibTrue L s₁ :=
    Run.forEach_invariant (P := RibTrue L) (fun _ _ _ _ h₁ hround => h₁.updateRibRoute hround) h hrib
  have h₂ : RibTrue L s₂ := Run.forEach_invariant (P := RibTrue L) (s := { s₁ with ops := [] })
    (fun _ _ _ _ h₁ hround => h₁.delKernelRoute hround) (h₁.of_eq rfl rfl rfl) hdel
  exact Run.forEach_invariant (P := RibTrue L) (fun _ _ _ _ h₁ hround => h₁.chgKernelRoute hround) h₂ hchg

end

/-! ## Aliases and networks -/

/-- What is true of the nodes: their main addresses, the addresses of their interfaces, and the networks they
announce. -/
structure Facts where
  node : IpAddr → Prop
  iface : IpAddr → IpAddr → Prop
  net : IpAddr → IpPrefix → Prop

/-- The destinations of the node with the main address `o`. -/
def Facts.Owns (F : Facts) (cnf : Cnf) (o : IpAddr) (d : IpPrefix) : Prop :=
  F.node o ∧ (d = hostPrefix cnf o ∨ (∃ a, F.iface o a ∧ d = hostPrefix cnf a) ∨ F.net o d)

/-- The entries of the MID set are true. -/
def MidTrue (F : Facts) (m : MidSet) : Prop := ∀ k, ∀ x ∈ m.reverseMidSet k, F.node x.2 ∧ F.iface x.2 x.1

structure Sourced (F : Facts) (cnf : Cnf) (n : Sources) : Prop where
  aliases : MidTrue F n.mid
  nets : ∀ o d, d ∈ n.hna o → F.node o ∧ F.net o d
  rib : RibTrue (F.Owns cnf) n.rib

/-- The event brings what is true. -/
def SourceEvent.Tells (F : Facts) : SourceEvent → Prop
  | .locateTcEntry adr _ => F.node adr
  | .inputMidAlias _ mainAddr _ x | .helloAlias _ mainAddr _ x => F.node mainAddr ∧ F.iface mainAddr x.aliasAddr
  | .updateHnaEntry gw net _ _ => F.node gw ∧ F.net gw net
  | _ => True

section

variable {F : Facts} {env : NodeEnv} {n n' : Sources} {m : MidSet} {o : IpAddr}

theorem MidTrue.lookup (h : MidTrue F m) {a : IpAddr} (ha : midLookupMainAddr m a = some o) : F.node o ∧
    F.iface o a := by
  obtain ⟨x, hx, rfl⟩ := Option.map_eq_some_iff.1 ha
  have hkey : x.1 = a := by simpa using List.find?_some hx
  exact hkey ▸ h _ x (List.mem_of_find?_eq_some hx)

theorem MidTrue.foldl_dequeueAlias {mainAddr : IpAddr} : ∀ {l : List IpAddr} {m : MidSet}, MidTrue F m →
    MidTrue F (l.foldl (MidSet.dequeueAlias mainAddr) m)
  | [], _, h => h
  | a :: l, m, h => by
    rw [List.foldl_cons]
    apply MidTrue.foldl_dequeueAlias
    intro k x hx
    change x ∈ Function.update m.reverseMidSet (Neighbor.olsrIpHashing a) _ k at hx
    by_cases hk : k = Neighbor.olsrIpHashing a
    · subst hk
      rw [Function.update_self] at hx
      exact h _ x (List.mem_of_mem_erase hx)
    · rw [Function.update_of_ne hk] at hx
      exact h k x hx

theorem MidTrue.register (h : MidTrue F m) {now random vtime : Nat} {a : IpAddr} (ha : F.node o ∧ F.iface o a) :
    MidTrue F (m.register now random o a vtime) := by
  intro k x hx
  have hrev : (m.register now random o a vtime).reverseMidSet =
      Function.update m.reverseMidSet (Neighbor.olsrIpHashing a)
        ((a, o) :: m.reverseMidSet (Neighbor.olsrIpHashing a)) := by
    unfold MidSet.register
    cases Neighbor.midLookupEntryBymain m o <;> rfl
  rw [hrev] at hx
  by_cases hk : k = Neighbor.olsrIpHashing a
  · subst hk
    rw [Function.update_self] at hx
    rcases List.mem_cons.1 hx with rfl | hx
    · exact ha
    · exact h _ x hx
  · rw [Function.update_of_ne hk] at hx
    exact h k x hx

theorem RibTrue.deleteAliasPaths {L : IpAddr → IpPrefix → Prop} {l : List IpAddr} {s s' : Rib} (h : RibTrue L s)
    (hdel : deleteAliasPaths env o l s = some s') : RibTrue L s' := by
  refine Run.forEach_invariant (P := RibTrue L) (fun s₁ a s₂ _ h₁ hround => ?_) h hdel
  exact h₁.stepTable hround trivial

theorem Sourced.deleteMidEntry (h : Sourced F env.cnf n) {mid : MidEntry} (hdel : deleteMidEntry env n mid = some n') :
    Sourced F env.cnf n' := by
  obtain ⟨rib, hrib, hdel⟩ := Option.bind_eq_some_iff.1 hdel
  obtain rfl := Option.some.inj hdel
  refine ⟨?_, h.nets, h.rib.deleteAliasPaths hrib⟩
  unfold olsrDeleteMidEntry
  exact h.aliases.foldl_dequeueAlias

/-- The path of an alias belongs to the node. -/
theorem RibTrue.insertAliasPath {s s' : Rib} (h : RibTrue (F.Owns env.cnf) s) {x : AliasInput}
    (hx : F.node o ∧ F.iface o x.aliasAddr) (hins : insertAliasPath env s o x = some s') :
    RibTrue (F.Owns env.cnf) s' :=
  h.stepTable hins ⟨⟨hx.1, .inr (.inl ⟨_, hx.2, rfl⟩)⟩, hx.1, .inl rfl⟩

theorem Sourced.insertMidAlias (h : Sourced F env.cnf n) {now vtime : Nat} {x : AliasInput}
    (hx : F.node o ∧ F.iface o x.aliasAddr) (hins : insertMidAlias env n now o x vtime = some n') :
    Sourced F env.cnf n' := by
  unfold Routing.insertMidAlias at hins
  split at hins
  · obtain rfl := Option.some.inj hins
    exact h
  · obtain ⟨n₁, hforget, hins⟩ := Option.bind_eq_some_iff.1 hins
    have h₁ : Sourced F env.cnf n₁ := by
      unfold forgetMainAddr at hforget
      split at hforget
      · split at hforget
        · exact h.deleteMidEntry hforget
        · obtain rfl := Option.some.inj hforget
          exact h
      · obtain rfl := Option.some.inj hforget
        exact h
    unfold insertMidTuple at hins
    split at hins
    · obtain rfl := Option.some.inj hins
      exact h₁
    · obtain ⟨rib, hrib, hins⟩ := Option.bind_eq_some_iff.1 hins
      obtain rfl := Option.some.inj hins
      exact ⟨h₁.aliases.register hx, h₁.nets, h₁.rib.insertAliasPath hx hrib⟩

theorem Sourced.updateHnaEntry (h : Sourced F env.cnf n) {net : IpPrefix} {p q : Ptr} (hnet : F.node o ∧ F.net o net)
    (hupd : olsrUpdateHnaEntry env n o net p q = some n') : Sourced F env.cnf n' := by
  obtain ⟨rib, hrib, hupd⟩ := Option.bind_eq_some_iff.1 hupd
  obtain rfl := Option.some.inj hupd
  refine ⟨h.aliases, fun gw d hd => ?_, h.rib.stepTable hrib ⟨⟨hnet.1, .inr (.inr hnet.2)⟩, hnet.1, .inl rfl⟩⟩
  dsimp only at hd
  by_cases hgw : gw = o
  · subst hgw
    rw [Function.update_self] at hd
    split at hd
    · exact h.nets gw d hd
    · rcases List.mem_cons.1 hd with rfl | hd
      · exact hnet
      · exact h.nets gw d hd
  · rw [Function.update_of_ne hgw] at hd
    exact h.nets gw d hd

theorem Sourced.deleteHnaNetEntry (h : Sourced F env.cnf n) {net : IpPrefix}
    (hdel : olsrDeleteHnaNetEntry env n o net = some n') : Sourced F env.cnf n' := by
  obtain ⟨rib, hrib, hdel⟩ := Option.bind_eq_some_iff.1 hdel
  obtain rfl := Option.some.inj hdel
  refine ⟨h.aliases, fun gw d hd => ?_, h.rib.stepTable hrib trivial⟩
  dsimp only at hd
  by_cases hgw : gw = o
  · subst hgw
    rw [Function.update_self] at hd
    exact h.nets gw d (List.mem_filter.1 hd).1
  · rw [Function.update_of_ne hgw] at hd
    exact h.nets gw d hd

theorem RibTrue.deleteTcEntry {L : IpAddr → IpPrefix → Prop} {s s' : Rib} (h : RibTrue L s)
    (hdel : olsrDeleteTcEntry env.toEnv s o = some s') : RibTrue L s' := by
  obtain ⟨s₁, hown, hdel⟩ := Option.bind_eq_some_iff.1 hdel
  obtain ⟨t, -, hdel⟩ := Option.bind_eq_some_iff.1 hdel
  obtain ⟨s₂, hloop, hdel⟩ := Option.bind_eq_some_iff.1 hdel
  obtain rfl := Option.some.inj hdel
  have h₁ : RibTrue L s₁ := by
    rcases olsrDeleteRoutingTable_cases hown with ⟨rfl, -⟩ | ⟨p, s₃, -, -, hpath, rfl⟩
    · exact h
    · exact (h.deleteRtPath hpath).of_eq rfl rfl rfl
  have h₂ : RibTrue L s₂ :=
    Run.forEach_invariant (P := RibTrue L) (fun _ _ _ _ h₁ hround => h₁.deleteRtPath hround) h₁ hloop
  exact h₂.of_eq rfl rfl rfl

/-- Every event that brings what is true leaves behind what is true. -/
theorem Sourced.step (h : Sourced F env.cnf n) {ev : SourceEvent} (hstep : stepSources env n ev = some n')
    (htells : SourceEvent.Tells F ev) : Sourced F env.cnf n' := by
  cases ev with
  | locateTcEntry adr p =>
    simp only [stepSources] at hstep
    split at hstep
    · obtain ⟨rib, hrib, rfl⟩ := Option.map_eq_some_iff.1 hstep
      exact ⟨h.aliases, h.nets, h.rib.locateTcEntry ⟨htells, .inl rfl⟩ hrib⟩
    · cases hstep
  | deleteTcEntry adr =>
    obtain ⟨rib, hrib, rfl⟩ := Option.map_eq_some_iff.1 hstep
    exact ⟨h.aliases, h.nets, h.rib.deleteTcEntry hrib⟩
  | updateMidTable now random mainAddr vtime =>
    obtain rfl := Option.some.inj hstep
    exact ⟨h.aliases, h.nets, h.rib⟩
  | inputMidAlias now mainAddr vtime x =>
    change inputMidAlias env n now mainAddr vtime x = some n' at hstep
    unfold inputMidAlias at hstep
    split at hstep
    · obtain rfl := Option.some.inj hstep
      exact h
    · split at hstep
      · exact h.insertMidAlias htells hstep
      · obtain ⟨rib, hrib, hstep⟩ := Option.bind_eq_some_iff.1 hstep
        obtain rfl := Option.some.inj hstep
        exact ⟨h.aliases, h.nets, h.rib.insertAliasPath htells hrib⟩
  | pruneAliases now mainAddr vtime declared =>
    change olsrPruneAliases env n now mainAddr vtime declared = some n' at hstep
    unfold olsrPruneAliases at hstep
    split at hstep
    · obtain rfl := Option.some.inj hstep
      exact h
    · obtain ⟨rib, hrib, hstep⟩ := Option.bind_eq_some_iff.1 hstep
      obtain rfl := Option.some.inj hstep
      exact ⟨h.aliases.foldl_dequeueAlias, h.nets, h.rib.deleteAliasPaths hrib⟩
  | helloAlias now sourceAddr vtime x =>
    change helloAlias env n now sourceAddr vtime x = some n' at hstep
    unfold helloAlias at hstep
    split at hstep
    · obtain rfl := Option.some.inj hstep
      exact h
    · split at hstep
      · exact h.insertMidAlias htells hstep
      · split at hstep
        · exact h.insertMidAlias htells hstep
        · obtain rfl := Option.some.inj hstep
          exact h
  | expireMidEntry mainAddr =>
    obtain ⟨mid, -, hdel⟩ := Option.bind_eq_some_iff.1 hstep
    exact h.deleteMidEntry hdel
  | updateHnaEntry gw net p q => exact h.updateHnaEntry htells hstep
  | expireHnaNetEntry gw net =>
    simp only [stepSources] at hstep
    split at hstep
    · exact h.deleteHnaNetEntry hstep
    · cases hstep

theorem Sourced.mono {F' : Facts} {cnf : Cnf} (h : Sourced F cnf n) (hnode : ∀ a, F.node a → F'.node a)
    (hiface : ∀ o a, F.iface o a → F'.iface o a) (hnet : ∀ o d, F.net o d → F'.net o d) : Sourced F' cnf n := by
  refine ⟨fun k x hx => ?_, fun gw d hd => ?_, h.rib.mono ?_⟩
  · exact ⟨hnode _ (h.aliases k x hx).1, hiface _ _ (h.aliases k x hx).2⟩
  · exact ⟨hnode _ (h.nets gw d hd).1, hnet _ _ (h.nets gw d hd).2⟩
  · rintro gw d ⟨hgw, hd | ⟨a, ha, hd⟩ | hd⟩
    · exact ⟨hnode _ hgw, .inl hd⟩
    · exact ⟨hnode _ hgw, .inr (.inl ⟨a, hiface _ _ ha, hd⟩)⟩
    · exact ⟨hnode _ hgw, .inr (.inr (hnet _ _ hd))⟩

theorem sourced_noSources (F : Facts) (cnf : Cnf) : Sourced F cnf noSources :=
  ⟨nofun, nofun, ⟨nofun, nofun, nofun⟩⟩

end

end Olsrd.Announce
