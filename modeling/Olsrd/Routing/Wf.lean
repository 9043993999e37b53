/-
The structure of the routing information base: a path hangs in the prefix tree of its originator and, once
it is in use, in the tree of the route entry of its prefix. The best path of an entry is one of its paths
as long as no best path is deleted, which leaves the entry's pointer to it behind.
-/
import Olsrd.Routing.Table

namespace Olsrd.Routing

open Keyed
open Olsrd.Topology (IpPrefix prefixLt maxplen olsrRtOriginInt)

variable {env : Env} {s s' : Rib}

/-! ## The invariant -/

/-- `p` is a path of the route entry `e` that `a` originates. -/
def PathOf (s : Rib) (e : Ptr) (a : IpAddr) (p : Ptr) : Prop :=
  ∃ x, s.path p = some x ∧ x.rt = some e ∧ x.originator = a

/-- `p` is a path for the prefix `d` under the entry of `a` in the link state database. -/
def PrefixPath (s : Rib) (a : IpAddr) (d : IpPrefix) (p : Ptr) : Prop :=
  ∃ x, s.path p = some x ∧ x.tc = a ∧ x.dst = d

structure RibWf (s : Rib) : Prop where
  keys : (s.routingtree.map Prod.fst).Nodup
  tree : ∀ d e, (d, e) ∈ s.routingtree → ∃ y, s.entry e = some y ∧ y.dst = d
  pathTree : ∀ e y, s.entry e = some y → Indexes y.pathTree (PathOf s e)
  rt : ∀ p x e, s.path p = some x → x.rt = some e → (x.dst, e) ∈ s.routingtree ∧ x.originator = x.tc
  prefixTree : ∀ a t, s.prefixTree a = some t → Indexes t (PrefixPath s a)
  tc : ∀ p x, s.path p = some x → (s.prefixTree x.tc).isSome

/-- The best path of an entry is one of its paths. -/
def BestOk (s : Rib) : Prop := ∀ e y b, s.entry e = some y → y.best = some b → ∃ a, PathOf s e a b

/-- A path without what a path calculation says about it. -/
def RtPath.links (x : RtPath) : Option Ptr × IpAddr × IpAddr × IpPrefix := (x.rt, x.tc, x.originator, x.dst)

/-- An entry without its best path and without what is in the kernel. -/
def RtEntry.shape (y : RtEntry) : IpPrefix × List (IpAddr × Ptr) := (y.dst, y.pathTree)

/-- The trees and the pointers between paths and entries are the same. -/
structure SameLinks (s s' : Rib) : Prop where
  path : ∀ p, (s'.path p).map RtPath.links = (s.path p).map RtPath.links
  entry : ∀ e, (s'.entry e).map RtEntry.shape = (s.entry e).map RtEntry.shape
  prefixTree : s'.prefixTree = s.prefixTree
  routingtree : s'.routingtree = s.routingtree

namespace SameLinks

theorem setPath {p : Ptr} {x x' : RtPath} (hx : s.path p = some x) (hlinks : x'.links = x.links) :
    SameLinks s (s.setPath p x') := by
  refine ⟨fun q => ?_, fun _ => rfl, rfl, rfl⟩
  by_cases hq : q = p
  · subst hq; simp [Rib.setPath, hx, hlinks]
  · simp [Rib.setPath, Function.update_of_ne hq]

theorem setEntry {e : Ptr} {y y' : RtEntry} (hy : s.entry e = some y) (hshape : y'.shape = y.shape) :
    SameLinks s (s.setEntry e y') := by
  refine ⟨fun _ => rfl, fun f => ?_, rfl, rfl⟩
  by_cases hf : f = e
  · subst hf; simp [Rib.setEntry, hy, hshape]
  · simp [Rib.setEntry, Function.update_of_ne hf]

theorem exists_path (h : SameLinks s s') {p : Ptr} {x' : RtPath} (hx : s'.path p = some x') :
    ∃ x, s.path p = some x ∧ x'.links = x.links := by
  have hp := h.path p
  rw [hx, Option.map_some, eq_comm, Option.map_eq_some_iff] at hp
  obtain ⟨x, hx, hlinks⟩ := hp
  exact ⟨x, hx, hlinks.symm⟩

theorem exists_entry (h : SameLinks s s') {e : Ptr} {y' : RtEntry} (hy : s'.entry e = some y') :
    ∃ y, s.entry e = some y ∧ y'.shape = y.shape := by
  have he := h.entry e
  rw [hy, Option.map_some, eq_comm, Option.map_eq_some_iff] at he
  obtain ⟨y, hy, hshape⟩ := he
  exact ⟨y, hy, hshape.symm⟩

theorem symm (h : SameLinks s s') : SameLinks s' s :=
  ⟨fun p => (h.path p).symm, fun e => (h.entry e).symm, h.prefixTree.symm, h.routingtree.symm⟩

theorem pathOf (h : SameLinks s s') {e : Ptr} {a : IpAddr} {p : Ptr} (hp : PathOf s e a p) : PathOf s' e a p := by
  obtain ⟨x, hx, hrt, ha⟩ := hp
  obtain ⟨x', hx', hlinks⟩ := h.symm.exists_path hx
  simp only [RtPath.links, Prod.mk.injEq] at hlinks
  exact ⟨x', hx', hlinks.1.symm.trans hrt, hlinks.2.2.1.symm.trans ha⟩

theorem prefixPath (h : SameLinks s s') {a : IpAddr} {d : IpPrefix} {p : Ptr} (hp : PrefixPath s a d p) :
    PrefixPath s' a d p := by
  obtain ⟨x, hx, ha, hd⟩ := hp
  obtain ⟨x', hx', hlinks⟩ := h.symm.exists_path hx
  simp only [RtPath.links, Prod.mk.injEq] at hlinks
  exact ⟨x', hx', hlinks.2.1.symm.trans ha, hlinks.2.2.2.symm.trans hd⟩

theorem wf (h : SameLinks s s') (hw : RibWf s) : RibWf s' where
  keys := by rw [h.routingtree]; exact hw.keys
  tree d e hd := by
    rw [h.routingtree] at hd
    obtain ⟨y, hy, rfl⟩ := hw.tree d e hd
    obtain ⟨y', hy', hshape⟩ := h.symm.exists_entry hy
    exact ⟨y', hy', (congrArg Prod.fst hshape).symm⟩
  pathTree e y' hy' := by
    obtain ⟨y, hy, hshape⟩ := h.exists_entry hy'
    rw [show y'.pathTree = y.pathTree from congrArg Prod.snd hshape]
    exact (hw.pathTree e y hy).congr fun a p => ⟨h.pathOf, h.symm.pathOf⟩
  rt p x' e hx' hrt := by
    obtain ⟨x, hx, hlinks⟩ := h.exists_path hx'
    simp only [RtPath.links, Prod.mk.injEq] at hlinks
    obtain ⟨hrt', htc, horig, hdst⟩ := hlinks
    rw [h.routingtree, hdst, horig, htc]
    exact hw.rt p x e hx (hrt'.symm.trans hrt)
  prefixTree a t ht := by
    rw [h.prefixTree] at ht
    exact (hw.prefixTree a t ht).congr fun d p => ⟨h.prefixPath, h.symm.prefixPath⟩
  tc p x' hx' := by
    obtain ⟨x, hx, hlinks⟩ := h.exists_path hx'
    rw [h.prefixTree, show x'.tc = x.tc from congrArg (fun l => l.2.1) hlinks]
    exact hw.tc p x hx

end SameLinks

namespace RibWf

theorem find_iff (h : RibWf s) {d : IpPrefix} {e : Ptr} :
    Keyed.find d s.routingtree = some e ↔ (d, e) ∈ s.routingtree :=
  Indexes.find_iff ⟨h.keys, fun _ _ => Iff.rfl⟩

theorem find_eq_none (h : RibWf s) {d : IpPrefix} : Keyed.find d s.routingtree = none ↔ ∀ e, (d, e) ∉ s.routingtree :=
  Indexes.find_eq_none ⟨h.keys, fun _ _ => Iff.rfl⟩

theorem tree_unique (h : RibWf s) {d : IpPrefix} {e f : Ptr} (he : (d, e) ∈ s.routingtree)
    (hf : (d, f) ∈ s.routingtree) : e = f :=
  Indexes.unique (P := fun d e => (d, e) ∈ s.routingtree) ⟨h.keys, fun _ _ => Iff.rfl⟩ he hf

/-- An entry is in the tree under its own prefix only. -/
theorem tree_dst (h : RibWf s) {d : IpPrefix} {e : Ptr} {y : RtEntry} (he : (d, e) ∈ s.routingtree)
    (hy : s.entry e = some y) : y.dst = d := by
  obtain ⟨y', hy', hd⟩ := h.tree d e he
  obtain rfl := Option.some.inj (hy.symm.trans hy')
  exact hd

theorem tree_key (h : RibWf s) {d d' : IpPrefix} {e : Ptr} (he : (d, e) ∈ s.routingtree)
    (he' : (d', e) ∈ s.routingtree) : d = d' := by
  obtain ⟨y, hy, rfl⟩ := h.tree d e he
  exact h.tree_dst he' hy

/-- A path in use belongs to a live entry. -/
theorem exists_entry (h : RibWf s) {p : Ptr} {x : RtPath} {e : Ptr} (hx : s.path p = some x) (hrt : x.rt = some e) :
    ∃ y, s.entry e = some y ∧ y.dst = x.dst :=
  h.tree _ _ (h.rt p x e hx hrt).1

end RibWf

/-! ## Linking and unlinking a path -/

/-- The path `p` leaves the tree of its entry `e`, whose best path may change. -/
def detached (s : Rib) (e : Ptr) (y : RtEntry) (p : Ptr) (x : RtPath) (best : Option Ptr) : Rib :=
  (s.setEntry e { y with pathTree := Keyed.erase p y.pathTree, best := best }).setPath p { x with rt := none }

section

variable {e p : Ptr} {x : RtPath} {y : RtEntry} {best : Option Ptr}

theorem path_detached_of_ne {q : Ptr} (hq : q ≠ p) : (detached s e y p x best).path q = s.path q :=
  Function.update_of_ne hq _ _

theorem path_detached_self : (detached s e y p x best).path p = some { x with rt := none } := Function.update_self _ _ _

theorem entry_detached_of_ne {f : Ptr} (hf : f ≠ e) : (detached s e y p x best).entry f = s.entry f :=
  Function.update_of_ne hf _ _

theorem entry_detached_self :
    (detached s e y p x best).entry e = some { y with pathTree := Keyed.erase p y.pathTree, best := best } :=
  Function.update_self _ _ _

theorem pathOf_detached {f : Ptr} {a : IpAddr} {q : Ptr} :
    PathOf (detached s e y p x best) f a q ↔ PathOf s f a q ∧ q ≠ p := by
  unfold PathOf
  by_cases hq : q = p
  · rw [hq, path_detached_self]; simp
  · rw [path_detached_of_ne hq]; simp [hq]

theorem prefixPath_detached (hx : s.path p = some x) {a : IpAddr} {d : IpPrefix} {q : Ptr} :
    PrefixPath (detached s e y p x best) a d q ↔ PrefixPath s a d q := by
  unfold PrefixPath
  by_cases hq : q = p
  · rw [hq, path_detached_self, hx]; simp
  · rw [path_detached_of_ne hq]

theorem RibWf.detached (h : RibWf s) (hx : s.path p = some x) (hrt : x.rt = some e) (hy : s.entry e = some y) :
    RibWf (detached s e y p x best) where
  keys := h.keys
  tree d f hf := by
    obtain ⟨z, hz, hd⟩ := h.tree d f hf
    by_cases hfe : f = e
    · subst hfe
      obtain rfl := Option.some.inj (hy.symm.trans hz)
      exact ⟨_, entry_detached_self, hd⟩
    · exact ⟨z, (entry_detached_of_ne hfe).trans hz, hd⟩
  pathTree f z hz := by
    by_cases hfe : f = e
    · subst hfe
      obtain rfl := Option.some.inj (hz.symm.trans entry_detached_self)
      exact ((h.pathTree f y hy).erase p).congr fun a q => pathOf_detached.symm
    · rw [entry_detached_of_ne hfe] at hz
      refine (h.pathTree f z hz).congr fun a q => ?_
      rw [pathOf_detached, iff_self_and]
      rintro ⟨x', hx', hrt', -⟩ rfl
      obtain rfl := Option.some.inj (hx.symm.trans hx')
      exact hfe (Option.some.inj (hrt'.symm.trans hrt))
  rt q z f hz hzrt := by
    by_cases hq : q = p
    · rw [hq, path_detached_self] at hz
      obtain rfl := Option.some.inj hz
      cases hzrt
    · rw [path_detached_of_ne hq] at hz
      exact h.rt q z f hz hzrt
  prefixTree a t ht := (h.prefixTree a t ht).congr fun d q => (prefixPath_detached hx).symm
  tc q z hz := by
    by_cases hq : q = p
    · rw [hq, path_detached_self] at hz
      obtain rfl := Option.some.inj hz
      exact h.tc p x hx
    · rw [path_detached_of_ne hq] at hz
      exact h.tc q z hz

/-- The best path of `e` is another one, or none. -/
theorem BestOk.detached (h : BestOk s) (hy : s.entry e = some y) (hbest : best ≠ some p)
    (hold : best = none ∨ best = y.best)
    (hother : ∀ f z, s.entry f = some z → z.best = some p → f = e) : BestOk (detached s e y p x best) := by
  intro f z b hz hb
  by_cases hfe : f = e
  · subst hfe
    obtain rfl := Option.some.inj (hz.symm.trans entry_detached_self)
    change best = some b at hb
    rcases hold with rfl | rfl
    · cases hb
    · obtain ⟨a, ha⟩ := h f y b hy hb
      exact ⟨a, pathOf_detached.2 ⟨ha, by rintro rfl; exact hbest hb⟩⟩
  · rw [entry_detached_of_ne hfe] at hz
    obtain ⟨a, ha⟩ := h f z b hz hb
    exact ⟨a, pathOf_detached.2 ⟨ha, by rintro rfl; exact hfe (hother f z hz hb)⟩⟩

/-- The path `p` is in the tree of `e` now. -/
def attached (env : Env) (s : Rib) (e : Ptr) (y : RtEntry) (p : Ptr) (x : RtPath) : Rib :=
  (s.setEntry e { y with pathTree := Keyed.insert env.addrLt x.tc p y.pathTree }).setPath p
    { x with rt := some e, originator := x.tc }

theorem path_attached_of_ne {q : Ptr} (hq : q ≠ p) : (attached env s e y p x).path q = s.path q :=
  Function.update_of_ne hq _ _

theorem path_attached_self : (attached env s e y p x).path p = some { x with rt := some e, originator := x.tc } :=
  Function.update_self _ _ _

theorem entry_attached_of_ne {f : Ptr} (hf : f ≠ e) : (attached env s e y p x).entry f = s.entry f :=
  Function.update_of_ne hf _ _

theorem entry_attached_self : (attached env s e y p x).entry e =
    some { y with pathTree := Keyed.insert env.addrLt x.tc p y.pathTree } :=
  Function.update_self _ _ _

theorem pathOf_attached (hx : s.path p = some x) (hrt : x.rt = none) {f : Ptr} {a : IpAddr} {q : Ptr} :
    PathOf (attached env s e y p x) f a q ↔ PathOf s f a q ∨ (f = e ∧ a = x.tc ∧ q = p) := by
  unfold PathOf
  by_cases hq : q = p
  · rw [hq, path_attached_self, hx]
    simp [hrt, eq_comm]
  · rw [path_attached_of_ne hq]
    simp [hq]

/-- No two paths of an entry have one originator. -/
theorem RibWf.no_path_of_tc (h : RibWf s) (hx : s.path p = some x) (hrt : x.rt = none) (he : (x.dst, e) ∈ s.routingtree)
    (q : Ptr) : ¬ PathOf s e x.tc q := by
  rintro ⟨z, hz, hzrt, horig⟩
  obtain ⟨hmem, htc⟩ := h.rt q z e hz hzrt
  obtain ⟨t, ht⟩ := Option.isSome_iff_exists.1 (h.tc p x hx)
  have hsame : q = p := (h.prefixTree _ t ht).unique ⟨z, hz, htc.symm.trans horig, h.tree_key hmem he⟩ ⟨x, hx, rfl, rfl⟩
  subst hsame
  obtain rfl := Option.some.inj (hz.symm.trans hx)
  rw [hrt] at hzrt
  cases hzrt

theorem RibWf.attached (h : RibWf s) (hx : s.path p = some x) (hrt : x.rt = none) (he : (x.dst, e) ∈ s.routingtree)
    (hy : s.entry e = some y) : RibWf (attached env s e y p x) where
  keys := h.keys
  tree d f hf := by
    obtain ⟨z, hz, hd⟩ := h.tree d f hf
    by_cases hfe : f = e
    · subst hfe
      obtain rfl := Option.some.inj (hy.symm.trans hz)
      exact ⟨_, entry_attached_self, hd⟩
    · exact ⟨z, (entry_attached_of_ne hfe).trans hz, hd⟩
  pathTree f z hz := by
    by_cases hfe : f = e
    · subst hfe
      obtain rfl := Option.some.inj (hz.symm.trans entry_attached_self)
      refine ((h.pathTree f y hy).insert env.addrLt (h.no_path_of_tc hx hrt he)).congr fun a q => ?_
      rw [pathOf_attached hx hrt]
      simp
    · rw [entry_attached_of_ne hfe] at hz
      refine (h.pathTree f z hz).congr fun a q => ?_
      rw [pathOf_attached hx hrt]
      simp [hfe]
  rt q z f hz hzrt := by
    by_cases hq : q = p
    · rw [hq, path_attached_self] at hz
      obtain rfl := Option.some.inj hz
      obtain rfl := Option.some.inj hzrt
      exact ⟨he, rfl⟩
    · rw [path_attached_of_ne hq] at hz
      exact h.rt q z f hz hzrt
  prefixTree a t ht := by
    refine (h.prefixTree a t ht).congr fun d q => ?_
    unfold PrefixPath
    by_cases hq : q = p
    · rw [hq, path_attached_self, hx]; simp
    · rw [path_attached_of_ne hq]
  tc q z hz := by
    by_cases hq : q = p
    · rw [hq, path_attached_self] at hz
      obtain rfl := Option.some.inj hz
      exact h.tc p x hx
    · rw [path_attached_of_ne hq] at hz
      exact h.tc q z hz

theorem BestOk.attached (h : BestOk s) (hx : s.path p = some x) (hrt : x.rt = none) (hy : s.entry e = some y) :
    BestOk (attached env s e y p x) := by
  intro f z b hz hb
  by_cases hfe : f = e
  · subst hfe
    obtain rfl := Option.some.inj (hz.symm.trans entry_attached_self)
    obtain ⟨a, ha⟩ := h f y b hy hb
    exact ⟨a, (pathOf_attached hx hrt).2 (.inl ha)⟩
  · rw [entry_attached_of_ne hfe] at hz
    obtain ⟨a, ha⟩ := h f z b hz hb
    exact ⟨a, (pathOf_attached hx hrt).2 (.inl ha)⟩

end

/-! ## Paths and entries that come and go -/

section

variable {p : Ptr} {x : RtPath} {a : IpAddr} {t : List (IpPrefix × Ptr)}

/-- The path `p`, which is not in use, is freed. -/
def freed (s : Rib) (p : Ptr) (a : IpAddr) (t : List (IpPrefix × Ptr)) : Rib :=
  { s.setPrefixTree a (Keyed.erase p t) with path := Function.update s.path p none }

theorem exists_path_freed {q : Ptr} {z : RtPath} : (freed s p a t).path q = some z ↔ s.path q = some z ∧ q ≠ p := by
  show Function.update s.path p none q = some z ↔ _
  by_cases hq : q = p
  · subst hq; simp
  · simp [hq]

theorem pathOf_freed {f : Ptr} {b : IpAddr} {q : Ptr} : PathOf (freed s p a t) f b q ↔ PathOf s f b q ∧ q ≠ p := by
  unfold PathOf
  simp only [exists_path_freed]
  tauto

theorem prefixPath_freed {b : IpAddr} {d : IpPrefix} {q : Ptr} :
    PrefixPath (freed s p a t) b d q ↔ PrefixPath s b d q ∧ q ≠ p := by
  unfold PrefixPath
  simp only [exists_path_freed]
  tauto

theorem isSome_prefixTree_set {b : IpAddr} (ha : s.prefixTree a = some t) (t' : List (IpPrefix × Ptr)) :
    ((s.setPrefixTree a t').prefixTree b).isSome ↔ (s.prefixTree b).isSome := by
  show (Function.update s.prefixTree a (some t') b).isSome ↔ _
  by_cases hb : b = a
  · subst hb; simp [ha]
  · rw [Function.update_of_ne hb]

theorem RibWf.freed (h : RibWf s) (hx : s.path p = some x) (hrt : x.rt = none) (ht : s.prefixTree x.tc = some t) :
    RibWf (freed s p x.tc t) where
  keys := h.keys
  tree := h.tree
  pathTree f z hz := by
    refine (h.pathTree f z hz).congr fun b q => ?_
    rw [pathOf_freed, iff_self_and]
    rintro ⟨x', hx', hrt', -⟩ rfl
    obtain rfl := Option.some.inj (hx.symm.trans hx')
    rw [hrt] at hrt'
    cases hrt'
  rt q z f hz hzrt := h.rt q z f (exists_path_freed.1 hz).1 hzrt
  prefixTree b t' ht' := by
    change Function.update s.prefixTree x.tc _ b = some t' at ht'
    by_cases hb : b = x.tc
    · subst hb
      rw [Function.update_self] at ht'
      obtain rfl := Option.some.inj ht'
      exact ((h.prefixTree _ t ht).erase p).congr fun d q => prefixPath_freed.symm
    · rw [Function.update_of_ne hb] at ht'
      refine (h.prefixTree b t' ht').congr fun d q => ?_
      rw [prefixPath_freed, iff_self_and]
      rintro ⟨x', hx', hb', -⟩ rfl
      obtain rfl := Option.some.inj (hx.symm.trans hx')
      exact hb hb'.symm
  tc q z hz := (isSome_prefixTree_set ht _).2 (h.tc q z (exists_path_freed.1 hz).1)

theorem BestOk.freed (h : BestOk s) (hx : s.path p = some x) (hrt : x.rt = none) : BestOk (freed s p a t) := by
  intro f z b hz hb
  obtain ⟨c, hc⟩ := h f z b hz hb
  refine ⟨c, pathOf_freed.2 ⟨hc, ?_⟩⟩
  rintro rfl
  obtain ⟨x', hx', hrt', -⟩ := hc
  obtain rfl := Option.some.inj (hx.symm.trans hx')
  rw [hrt] at hrt'
  cases hrt'

/-- A path in the block `p`, which was free. -/
theorem exists_path_alloc {d : IpPrefix} {origin : Nat} {q : Ptr} {z : RtPath} (hp : s.path p = none) :
    (olsrAllocRtPath env s a t d origin p).path q = some z ↔ s.path q = some z ∨ (q = p ∧
      z = { rt := none, tc := a, nexthop := ⟨env.zeroAddr, 0⟩, metric := ⟨0, 0⟩, originator := env.zeroAddr, dst := d,
            version := 0, origin := origin }) := by
  show Function.update s.path p _ q = some z ↔ _
  by_cases hq : q = p
  · subst hq; simp [hp, eq_comm]
  · simp [hq]

theorem pathOf_alloc {d : IpPrefix} {origin : Nat} (hp : s.path p = none) {f : Ptr} {b : IpAddr} {q : Ptr} :
    PathOf (olsrAllocRtPath env s a t d origin p) f b q ↔ PathOf s f b q := by
  unfold PathOf
  simp only [exists_path_alloc hp]
  constructor
  · rintro ⟨z, hz | ⟨-, rfl⟩, hrt, hb⟩
    · exact ⟨z, hz, hrt, hb⟩
    · cases hrt
  · rintro ⟨z, hz, hrt, hb⟩
    exact ⟨z, .inl hz, hrt, hb⟩

theorem prefixPath_alloc {d : IpPrefix} {origin : Nat} (hp : s.path p = none) {b : IpAddr} {d' : IpPrefix} {q : Ptr} :
    PrefixPath (olsrAllocRtPath env s a t d origin p) b d' q ↔ PrefixPath s b d' q ∨ (b = a ∧ d' = d ∧ q = p) := by
  unfold PrefixPath
  simp only [exists_path_alloc hp]
  constructor
  · rintro ⟨z, hz | ⟨rfl, rfl⟩, hb, hd⟩
    · exact .inl ⟨z, hz, hb, hd⟩
    · exact .inr ⟨hb.symm, hd.symm, rfl⟩
  · rintro (⟨z, hz, hb, hd⟩ | ⟨rfl, rfl, rfl⟩)
    · exact ⟨z, .inl hz, hb, hd⟩
    · exact ⟨_, .inr ⟨rfl, rfl⟩, rfl, rfl⟩

theorem RibWf.alloc (h : RibWf s) {d : IpPrefix} (origin : Nat) (hp : s.path p = none) (ht : s.prefixTree a = some t)
    (hno : Keyed.find d t = none) : RibWf (olsrAllocRtPath env s a t d origin p) where
  keys := h.keys
  tree := h.tree
  pathTree f z hz := (h.pathTree f z hz).congr fun b q => (pathOf_alloc hp).symm
  rt q z f hz hzrt := by
    rcases (exists_path_alloc hp).1 hz with hz | ⟨-, rfl⟩
    · exact h.rt q z f hz hzrt
    · cases hzrt
  prefixTree b t' ht' := by
    change Function.update s.prefixTree a _ b = some t' at ht'
    by_cases hb : b = a
    · subst hb
      rw [Function.update_self] at ht'
      obtain rfl := Option.some.inj ht'
      refine ((h.prefixTree b t ht).insert prefixLt ((h.prefixTree b t ht).find_eq_none.1 hno)).congr fun d' q => ?_
      rw [prefixPath_alloc hp]
      simp
    · rw [Function.update_of_ne hb] at ht'
      refine (h.prefixTree b t' ht').congr fun d' q => ?_
      rw [prefixPath_alloc hp]
      simp [hb]
  tc q z hz := by
    refine (isSome_prefixTree_set ht _).2 ?_
    rcases (exists_path_alloc hp).1 hz with hz | ⟨-, rfl⟩
    · exact h.tc q z hz
    · show (s.prefixTree a).isSome
      rw [ht]; rfl

theorem BestOk.alloc (h : BestOk s) {d : IpPrefix} (origin : Nat) (hp : s.path p = none) :
    BestOk (olsrAllocRtPath env s a t d origin p) := by
  intro f z b hz hb
  obtain ⟨c, hc⟩ := h f z b hz hb
  exact ⟨c, (pathOf_alloc hp).2 hc⟩

/-- A new entry of the link state database has no prefixes yet. -/
theorem RibWf.newTc (h : RibWf s) (ha : s.prefixTree a = none) : RibWf (s.setPrefixTree a []) where
  keys := h.keys
  tree := h.tree
  pathTree := h.pathTree
  rt := h.rt
  prefixTree b t' ht' := by
    change Function.update s.prefixTree a _ b = some t' at ht'
    by_cases hb : b = a
    · subst hb
      rw [Function.update_self] at ht'
      obtain rfl := Option.some.inj ht'
      refine indexes_nil fun d q => ?_
      rintro ⟨z, hz, rfl, -⟩
      have hsome := h.tc q z hz
      rw [ha] at hsome
      cases hsome
    · rw [Function.update_of_ne hb] at ht'
      exact h.prefixTree b t' ht'
  tc q z hz := by
    show (Function.update s.prefixTree a _ z.tc).isSome
    by_cases hb : z.tc = a
    · rw [hb, Function.update_self]; rfl
    · rw [Function.update_of_ne hb]; exact h.tc q z hz

/-- An entry of the link state database without prefixes goes. -/
theorem RibWf.dropTc (h : RibWf s) (ha : s.prefixTree a = some []) :
    RibWf { s with prefixTree := Function.update s.prefixTree a none } where
  keys := h.keys
  tree := h.tree
  pathTree := h.pathTree
  rt := h.rt
  prefixTree b t' ht' := by
    change Function.update s.prefixTree a none b = some t' at ht'
    by_cases hb : b = a
    · rw [hb, Function.update_self] at ht'; cases ht'
    · rw [Function.update_of_ne hb] at ht'
      exact h.prefixTree b t' ht'
  tc q z hz := by
    show (Function.update s.prefixTree a none z.tc).isSome
    by_cases hb : z.tc = a
    · have hmem := ((h.prefixTree a [] ha).mem z.dst q).2 ⟨z, hz, hb, rfl⟩
      cases hmem
    · rw [Function.update_of_ne hb]; exact h.tc q z hz

end

/-- An entry in the block `e`, which was free. -/
theorem RibWf.allocEntry (h : RibWf s) {d : IpPrefix} {e : Ptr} (he : s.entry e = none)
    (hno : ∀ f, (d, f) ∉ s.routingtree) : RibWf (olsrAllocRtEntry env s d e) where
  keys := (Indexes.insert (P := fun d e => (d, e) ∈ s.routingtree) ⟨h.keys, fun _ _ => Iff.rfl⟩ prefixLt hno).keys
  tree d' f hf := by
    show ∃ y, Function.update s.entry e _ f = some y ∧ y.dst = d'
    rcases mem_insert.1 hf with heq | hf
    · obtain ⟨rfl, rfl⟩ := Prod.mk.inj heq
      exact ⟨_, Function.update_self _ _ _, rfl⟩
    · obtain ⟨y, hy, hd⟩ := h.tree d' f hf
      have hne : f ≠ e := by rintro rfl; rw [he] at hy; cases hy
      exact ⟨y, by rw [Function.update_of_ne hne]; exact hy, hd⟩
  pathTree f z hz := by
    change Function.update s.entry e _ f = some z at hz
    by_cases hf : f = e
    · subst hf
      rw [Function.update_self] at hz
      obtain rfl := Option.some.inj hz
      refine indexes_nil fun a q => ?_
      rintro ⟨x, hx, hrt, -⟩
      obtain ⟨y, hy, -⟩ := h.exists_entry hx hrt
      rw [he] at hy
      cases hy
    · rw [Function.update_of_ne hf] at hz
      exact h.pathTree f z hz
  rt q z f hz hzrt := by
    obtain ⟨hmem, htc⟩ := h.rt q z f hz hzrt
    exact ⟨mem_insert.2 (.inr hmem), htc⟩
  prefixTree := h.prefixTree
  tc := h.tc

theorem BestOk.allocEntry (h : BestOk s) {d : IpPrefix} {e : Ptr} : BestOk (olsrAllocRtEntry env s d e) := by
  intro f z b hz hb
  change Function.update s.entry e _ f = some z at hz
  by_cases hf : f = e
  · rw [hf, Function.update_self] at hz
    obtain rfl := Option.some.inj hz
    cases hb
  · rw [Function.update_of_ne hf] at hz
    exact h f z b hz hb

/-- An entry without paths leaves the routing tree. -/
theorem RibWf.flush (h : RibWf s) {e : Ptr} {y : RtEntry} (hy : s.entry e = some y) (hnil : y.pathTree = []) :
    RibWf { s with routingtree := Keyed.erase e s.routingtree } where
  keys := h.keys.sublist (List.filter_sublist.map Prod.fst)
  tree d f hf := h.tree d f (mem_erase.1 hf).1
  pathTree := h.pathTree
  rt q z f hz hzrt := by
    obtain ⟨hmem, htc⟩ := h.rt q z f hz hzrt
    refine ⟨mem_erase.2 ⟨hmem, ?_⟩, htc⟩
    rintro rfl
    have hin := ((h.pathTree _ y hy).mem z.originator q).2 ⟨z, hz, hzrt, rfl⟩
    rw [hnil] at hin
    cases hin
  prefixTree := h.prefixTree
  tc := h.tc

/-- Entries that are not in the routing tree go, the others keep their paths. -/
theorem RibWf.ofEntries (h : RibWf s) (hpath : s'.path = s.path) (hprefixes : s'.prefixTree = s.prefixTree)
    (htree : s'.routingtree = s.routingtree)
    (hentry : ∀ e y', s'.entry e = some y' → ∃ y, s.entry e = some y ∧ y'.shape = y.shape)
    (hlive : ∀ d e, (d, e) ∈ s.routingtree → (s'.entry e).isSome) : RibWf s' where
  keys := by rw [htree]; exact h.keys
  tree d e hd := by
    rw [htree] at hd
    obtain ⟨y', hy'⟩ := Option.isSome_iff_exists.1 (hlive d e hd)
    obtain ⟨y, hy, hshape⟩ := hentry e y' hy'
    exact ⟨y', hy', (congrArg Prod.fst hshape).trans (h.tree_dst hd hy)⟩
  pathTree e y' hy' := by
    obtain ⟨y, hy, hshape⟩ := hentry e y' hy'
    rw [show y'.pathTree = y.pathTree from congrArg Prod.snd hshape]
    exact (h.pathTree e y hy).congr fun a p => by unfold PathOf; rw [hpath]
  rt p x e hx hrt := by
    rw [hpath] at hx
    rw [htree]
    exact h.rt p x e hx hrt
  prefixTree a t ht := by
    rw [hprefixes] at ht
    exact (h.prefixTree a t ht).congr fun d p => by unfold PrefixPath; rw [hpath]
  tc p x hx := by
    rw [hpath] at hx
    rw [hprefixes]
    exact h.tc p x hx

end Olsrd.Routing
