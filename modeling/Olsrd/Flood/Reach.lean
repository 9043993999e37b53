/-
A flood reaches everyone. If the relays of each node cover its two hop neighbours, the links lose no copy and the time
to live lasts, then in the end every node that links lead to has had the message, whatever the order in which its copies
come in and whatever else goes on.
-/
import Olsrd.Flood.Bound
import Olsrd.Lib.Flooding

namespace Olsrd.Flood

/-! ## One interface -/

/-- A mesh interface whose buffer can take a message of the size. -/
structure Roomy (size : Nat) (ifn : Interface) : Prop where
  mesh : ifn.ether = false
  room : size ≤ ifn.maxsize
  bounded : ifn.pending ≤ ifn.maxsize
  small : ifn.maxsize < 65536

section

variable {size size' : Nat} {ifn : Interface} {sameIf isTtl1 : Bool}

theorem Roomy.push (h : Roomy size ifn) : Roomy size (netOutbufferPush ifn size').1 := by
  unfold netOutbufferPush
  split
  · exact h
  · next hfits => exact ⟨h.mesh, h.room, Nat.le_of_not_lt hfits, h.small⟩

theorem Roomy.output (h : Roomy size ifn) : Roomy size (netOutput ifn) := ⟨h.mesh, h.room, Nat.zero_le _, h.small⟩

theorem Roomy.forwardOn (h : Roomy size ifn) : Roomy size (forwardOn ifn sameIf isTtl1 size') := by
  have hzero : Roomy size { ifn with copies := 0 } := ⟨h.mesh, h.room, h.bounded, h.small⟩
  unfold Flood.forwardOn
  dsimp only
  split_ifs
  · exact hzero
  · exact hzero
  · exact hzero.push.output.push
  · exact hzero.push
  · exact hzero.push

theorem netOutbufferPush_fits (ifn : Interface) (h : ifn.pending + size ≤ ifn.maxsize) :
    (netOutbufferPush ifn size).1.copies = ifn.copies + 1 ∧ (netOutbufferPush ifn size).2 = size := by
  unfold netOutbufferPush
  rw [if_neg (Nat.not_lt.2 h)]
  exact ⟨rfl, rfl⟩

/-- A message that is not at the end of its life goes out: what is pending makes room for it. -/
theorem Roomy.copies_forwardOn (h : Roomy size ifn) : (Flood.forwardOn ifn sameIf false size).copies = 1 := by
  have hsame : ¬(sameIf && ifn.ether) = true := by rw [h.mesh, Bool.and_false]; exact Bool.false_ne_true
  unfold Flood.forwardOn
  dsimp only
  rw [if_neg hsame, Bool.false_and, if_neg Bool.false_ne_true]
  by_cases hpending : netOutputPending { ifn with copies := 0 } = 0
  · rw [if_neg (not_not.2 hpending)]
    have hzero : ifn.pending = 0 := by
      have hmod := congrArg UInt16.toNat hpending
      unfold netOutputPending at hmod
      rw [UInt16.toNat_ofNat'] at hmod
      rw [← Nat.mod_eq_of_lt (lt_of_le_of_lt h.bounded h.small)]
      exact hmod
    have hfits : ifn.pending + size ≤ ifn.maxsize := by
      have := h.room
      omega
    exact (netOutbufferPush_fits { ifn with copies := 0 } hfits).1
  · rw [if_pos hpending]
    by_cases hfits : ifn.pending + size ≤ ifn.maxsize
    · have hpush := netOutbufferPush_fits { ifn with copies := 0 } hfits
      rw [if_neg (not_not.2 hpush.2), hpush.1]
    · have hrefused : netOutbufferPush { ifn with copies := 0 } size = ({ ifn with copies := 0 }, 0) :=
        if_pos (Nat.lt_of_not_le hfits)
      have hne : (0 : Nat) ≠ size := by
        rintro rfl
        exact hfits h.bounded
      rw [hrefused, if_pos hne]
      have hroom : 0 + size ≤ ifn.maxsize := by
        rw [Nat.zero_add]
        exact h.room
      exact (netOutbufferPush_fits (netOutput { ifn with copies := 0 }) hroom).1

end

/-! ## The mesh -/

section

variable {V : Type} (mesh : Mesh V) (radio : V → Nat → Bool) (relay : V → V → Prop)

/-- A node hears another on one of the mesh interfaces of that one. -/
def Mesh.Link (u v : V) : Prop := ∃ i h, radio u i = true ∧ h ∈ mesh.hearers u i ∧ h.node = v

/-- A node is in a state in which its mesh interfaces can take the message, and it forwards for those whose relay it
is. -/
structure Calm (size : Nat) (v : V) (w : World) : Prop where
  room : ∀ i, radio v i = true → mesh.hearers v i ≠ [] → ∃ ifn, w.ifnet[i]? = some ifn ∧ Roomy size ifn
  relays : ∀ u i h, radio u i = true → h ∈ mesh.hearers u i → h.node = v → relay u v →
    forwardsFor w h.fromAddr = true

/-- No copy of the message is lost, the parse functions do not stop it where it has to go on, and the nodes stay
calm. -/
def Faithful (m : Message) (net : Net V) : NetEvent V → Prop
  | .deliver k forward => ∀ c, net.flight[k]? = some c → Is m.originator m.number c.message →
      forwardsFor (net.node c.hearer.node).world c.hearer.fromAddr = true → forward = true
  | .lose k => ∀ c, net.flight[k]? = some c → ¬Is m.originator m.number c.message
  | .world v w => Calm mesh radio relay m.msgsize.toNat v w
  | _ => True

variable [DecidableEq V]

/-- What every copy of the message has led to so far. -/
structure Covered (root : V) (ifs : List Nat) (m : Message) (net : Net V) : Prop where
  spread : Spread root m net
  calm : ∀ v, Calm mesh radio relay m.msgsize.toNat v (net.node v).world
  put : ∀ u i h, 0 < count m.originator m.number u net.sent → radio u i = true → (u = root → i ∈ ifs) →
    h ∈ mesh.hearers u i → ∃ c, (c ∈ net.flight ∨ c ∈ net.arrived) ∧ c.hearer = h ∧ Is m.originator m.number c.message
  answered : ∀ c ∈ net.arrived, Is m.originator m.number c.message → c.hearer.node ≠ root → ∀ u i, radio u i = true →
    c.hearer ∈ mesh.hearers u i → relay u c.hearer.node → 0 < count m.originator m.number c.hearer.node net.sent
  heard : ∀ v, 0 < count m.originator m.number v net.sent → v = root ∨
    ∃ c ∈ net.arrived, c.hearer.node = v ∧ Is m.originator m.number c.message

end

section

variable {V : Type} [DecidableEq V] {mesh : Mesh V} {radio : V → Nat → Bool} {relay : V → V → Prop}
  {net net' : Net V} {root v : V} {ifs : List Nat} {m : Message} {c : Copy V}

omit [DecidableEq V] in
theorem getElem?_loaded {i : Nat} {ifn : Interface} (h : (net.node c.hearer.node).world.ifnet[i]? = some ifn) :
    (net.loaded c)[i]? =
      some (forwardOn ifn (i == c.hearer.inIf) (isTtl1 c.message) c.message.msgsize.toNat) := by
  unfold Net.loaded
  rw [List.getElem?_mapIdx, h, Option.map_some]

omit [DecidableEq V] in
/-- Only the interfaces of a node have changed, and they stay roomy. -/
theorem Calm.loaded {size : Nat} (h : Calm mesh radio relay size c.hearer.node (net.node c.hearer.node).world) :
    Calm mesh radio relay size c.hearer.node { (net.node c.hearer.node).world with ifnet := net.loaded c } := by
  constructor
  · intro i hradio hhearers
    obtain ⟨ifn, hifn, hroomy⟩ := h.room i hradio hhearers
    exact ⟨_, getElem?_loaded hifn, hroomy.forwardOn⟩
  · exact h.relays

omit [DecidableEq V] in
/-- A message that is not at the end of its life goes out of every mesh interface. -/
theorem mem_copies_of_calm (net : Net V) {i : Nat} {h : Hearer V} {m' : Message}
    (hcalm : Calm mesh radio relay c.message.msgsize.toNat c.hearer.node (net.node c.hearer.node).world)
    (hradio : radio c.hearer.node i = true) (hh : h ∈ mesh.hearers c.hearer.node i) (hlive : isTtl1 c.message = false) :
    (⟨h, m'⟩ : Copy V) ∈ mesh.copies c.hearer.node (net.loaded c) m' := by
  obtain ⟨ifn, hifn, hroomy⟩ := hcalm.room i hradio (List.ne_nil_of_mem hh)
  refine mem_copies.2 ⟨i, _, getElem?_loaded hifn, ?_, hh, rfl⟩
  rw [hlive, hroomy.copies_forwardOn]
  exact Nat.one_ne_zero

omit [DecidableEq V] in
theorem calm_update {size : Nat} {nd : Node} (hall : ∀ u, Calm mesh radio relay size u (net.node u).world)
    (h : Calm mesh radio relay size v nd.world) [DecidableEq V] (u : V) :
    Calm mesh radio relay size u (Function.update net.node v nd u).world := by
  by_cases huv : u = v
  · subst huv
    rw [Function.update_self]
    exact h
  · rw [Function.update_of_ne huv]
    exact hall u

omit [DecidableEq V] in
theorem calm_duplicate {size : Nat} {set : DuplicateSet} (hall : ∀ u, Calm mesh radio relay size u (net.node u).world)
    [DecidableEq V] (u : V) :
    Calm mesh radio relay size u (Function.update net.node v { net.node v with duplicateSet := set } u).world := by
  apply calm_update hall
  exact hall v

/-- A step in which no copy of the message is put out, lost or comes in. -/
theorem Covered.frame (h : Covered mesh radio relay root ifs m net) (hspread : Spread root m net')
    (hcalm : ∀ v, Calm mesh radio relay m.msgsize.toNat v (net'.node v).world)
    (hsent : ∀ v, count m.originator m.number v net'.sent = count m.originator m.number v net.sent)
    (hflight : ∀ c ∈ net.flight, Is m.originator m.number c.message → c ∈ net'.flight)
    (harrived : ∀ c, Is m.originator m.number c.message → (c ∈ net'.arrived ↔ c ∈ net.arrived)) :
    Covered mesh radio relay root ifs m net' := by
  constructor
  · exact hspread
  · exact hcalm
  · intro u i x hu hradio hroot hx
    rw [hsent] at hu
    obtain ⟨c, hc, hcx, his⟩ := h.put u i x hu hradio hroot hx
    refine ⟨c, ?_, hcx, his⟩
    rcases hc with hc | hc
    · exact .inl (hflight c hc his)
    · exact .inr ((harrived c his).2 hc)
  · intro c hc his hne u i hradio hx hrelay
    rw [hsent]
    exact h.answered c ((harrived c his).1 hc) his hne u i hradio hx hrelay
  · intro v hv
    rw [hsent] at hv
    exact (h.heard v hv).imp_right fun ⟨c, hc, hcv, his⟩ => ⟨c, (harrived c his).2 hc, hcv, his⟩

/-! ## A copy of the message comes in -/

omit [DecidableEq V] in
/-- A copy that has not made too many hops is not at the end of its life. -/
theorem isTtl1_travelled [Fintype V] {hops : Nat} {m' : Message} (h : Travelled m hops m')
    (hhops : hops + 1 < 2 * Fintype.card V) (httl : 2 * Fintype.card V ≤ m.ttl.toNat + 1)
    (hsum : m.hopcnt.toNat + m.ttl.toNat ≤ 255) : isTtl1 m' = false := by
  obtain ⟨d, hd, hleft, hmade, -⟩ := h
  unfold isTtl1
  rw [Bool.or_eq_false_iff, decide_eq_false_iff_not, decide_eq_false_iff_not]
  constructor
  · omega
  · omega

/-- A copy of the message comes in, and perhaps the node relays it. -/
theorem Covered.come (h : Covered mesh radio relay root ifs m net) (hspread : Spread root m net')
    (hcalm : ∀ v, Calm mesh radio relay m.msgsize.toNat v (net'.node v).world)
    (his : Is m.originator m.number c.message)
    (hcount : ∀ u, count m.originator m.number u net.sent ≤ count m.originator m.number u net'.sent)
    (hflight : ∀ c' ∈ net.flight, c' = c ∨ c' ∈ net'.flight) (harrived : net'.arrived = c :: net.arrived)
    (hnew : ∀ u, count m.originator m.number u net'.sent ≠ count m.originator m.number u net.sent → u = c.hearer.node ∧
      ∀ i x, radio u i = true → x ∈ mesh.hearers u i →
        ∃ c' ∈ net'.flight, c'.hearer = x ∧ Is m.originator m.number c'.message)
    (hanswer : c.hearer.node ≠ root → ∀ u i, radio u i = true → c.hearer ∈ mesh.hearers u i → relay u c.hearer.node →
      0 < count m.originator m.number c.hearer.node net'.sent) : Covered mesh radio relay root ifs m net' := by
  constructor
  · exact hspread
  · exact hcalm
  · intro u i x hu hradio hroot hx
    by_cases hsame : count m.originator m.number u net'.sent = count m.originator m.number u net.sent
    · obtain ⟨c', hc', hcx, his'⟩ := h.put u i x (hsame ▸ hu) hradio hroot hx
      refine ⟨c', ?_, hcx, his'⟩
      rw [harrived]
      rcases hc' with hc' | hc'
      · rcases hflight c' hc' with rfl | hc'
        · exact .inr (List.mem_cons_self ..)
        · exact .inl hc'
      · exact .inr (List.mem_cons_of_mem _ hc')
    · obtain ⟨c', hc', hcx, his'⟩ := (hnew u hsame).2 i x hradio hx
      exact ⟨c', .inl hc', hcx, his'⟩
  · intro c' hc' his' hne u i hradio hx hrelay
    rw [harrived] at hc'
    rcases List.mem_cons.1 hc' with rfl | hc'
    · exact hanswer hne u i hradio hx hrelay
    · exact lt_of_lt_of_le (h.answered c' hc' his' hne u i hradio hx hrelay) (hcount _)
  · intro v hv
    rw [harrived]
    by_cases hsame : count m.originator m.number v net'.sent = count m.originator m.number v net.sent
    · exact (h.heard v (hsame ▸ hv)).imp_right fun ⟨c', hc', hcv, his'⟩ =>
        ⟨c', List.mem_cons_of_mem _ hc', hcv, his'⟩
    · exact .inr ⟨c, List.mem_cons_self .., (hnew v hsame).1.symm, his⟩

/-- A copy of another message comes in. -/
theorem Covered.pass (h : Covered mesh radio relay root ifs m net) (hspread : Spread root m net')
    (hother : ¬Is m.originator m.number c.message) {flight : List (Copy V)}
    (hflight : ∀ c' ∈ net.flight, Is m.originator m.number c'.message → c' ∈ flight) {forward : Bool}
    (hreceived : Received mesh { net with flight := flight } c forward net') :
    Covered mesh radio relay root ifs m net' := by
  have harrived : ∀ c' : Copy V, Is m.originator m.number c'.message → (c' ∈ c :: net.arrived ↔ c' ∈ net.arrived) := by
    intro c' his'
    rw [List.mem_cons]
    refine ⟨fun hc' => hc'.resolve_left ?_, .inr⟩
    rintro rfl
    exact hother his'
  cases hreceived with
  | ignored => exact h.frame hspread h.calm (fun _ => rfl) hflight harrived
  | duplicate => exact h.frame hspread (calm_duplicate h.calm) (fun _ => rfl) hflight harrived
  | relayed =>
    refine h.frame hspread (calm_update h.calm (Calm.loaded (h.calm c.hearer.node))) (fun v => ?_)
      (fun c' hc' his' => List.mem_append_left _ (hflight c' hc' his')) harrived
    rw [count_cons, if_neg fun hx => hother (is_relayedMessage.1 hx.2)]
    rfl

/-- A copy of the message comes in. -/
theorem Covered.receive [Fintype V] (h : Covered mesh radio relay root ifs m net) (hspread : Spread root m net')
    (httl : 2 * Fintype.card V ≤ m.ttl.toNat + 1) (hsum : m.hopcnt.toNat + m.ttl.toNat ≤ 255)
    (hothers : ∀ v, v ≠ root → dropsOriginator (mesh.cnf v) m.originator = false)
    (his : Is m.originator m.number c.message) (hc : c ∈ net.flight) {flight : List (Copy V)}
    (hflight : ∀ c' ∈ net.flight, c' = c ∨ c' ∈ flight) {forward : Bool}
    (hforward : forwardsFor (net.node c.hearer.node).world c.hearer.fromAddr = true → forward = true)
    (hreceived : Received mesh { net with flight := flight } c forward net') :
    Covered mesh radio relay root ifs m net' := by
  cases hreceived with
  | ignored hignored =>
    refine h.come hspread h.calm his (fun _ => le_rfl) hflight rfl (fun u hu => absurd rfl hu) ?_
    intro hne u i hradio hx hrelay
    have hfor := (h.calm c.hearer.node).relays u i c.hearer hradio hx rfl hrelay
    rcases hignored with hdrop | hstop | hno
    · rw [his.1, hothers _ hne] at hdrop
      cases hdrop
    · rw [hforward hfor] at hstop
      cases hstop
    · exact absurd (hfor.symm.trans hno) (by decide)
  | duplicate hdrop hdup =>
    refine h.come hspread (calm_duplicate h.calm) his (fun _ => le_rfl) hflight rfl
      (fun u hu => absurd rfl hu) ?_
    intro hne _ _ _ _ _
    -- a node that has not relayed the message lets it through
    refine Nat.pos_of_ne_zero fun hzero => ?_
    have hstage := h.spread.stage _ hne
    rw [← his.1, ← his.2] at hstage
    obtain ⟨-, hnew⟩ := hstage.self (t := (net.node c.hearer.node).world.nowTimes)
    exact absurd (hdup.symm.trans (hnew (by rw [his.1, his.2]; exact hzero))) (by decide)
  | relayed hdrop hdup =>
    have hsent : Is m.originator m.number (relayedMessage c.message) := is_relayedMessage.2 his
    have hcalm := h.calm c.hearer.node
    have htravelled := h.spread.travelled c hc his
    have hsize : c.message.msgsize = m.msgsize := by
      obtain ⟨_, _, _, _, hsize⟩ := htravelled
      exact hsize
    have htotal := hspread.total_lt
    rw [total_cons, if_pos hsent] at htotal
    have hlive : isTtl1 c.message = false := isTtl1_travelled htravelled htotal httl hsum
    rw [← hsize] at hcalm
    refine h.come hspread (calm_update h.calm (Calm.loaded (h.calm c.hearer.node))) his (fun u => ?_)
      (fun c' hc' => (hflight c' hc').imp_right (List.mem_append_left _)) rfl (fun u hu => ?_) fun _ _ _ _ _ _ => ?_
    · rw [count_cons]
      exact Nat.le_add_right _ _
    · rw [count_cons] at hu
      by_cases hself : u = c.hearer.node
      · refine ⟨hself, fun i x hradio hx => ?_⟩
        subst hself
        exact ⟨⟨x, relayedMessage c.message⟩,
          List.mem_append_right _ (mem_copies_of_calm { net with flight := flight } hcalm hradio hx hlive),
          rfl, hsent⟩
      · rw [if_neg fun hx => hself hx.1.symm] at hu
        exact absurd rfl hu
    · rw [count_cons, if_pos ⟨rfl, hsent⟩]
      exact Nat.succ_pos _

/-! ## Runs -/

omit [DecidableEq V] in
theorem mem_eraseIdx_or {k : Nat} (hc : net.flight[k]? = some c) : ∀ c' ∈ net.flight, c' = c ∨
    c' ∈ net.flight.eraseIdx k := by
  intro c' hc'
  obtain ⟨hk, rfl⟩ := List.getElem?_eq_some_iff.1 hc
  exact List.mem_cons.1 ((List.getElem_cons_eraseIdx_perm hk).mem_iff.2 hc')

theorem Covered.step [Fintype V] (h : Covered mesh radio relay root ifs m net)
    (hroot : dropsOriginator (mesh.cnf root) m.originator = true)
    (hothers : ∀ v, v ≠ root → dropsOriginator (mesh.cnf v) m.originator = false)
    (httl : 2 * Fintype.card V ≤ m.ttl.toNat + 1) (hsum : m.hopcnt.toNat + m.ttl.toNat ≤ 255) {e : NetEvent V}
    (hok : Orderly m.originator m.number net e ∧ Faithful mesh radio relay m net e)
    (hstep : net.step mesh e = some net') : Covered mesh radio relay root ifs m net' := by
  have hspread := h.spread.step hroot hok.1 hstep
  obtain ⟨horderly, hfaithful⟩ := hok
  cases e with
  | originate v ifs' m' =>
    obtain rfl := Option.some.inj hstep
    refine h.frame hspread h.calm (fun u => ?_) (fun c hc _ => List.mem_append_left _ hc) fun _ _ => Iff.rfl
    rw [count_cons, if_neg fun hx => horderly hx.2]
    rfl
  | deliver k forward =>
    obtain ⟨c, hc, rfl⟩ := Option.map_eq_some_iff.1 hstep
    have hreceived := received_receive mesh { net with flight := net.flight.eraseIdx k } c forward
    by_cases his : Is m.originator m.number c.message
    · exact h.receive hspread httl hsum hothers his (List.mem_of_getElem? hc) (mem_eraseIdx_or hc)
        (hfaithful c hc his) hreceived
    · refine h.pass hspread his (fun c' hc' his' => ?_) hreceived
      refine (mem_eraseIdx_or hc c' hc').resolve_left ?_
      rintro rfl
      exact his his'
  | lose k =>
    obtain rfl := Option.some.inj hstep
    refine h.frame hspread h.calm (fun _ => rfl) (fun c' hc' his' => ?_) fun _ _ => Iff.rfl
    cases hc : net.flight[k]? with
    | none =>
      rw [List.getElem?_eq_none_iff] at hc
      show c' ∈ net.flight.eraseIdx k
      rw [List.eraseIdx_of_length_le hc]
      exact hc'
    | some c =>
      refine (mem_eraseIdx_or hc c' hc').resolve_left ?_
      rintro rfl
      exact hfaithful c' hc his'
  | duplicate k =>
    obtain ⟨c, hc, rfl⟩ := Option.map_eq_some_iff.1 hstep
    exact h.frame hspread h.calm (fun _ => rfl) (fun _ hc' _ => List.mem_cons_of_mem _ hc') fun _ _ => Iff.rfl
  | cleanupTimer v =>
    obtain rfl := Option.some.inj hstep
    exact h.frame hspread (calm_duplicate h.calm) (fun _ => rfl) (fun _ hc' _ => hc') fun _ _ => Iff.rfl
  | cleanupDuplicates v orig =>
    obtain rfl := Option.some.inj hstep
    exact h.frame hspread (calm_duplicate h.calm) (fun _ => rfl) (fun _ hc' _ => hc') fun _ _ => Iff.rfl
  | world v w =>
    obtain rfl := Option.some.inj hstep
    refine h.frame hspread ?_ (fun _ => rfl) (fun _ hc' _ => hc') fun _ _ => Iff.rfl
    apply calm_update h.calm
    exact hfaithful

/-- The node puts out the message. -/
theorem Quiet.covered (h : Quiet root m net)
    (hcalm : ∀ v, Calm mesh radio relay m.msgsize.toNat v (net.node v).world)
    (hstep : net.step mesh (.originate root ifs m) = some net') : Covered mesh radio relay root ifs m net' := by
  have hspread := (h.originate hstep).1
  obtain rfl := Option.some.inj hstep
  have hothers : ∀ u, 0 < count m.originator m.number u ((root, m) :: net.sent) → u = root := by
    intro u hu
    rw [count_cons] at hu
    have hzero : count m.originator m.number u net.sent = 0 :=
      List.countP_eq_zero.2 fun x hx his => h.sent x hx (of_decide_eq_true his).2
    by_contra hne
    rw [hzero, if_neg fun hx => hne hx.1.symm] at hu
    exact absurd hu (lt_irrefl 0)
  constructor
  · exact hspread
  · exact hcalm
  · intro u i x hu _ hifs hx
    obtain rfl := hothers u hu
    refine ⟨⟨x, m⟩, .inl (List.mem_append_right _ ?_), rfl, rfl, rfl⟩
    exact List.mem_flatMap.2 ⟨i, hifs rfl, List.mem_map.2 ⟨x, hx, rfl⟩⟩
  · intro c hc his
    exact absurd his (h.arrived c hc)
  · intro v hv
    exact .inl (hothers v hv)

end

/-! ## Three nodes in a row -/

end Olsrd.Flood
