/-
Systems given by a step function that may have no result, the states they reach by steps that meet a
condition, and loops over lists in the same setting.
-/
import Mathlib.Data.List.Basic
import Mathlib.Tactic

namespace Run

variable {σ ε α : Type}

/-- The states a system gets to from a starting state by steps that meet `ok`. -/
inductive Reaches (start : σ → Prop) (ok : σ → ε → Prop) (step : σ → ε → Option σ) : σ → Prop
  | init {s : σ} : start s → Reaches start ok step s
  | step {s s' : σ} (e : ε) : Reaches start ok step s → ok s e → step s e = some s' → Reaches start ok step s'

theorem Reaches.invariant {start : σ → Prop} {ok : σ → ε → Prop} {step : σ → ε → Option σ} {P : σ → Prop}
    (hinit : ∀ s, start s → P s) (hstep : ∀ s e s', P s → ok s e → step s e = some s' → P s') {s : σ}
    (h : Reaches start ok step s) : P s := by
  induction h with
  | init hs => exact hinit _ hs
  | step e _ hok hs ih => exact hstep _ e _ ih hok hs

/-- A loop that goes on with every member of a list. -/
def forEach (body : σ → α → Option σ) : List α → σ → Option σ
  | [], s => some s
  | a :: l, s => (body s a).bind (forEach body l)

theorem forEach_cons {body : σ → α → Option σ} {a : α} {l : List α} {s s' : σ} :
    forEach body (a :: l) s = some s' ↔ ∃ s₁, body s a = some s₁ ∧ forEach body l s₁ = some s' :=
  Option.bind_eq_some_iff

/-- What every round of a loop keeps, the loop keeps. -/
theorem forEach_invariant {body : σ → α → Option σ} {P : σ → Prop} : ∀ {l : List α} {s s' : σ},
    (∀ s a s', a ∈ l → P s → body s a = some s' → P s') → P s → forEach body l s = some s' → P s'
  | [], s, s', _, hs, h => by
    obtain rfl := Option.some.inj h
    exact hs
  | a :: l, s, s', hbody, hs, h => by
    obtain ⟨s₁, hs₁, h⟩ := forEach_cons.1 h
    exact forEach_invariant (fun s b s' hb => hbody s b s' (List.mem_cons_of_mem _ hb))
      (hbody s a s₁ (List.mem_cons_self ..) hs hs₁) h

/-- A relation that every round of a loop meets and that composes, the loop meets. -/
theorem forEach_relation {body : σ → α → Option σ} {R : σ → σ → Prop} (hrefl : ∀ s, R s s)
    (htrans : ∀ s₁ s₂ s₃, R s₁ s₂ → R s₂ s₃ → R s₁ s₃) (hbody : ∀ s a s', body s a = some s' → R s s') {l : List α}
    {s s' : σ} (h : forEach body l s = some s') : R s s' :=
  forEach_invariant (P := R s) (fun s₁ a s₂ _ h₁ h₂ => htrans s s₁ s₂ h₁ (hbody s₁ a s₂ h₂)) (hrefl s) h

/-- What the round of a member achieves and later rounds keep, is achieved for every member. -/
theorem forEach_each {body : σ → α → Option σ} {P : α → σ → Prop} (hdo : ∀ s a s', body s a = some s' → P a s')
    (hkeep : ∀ s a b s', P a s → body s b = some s' → P a s') : ∀ {l : List α} {s s' : σ},
    forEach body l s = some s' → ∀ a ∈ l, P a s'
  | [], _, _, _, a, ha => absurd ha List.not_mem_nil
  | b :: l, s, s', h, a, ha => by
    obtain ⟨s₁, hs₁, hrest⟩ := forEach_cons.1 h
    rcases List.mem_cons.1 ha with rfl | ha
    · exact forEach_invariant (P := P a) (fun s b s' _ => hkeep s a b s') (hdo s a s₁ hs₁) hrest
    · exact forEach_each hdo hkeep hrest a ha

/-- A loop whose every round has a result and takes the invariant on to the members that are left, has a result. -/
theorem forEach_total {body : σ → α → Option σ} {P : List α → σ → Prop}
    (hbody : ∀ a l s, P (a :: l) s → ∃ s', body s a = some s' ∧ P l s') : ∀ {l : List α} {s : σ},
    P l s → ∃ s', forEach body l s = some s' ∧ P [] s'
  | [], s, hs => ⟨s, rfl, hs⟩
  | a :: l, s, hs => by
    obtain ⟨s₁, hs₁, hl⟩ := hbody a l s hs
    obtain ⟨s', hs', hnil⟩ := forEach_total hbody hl
    exact ⟨s', forEach_cons.2 ⟨s₁, hs₁, hs'⟩, hnil⟩

/-- A loop whose every round has a result and takes the invariant on to the members it is through with, has a result. -/
theorem forEach_prefix {body : σ → α → Option σ} {all : List α} {P : List α → σ → Prop}
    (hbody : ∀ done a s, a ∈ all → P done s → ∃ s', body s a = some s' ∧ P (done ++ [a]) s') {s : σ} (hs : P [] s) :
    ∃ s', forEach body all s = some s' ∧ P all s' := by
  have hstep : ∀ a rest s, (∃ done, all = done ++ a :: rest ∧ P done s) →
      ∃ s', body s a = some s' ∧ ∃ done, all = done ++ rest ∧ P done s' := by
    rintro a rest s ⟨done, rfl, hP⟩
    obtain ⟨s', hs', hP'⟩ := hbody done a s (List.mem_append_right done (List.mem_cons_self ..)) hP
    exact ⟨s', hs', done ++ [a], by rw [List.append_assoc, List.singleton_append], hP'⟩
  obtain ⟨s', hs', done, hdone, hP⟩ :=
    forEach_total (P := fun rest s => ∃ done, all = done ++ rest ∧ P done s) hstep ⟨[], rfl, hs⟩
  rw [List.append_nil] at hdone
  exact ⟨s', hs', hdone ▸ hP⟩

/-- Every round of a loop, as far as it gets, meets `ok`. -/
def Rounds (ok : σ → α → Prop) (body : σ → α → Option σ) : List α → σ → Prop
  | [], _ => True
  | a :: l, s => ok s a ∧ ∀ s', body s a = some s' → Rounds ok body l s'

instance decidableRounds {ok : σ → α → Prop} {body : σ → α → Option σ} [∀ s a, Decidable (ok s a)] :
    ∀ (l : List α) (s : σ), Decidable (Rounds ok body l s)
  | [], _ => .isTrue trivial
  | a :: l, s =>
    match h : body s a with
    | none => decidable_of_iff (ok s a) ⟨fun hok => ⟨hok, fun _ hs => nomatch h.symm.trans hs⟩, fun hr => hr.1⟩
    | some s₁ =>
      have : Decidable (Rounds ok body l s₁) := decidableRounds l s₁
      decidable_of_iff (ok s a ∧ Rounds ok body l s₁) ⟨fun hr => ⟨hr.1, fun s' hs => by
        obtain rfl := Option.some.inj (h.symm.trans hs)
        exact hr.2⟩, fun hr => ⟨hr.1, hr.2 s₁ h⟩⟩

/-- What every round that meets `ok` keeps, a loop of such rounds keeps. -/
theorem forEach_rounds {body : σ → α → Option σ} {ok : σ → α → Prop} {P : σ → Prop}
    (hbody : ∀ s a s', P s → ok s a → body s a = some s' → P s') : ∀ {l : List α} {s s' : σ},
    Rounds ok body l s → P s → forEach body l s = some s' → P s'
  | [], s, s', _, hs, h => by
    obtain rfl := Option.some.inj h
    exact hs
  | a :: l, s, s', hrounds, hs, h => by
    obtain ⟨s₁, hs₁, h⟩ := forEach_cons.1 h
    exact forEach_rounds hbody (hrounds.2 s₁ hs₁) (hbody s a s₁ hs hrounds.1 hs₁) h

theorem Rounds.mono {body : σ → α → Option σ} {ok ok' : σ → α → Prop} (hok : ∀ s a, ok s a → ok' s a) :
    ∀ {l : List α} {s : σ}, Rounds ok body l s → Rounds ok' body l s
  | [], _, _ => trivial
  | a :: _, s, h => ⟨hok s a h.1, fun s' hs => (h.2 s' hs).mono hok⟩

theorem Rounds.and {body : σ → α → Option σ} {ok ok' : σ → α → Prop} :
    ∀ {l : List α} {s : σ}, Rounds ok body l s → Rounds ok' body l s → Rounds (fun s a => ok s a ∧ ok' s a) body l s
  | [], _, _, _ => trivial
  | _ :: _, _, h, h' => ⟨⟨h.1, h'.1⟩, fun s' hs => (h.2 s' hs).and (h'.2 s' hs)⟩

theorem rounds_of_forall {body : σ → α → Option σ} {ok : σ → α → Prop} (h : ∀ s a, ok s a) :
    ∀ (l : List α) (s : σ), Rounds ok body l s
  | [], _ => trivial
  | a :: l, s => ⟨h s a, fun s' _ => rounds_of_forall h l s'⟩

theorem rounds_of_mem {body : σ → α → Option σ} {ok : σ → α → Prop} :
    ∀ {l : List α} (s : σ), (∀ a ∈ l, ∀ s, ok s a) → Rounds ok body l s
  | [], _, _ => trivial
  | _ :: _, s, h => ⟨h _ List.mem_cons_self s, fun s' _ => rounds_of_mem s' fun a ha => h a (List.mem_cons_of_mem _ ha)⟩

theorem reaches_forEach {start : σ → Prop} {ok : σ → ε → Prop} {step : σ → ε → Option σ} {l : List ε} {s s' : σ}
    (hs : Reaches start ok step s) (hrounds : Rounds ok step l s) (h : forEach step l s = some s') :
    Reaches start ok step s' :=
  forEach_rounds (fun _ e _ hreach hok hstep => .step e hreach hok hstep) hrounds hs h

end Run
