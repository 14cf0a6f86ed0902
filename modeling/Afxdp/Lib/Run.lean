import Mathlib.Algebra.GroupWithZero.Nat
import Mathlib.Data.List.Basic
import Mathlib.Data.List.Induction

/-!
# Runs of a labelled machine

A machine is a function `step` from a state and an action to the next state and an output, or to
`none` where the action is not possible. `run` folds it over a list of actions. `run_invariant`
carries an invariant through a run, and `run_outputs` one that is also about the outputs.
`EveryStep` says that a property holds of every step of a run, and `run_total` accounts for what the
outputs of a run add up to. `Leads` puts a run together from parts, and `After` looks at the states
on the way, so that an invariant can be about them as well (`leads_actions`).
-/

namespace Afxdp.Run

universe u v w

variable {σ : Type u} {α : Type v} {β : Type w} (step : σ → α → Option (σ × β))

/-- The state after a list of actions and the outputs on the way, if every action is possible. -/
def run : σ → List α → Option (σ × List β)
  | s, [] => some (s, [])
  | s, a :: as => (step s a).bind fun p => (run p.1 as).map fun q => (q.1, p.2 :: q.2)

/-- `P` holds of every step that the actions take from `s` on. -/
def EveryStep (P : σ → α → σ → β → Prop) : σ → List α → Prop
  | _, [] => True
  | s, a :: as => ∀ s' b, step s a = some (s', b) → P s a s' b ∧ EveryStep P s' as

variable {step}

@[simp] theorem run_nil (s : σ) : run step s [] = some (s, []) := rfl

/-- A run of one action more starts with that action's step. -/
theorem run_cons {s s'' : σ} {a : α} {as : List α} {bs : List β} :
    run step s (a :: as) = some (s'', bs) ↔
      ∃ s' b bs', step s a = some (s', b) ∧ run step s' as = some (s'', bs') ∧ bs = b :: bs' := by
  simp only [run, Option.bind_eq_some_iff, Option.map_eq_some_iff, Prod.mk.injEq, Prod.exists]
  constructor
  · rintro ⟨s', b, hs, t, bs', hr, rfl, rfl⟩
    exact ⟨s', b, bs', hs, hr, rfl⟩
  · rintro ⟨s', b, bs', hs, hr, rfl⟩
    exact ⟨s', b, hs, s'', bs', hr, rfl, rfl⟩

/-- A machine whose actions are all possible in every state runs every list of them. -/
theorem run_of_total (h : ∀ s a, ∃ s' b, step s a = some (s', b)) (s : σ) (as : List α) :
    ∃ s' bs, run step s as = some (s', bs) := by
  induction as generalizing s with
  | nil => exact ⟨s, [], rfl⟩
  | cons a as ih =>
      obtain ⟨t, b, h1⟩ := h s a
      obtain ⟨s', bs, h2⟩ := ih t
      exact ⟨s', b :: bs, run_cons.2 ⟨t, b, bs, h1, h2, rfl⟩⟩

/-! ## Composition -/

variable (step) in
/-- The actions are possible one after the other from `s` on and lead to `s'`. -/
def Leads (s : σ) (as : List α) (s' : σ) : Prop := ∃ bs, run step s as = some (s', bs)

theorem Leads.nil (s : σ) : Leads step s [] s := ⟨[], rfl⟩

theorem Leads.cons {s t s' : σ} {a : α} {as : List α} {b : β} (h : step s a = some (t, b))
    (h' : Leads step t as s') : Leads step s (a :: as) s' := by
  obtain ⟨bs, hbs⟩ := h'
  exact ⟨b :: bs, run_cons.2 ⟨t, b, bs, h, hbs, rfl⟩⟩

theorem Leads.single {s s' : σ} {a : α} {b : β} (h : step s a = some (s', b)) :
    Leads step s [a] s' :=
  .cons h (.nil s')

theorem Leads.append {s t s' : σ} {as as' : List α} (h : Leads step s as t)
    (h' : Leads step t as' s') : Leads step s (as ++ as') s' := by
  obtain ⟨bs, hbs⟩ := h
  induction as generalizing s bs with
  | nil =>
      cases hbs
      exact h'
  | cons a as ih =>
      obtain ⟨u, b, bs', h1, h2, rfl⟩ := run_cons.1 hbs
      exact .cons h1 (ih bs' h2)

/-- A list of actions that is possible whenever `I k` holds, and leads to `I (k + 1)`, can be
repeated. -/
theorem Leads.replicate {I : Nat → σ → Prop} {as : List α} {n : Nat}
    (h : ∀ k s, k < n → I k s → ∃ s', Leads step s as s' ∧ I (k + 1) s') {s : σ} (hs : I 0 s) :
    ∃ s', Leads step s (List.replicate n as).flatten s' ∧ I n s' := by
  induction n with
  | zero => exact ⟨s, .nil s, hs⟩
  | succ n ih =>
      obtain ⟨t, h1, ht⟩ := ih fun k s hk => h k s (Nat.lt_succ_of_lt hk)
      obtain ⟨s', h2, hs'⟩ := h n t (Nat.lt_succ_self n) ht
      refine ⟨s', ?_, hs'⟩
      rw [List.replicate_succ', List.flatten_append, List.flatten_singleton]
      exact h1.append h2

theorem Leads.determ {s t t' : σ} {as : List α} (h : Leads step s as t) (h' : Leads step s as t') :
    t = t' := by
  obtain ⟨bs, hbs⟩ := h
  obtain ⟨bs', hbs'⟩ := h'
  rw [hbs] at hbs'
  cases hbs'
  rfl

/-- Where a list of actions leads, a part of it led on the way. -/
theorem leads_append {s s' : σ} {as as' : List α} :
    Leads step s (as ++ as') s' ↔ ∃ t, Leads step s as t ∧ Leads step t as' s' := by
  refine ⟨fun h => ?_, fun ⟨t, h, h'⟩ => h.append h'⟩
  induction as generalizing s with
  | nil => exact ⟨s, .nil s, h⟩
  | cons a as ih =>
      obtain ⟨bs, hbs⟩ := h
      obtain ⟨u, b, bs', h1, h2, rfl⟩ := run_cons.1 hbs
      obtain ⟨t, hl, hr⟩ := ih ⟨bs', h2⟩
      exact ⟨t, .cons h1 hl, hr⟩

variable (step) in
/-- `t` is the state after `k` of the actions. -/
def After (s : σ) (as : List α) (k : Nat) (t : σ) : Prop :=
  k ≤ as.length ∧ Leads step s (as.take k) t

theorem After.last {s t : σ} {as : List α} (h : Leads step s as t) :
    After step s as as.length t :=
  ⟨Nat.le_refl _, by rwa [List.take_length]⟩

/-- Further actions do not change that. -/
theorem after_append {s t : σ} {as as' : List α} {k : Nat} (hk : k ≤ as.length) :
    After step s (as ++ as') k t ↔ After step s as k t := by
  rw [After, After, List.take_append_of_le_length hk, List.length_append]
  exact and_congr_left fun _ => iff_of_true (Nat.le_add_right_of_le hk) hk

/-- A state after a part of the actions is one after more of them. -/
theorem After.of_take {s t : σ} {as : List α} {j k : Nat} (h : After step s (as.take j) k t) :
    k ≤ j ∧ After step s as k t := by
  obtain ⟨hk, hlead⟩ := h
  rw [List.length_take] at hk
  rw [List.take_take, Nat.min_eq_left (by omega)] at hlead
  exact ⟨by omega, by omega, hlead⟩

/-- From the earlier one of two states of a run the actions in between lead to the later one. -/
theorem After.leads {s t t' : σ} {as : List α} {j k : Nat} (h : After step s as j t)
    (h' : After step s as k t') (hjk : j ≤ k) : ∃ as', Leads step t as' t' := by
  obtain ⟨hk, hlead⟩ := h'
  have hsplit : as.take k = as.take j ++ (as.take k).drop j := by
    rw [← List.take_append_drop j (as.take k), List.take_take, Nat.min_eq_left hjk,
      List.drop_left' (by rw [List.length_take]; omega)]
  rw [hsplit] at hlead
  obtain ⟨u, h1, h2⟩ := leads_append.1 hlead
  obtain rfl := h.2.determ h1
  exact ⟨_, h2⟩

/-! ## Invariants -/

/-- What every allowed step preserves holds after every run of allowed actions. -/
theorem run_invariant {I : σ → Prop} {Q : α → Prop}
    (hstep : ∀ s a s' b, Q a → I s → step s a = some (s', b) → I s') {s s' : σ} {as : List α}
    {bs : List β} (hs : I s) (hQ : ∀ a ∈ as, Q a) (h : run step s as = some (s', bs)) : I s' := by
  induction as generalizing s bs with
  | nil => cases h; exact hs
  | cons a as ih =>
      obtain ⟨t, b, bs', h1, h2, rfl⟩ := run_cons.1 h
      exact ih (hstep s a t b (hQ a (by simp)) hs h1) (fun x hx => hQ x (by simp [hx])) h2

/-- So does what every step preserves of the state and the actions so far. -/
theorem leads_actions {I : List α → σ → Prop} {s : σ} (hs : I [] s)
    (hstep : ∀ as t a t' b, Leads step s as t → I as t → step t a = some (t', b) →
      I (as ++ [a]) t') {as : List α} {s' : σ} (h : Leads step s as s') : I as s' := by
  induction as using List.reverseRecOn generalizing s' with
  | nil =>
      obtain ⟨bs, hbs⟩ := h
      cases hbs
      exact hs
  | append_singleton as a ih =>
      obtain ⟨t, hlead, bs, hbs⟩ := leads_append.1 h
      obtain ⟨u, b, bs', hstep', hnil, rfl⟩ := run_cons.1 hbs
      cases hnil
      exact hstep as t a _ b hlead (ih hlead) hstep'

/-- So does what every allowed step preserves of the state and the outputs so far. -/
theorem run_outputs {I : σ → List β → Prop} {Q : α → Prop}
    (hstep : ∀ s bs a s' b, Q a → I s bs → step s a = some (s', b) → I s' (bs ++ [b])) {s s' : σ}
    {as : List α} {bs : List β} (hs : I s []) (hQ : ∀ a ∈ as, Q a)
    (h : run step s as = some (s', bs)) : I s' bs := by
  have hmore : ∀ {as s cs bs}, I s cs → (∀ a ∈ as, Q a) → run step s as = some (s', bs) →
      I s' (cs ++ bs) := by
    intro as
    induction as with
    | nil =>
        intro s cs bs hs _ h
        cases h
        rwa [List.append_nil]
    | cons a as ih =>
        intro s cs bs hs hQ h
        obtain ⟨t, b, bs', h1, h2, rfl⟩ := run_cons.1 h
        have hnext := ih (hstep s cs a t b (hQ a (by simp)) hs h1) (fun x hx => hQ x (by simp [hx]))
          h2
        rwa [List.append_assoc] at hnext
  exact hmore hs hQ h

/-- What holds of every step of a run holds of its last one. -/
theorem EveryStep.last {P : σ → α → σ → β → Prop} {s t t' : σ} {as : List α} {a : α} {bs : List β}
    {b : β} (h : EveryStep step P s (as ++ [a])) (hrun : run step s as = some (t, bs))
    (hstep : step t a = some (t', b)) : P t a t' b := by
  induction as generalizing s bs with
  | nil =>
      cases hrun
      exact (h t' b hstep).1
  | cons x as ih =>
      obtain ⟨u, c, bs', h1, h2, rfl⟩ := run_cons.1 hrun
      exact ih (h u c h1).2 h2

/-- What every step with the property `P` preserves holds after a run of such steps. -/
theorem EveryStep.invariant {I : σ → Prop} {P : σ → α → σ → β → Prop}
    (hstep : ∀ s a s' b, P s a s' b → I s → step s a = some (s', b) → I s') {s s' : σ}
    {as : List α} {bs : List β} (hs : I s) (hP : EveryStep step P s as)
    (h : run step s as = some (s', bs)) : I s' := by
  induction as generalizing s bs with
  | nil => cases h; exact hs
  | cons a as ih =>
      obtain ⟨t, b, bs', h1, h2, rfl⟩ := run_cons.1 h
      obtain ⟨hPa, hPas⟩ := hP t b h1
      exact ih (hstep s a t b hPa hs h1) hPas h2

variable (step) in
/-- Evaluate a property of states and actions along a run. -/
def checkSteps (p : σ → α → Bool) : σ → List α → Bool
  | _, [] => true
  | s, a :: as => p s a && (step s a).all fun r => checkSteps p r.1 as

theorem everyStep_of_checkSteps {p : σ → α → Bool} {s : σ} {as : List α}
    (h : checkSteps step p s as = true) : EveryStep step (fun s a _ _ => p s a = true) s as := by
  induction as generalizing s with
  | nil => trivial
  | cons a as ih =>
      intro s' b hstep
      rw [checkSteps, Bool.and_eq_true, hstep] at h
      exact ⟨h.1, ih h.2⟩

/-- Two properties that agree on every step from a state with the invariant `I` hold of the same
runs, if a step with the first property keeps `I`. -/
theorem everyStep_congr {I : σ → Prop} {P R : σ → α → σ → β → Prop}
    (h : ∀ s a s' b, I s → step s a = some (s', b) →
      (P s a s' b ↔ R s a s' b) ∧ (P s a s' b → I s')) {s : σ} (hs : I s) (as : List α) :
    EveryStep step P s as ↔ EveryStep step R s as := by
  induction as generalizing s with
  | nil => rfl
  | cons a as ih =>
      refine forall_congr' fun s' => forall_congr' fun b => forall_congr' ?_
      intro hstep
      obtain ⟨hiff, hinv⟩ := h s a s' b hs hstep
      constructor
      · intro hP
        exact ⟨hiff.1 hP.1, (ih (hinv hP.1)).1 hP.2⟩
      · intro hR
        exact ⟨hiff.2 hR.1, (ih (hinv (hiff.2 hR.1))).2 hR.2⟩

/-- What every allowed step from a state with the invariant `I` satisfies holds of every step of a
run of allowed actions, if the step keeps the invariant. -/
theorem everyStep_of_invariant {I : σ → Prop} {Q : α → Prop} {P : σ → α → σ → β → Prop}
    (hstep : ∀ s a s' b, Q a → I s → step s a = some (s', b) → P s a s' b ∧ I s') {s : σ}
    {as : List α} (hs : I s) (hQ : ∀ a ∈ as, Q a) : EveryStep step P s as := by
  induction as generalizing s with
  | nil => trivial
  | cons a as ih =>
      intro s' b h
      obtain ⟨hP, hI⟩ := hstep s a s' b (hQ a (by simp)) hs h
      exact ⟨hP, ih hI fun x hx => hQ x (by simp [hx])⟩

/-- A measure that no step raises by more than one is raised by a run by its length at most. -/
theorem run_le (μ : σ → Nat) {I : σ → Prop} {Q : α → Prop}
    (hstep : ∀ s a s' b, Q a → I s → step s a = some (s', b) → I s' ∧ μ s' ≤ μ s + 1) {s s' : σ}
    {as : List α} {bs : List β} (hs : I s) (hQ : ∀ a ∈ as, Q a)
    (h : run step s as = some (s', bs)) : μ s' ≤ μ s + as.length := by
  induction as generalizing s bs with
  | nil =>
      cases h
      exact Nat.le_refl _
  | cons a as ih =>
      obtain ⟨t, b, bs', h1, h2, rfl⟩ := run_cons.1 h
      obtain ⟨hinv, hhead⟩ := hstep s a t b (hQ a (by simp)) hs h1
      have htail := ih hinv (fun x hx => hQ x (by simp [hx])) h2
      rw [List.length_cons]
      omega

/-- A measure that every step raises by one weight of its output and lowers by another is raised and
lowered by a run by their sums. -/
theorem run_balance (μ : σ → Nat) (inc dec : α → β → Nat) {I : σ → Prop} {Q : α → Prop}
    (hinv : ∀ s a s' b, Q a → I s → step s a = some (s', b) → I s')
    (hstep : ∀ s a s' b, Q a → I s → step s a = some (s', b) → μ s' + dec a b = μ s + inc a b)
    {s s' : σ} {as : List α} {bs : List β} (hs : I s) (hQ : ∀ a ∈ as, Q a)
    (h : run step s as = some (s', bs)) :
    μ s' + (List.zipWith dec as bs).sum = μ s + (List.zipWith inc as bs).sum := by
  induction as generalizing s bs with
  | nil => cases h; simp
  | cons a as ih =>
      obtain ⟨t, b, bs', h1, h2, rfl⟩ := run_cons.1 h
      have ha : Q a := hQ a (by simp)
      have htail := ih (hinv s a t b ha hs h1) (fun x hx => hQ x (by simp [hx])) h2
      have hhead := hstep s a t b ha hs h1
      simp only [List.zipWith_cons_cons, List.sum_cons]
      omega

/-- A measure that every step raises by the weight of its output is raised by a run by the sum of
the weights. -/
theorem run_total (μ : σ → Nat) (weight : α → β → Nat) {I : σ → Prop} {Q : α → Prop}
    (hinv : ∀ s a s' b, Q a → I s → step s a = some (s', b) → I s')
    (hstep : ∀ s a s' b, Q a → I s → step s a = some (s', b) → μ s' = μ s + weight a b)
    {s s' : σ} {as : List α} {bs : List β} (hs : I s) (hQ : ∀ a ∈ as, Q a)
    (h : run step s as = some (s', bs)) : μ s' = μ s + (List.zipWith weight as bs).sum := by
  have hbalance := run_balance μ weight (fun _ _ => 0) hinv hstep hs hQ h
  have hnone : (List.zipWith (fun (_ : α) (_ : β) => 0) as bs).sum = 0 := by
    refine List.sum_eq_zero_iff_forall_eq_nat.2 fun x hx => ?_
    obtain ⟨i, hi, rfl⟩ := List.getElem_of_mem hx
    rw [List.getElem_zipWith]
  rwa [hnone, Nat.add_zero] at hbalance

end Afxdp.Run
