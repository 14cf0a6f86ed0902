import Afxdp.Lib.Run

/-!
# Programs over a machine

A program runs on a machine: a part of its state is the machine's, and each of its steps is a run
of the machine, by actions it is allowed (`Over`). So every run of the program is one of the machine
(`Over.run`), and an invariant of the machine holds of the program's runs (`Over.invariant`), also
together with one of the program that may depend on it (`Over.invariant_and`).
-/

namespace Afxdp.Program

open Run (run run_cons run_invariant Leads)

universe u v w

variable {σ τ : Type u} {α π : Type v} {β γ : Type w} {step : σ → α → Option (σ × β)}
  {pstep : τ → π → Option (τ × γ)} {proj : τ → σ} {Q : α → Prop} {R : π → Prop}

variable (step pstep proj Q R) in
/-- Each step of the program that `R` allows is a run of the machine by actions that `Q` allows. -/
def Over : Prop :=
  ∀ t p t' c, R p → pstep t p = some (t', c) →
    ∃ as, (∀ a ∈ as, Q a) ∧ Leads step (proj t) as (proj t')

/-- What every allowed action of the machine preserves is preserved where a run of them leads. -/
theorem leads_invariant {I : σ → Prop}
    (hstep : ∀ s a s' b, Q a → I s → step s a = some (s', b) → I s') {s s' : σ} {as : List α}
    (hs : I s) (hQ : ∀ a ∈ as, Q a) (h : Leads step s as s') : I s' := by
  obtain ⟨bs, hrun⟩ := h
  exact run_invariant hstep hs hQ hrun

namespace Over

variable (h : Over step pstep proj Q R)
include h

/-- A run of the program is a run of the machine. -/
theorem run {t t' : τ} {ps : List π} {cs : List γ} (hR : ∀ p ∈ ps, R p)
    (hrun : Run.run pstep t ps = some (t', cs)) :
    ∃ as, (∀ a ∈ as, Q a) ∧ Leads step (proj t) as (proj t') := by
  induction ps generalizing t cs with
  | nil =>
      cases hrun
      exact ⟨[], fun a ha => absurd ha List.not_mem_nil, .nil _⟩
  | cons p ps ih =>
      obtain ⟨u, c, cs', h1, h2, rfl⟩ := run_cons.1 hrun
      obtain ⟨as, has, hlead⟩ := h t p u c (hR p List.mem_cons_self) h1
      obtain ⟨as', has', hlead'⟩ := ih (fun q hq => hR q (List.mem_cons_of_mem _ hq)) h2
      refine ⟨as ++ as', ?_, hlead.append hlead'⟩
      intro a ha
      rcases List.mem_append.1 ha with ha | ha
      · exact has a ha
      · exact has' a ha

/-- What every allowed action of the machine preserves is preserved by a step of the program. -/
theorem step_invariant {I : σ → Prop}
    (hstep : ∀ s a s' b, Q a → I s → step s a = some (s', b) → I s') {t t' : τ} {p : π} {c : γ}
    (hp : R p) (ht : I (proj t)) (hpstep : pstep t p = some (t', c)) : I (proj t') := by
  obtain ⟨as, has, hlead⟩ := h t p t' c hp hpstep
  exact leads_invariant hstep ht has hlead

/-- An invariant of the machine holds after every run of the program. -/
theorem invariant {I : σ → Prop}
    (hstep : ∀ s a s' b, Q a → I s → step s a = some (s', b) → I s') {t t' : τ} {ps : List π}
    {cs : List γ} (ht : I (proj t)) (hR : ∀ p ∈ ps, R p)
    (hrun : Run.run pstep t ps = some (t', cs)) : I (proj t') := by
  obtain ⟨as, has, hlead⟩ := h.run hR hrun
  exact leads_invariant hstep ht has hlead

/-- So does what the steps of the program preserve where it holds. -/
theorem invariant_and {I : σ → Prop} {J : τ → Prop}
    (hstep : ∀ s a s' b, Q a → I s → step s a = some (s', b) → I s')
    (hpstep : ∀ t p t' c, R p → I (proj t) → J t → pstep t p = some (t', c) → J t') {t t' : τ}
    {ps : List π} {cs : List γ} (ht : I (proj t)) (hJ : J t) (hR : ∀ p ∈ ps, R p)
    (hrun : Run.run pstep t ps = some (t', cs)) : I (proj t') ∧ J t' := by
  refine run_invariant (I := fun t => I (proj t) ∧ J t) (Q := R) ?_ ⟨ht, hJ⟩ hR hrun
  rintro t p t' c hp ⟨hI, hJ⟩ hs
  exact ⟨h.step_invariant hstep hp hI hs, hpstep t p t' c hp hI hJ hs⟩

end Over

end Afxdp.Program
