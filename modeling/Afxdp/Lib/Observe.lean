import Mathlib.Data.List.Basic

/-!
# What the caller of an object can see

An object is a family of fallible calls over a state that survives a failure. `observe` is what the
caller sees of a sequence of calls: what each returned, or how it failed. Two objects whose states
are related answer a call alike and stay related as long as every call is an allowed one
(`Simulates`). If every other call is answered differently, the two can be told apart exactly by
sequences with such a call (`Simulates.observe_eq_iff`).
-/

namespace Afxdp.Observe

universe u

variable {ε σ τ α β : Type u}

/-- What a call answers, and the state it leaves. -/
def call (f : α → EStateM ε σ β) (a : α) (s : σ) : Except ε β × σ :=
  match f a s with
  | .ok b s' => (.ok b, s')
  | .error e s' => (.error e, s')

/-- The answers to a sequence of calls. -/
def observe (f : α → EStateM ε σ β) : List α → σ → List (Except ε β)
  | [], _ => []
  | a :: as, s => (call f a s).1 :: observe f as (call f a s).2

/-- The state after a sequence of calls. -/
def after (f : α → EStateM ε σ β) : List α → σ → σ
  | [], s => s
  | a :: as, s => after f as (call f a s).2

/-- Related states answer an allowed call alike, and are related afterwards. -/
def Simulates (f : α → EStateM ε σ β) (g : α → EStateM ε τ β) (Q : α → Prop)
    (R : σ → τ → Prop) : Prop :=
  ∀ a s t, Q a → R s t → (call f a s).1 = (call g a t).1 ∧ R (call f a s).2 (call g a t).2

section
variable {f : α → EStateM ε σ β} {g : α → EStateM ε τ β} {Q : α → Prop} {R : σ → τ → Prop}
  {s : σ} {t : τ} {as : List α}

/-- Allowed calls keep the states related. -/
theorem Simulates.after (h : Simulates f g Q R) (hst : R s t) (hQ : ∀ a ∈ as, Q a) :
    R (after f as s) (after g as t) := by
  induction as generalizing s t with
  | nil => exact hst
  | cons a as ih =>
      have ha : Q a := hQ a List.mem_cons_self
      exact ih (h a s t ha hst).2 fun x hx => hQ x (List.mem_cons_of_mem a hx)

/-- If every call that is not allowed is answered differently, two related objects are seen to be
the same exactly if every call is allowed. -/
theorem Simulates.observe_eq_iff (h : Simulates f g Q R)
    (hne : ∀ a s t, ¬ Q a → R s t → (call f a s).1 ≠ (call g a t).1) (hst : R s t) :
    observe f as s = observe g as t ↔ ∀ a ∈ as, Q a := by
  induction as generalizing s t with
  | nil => simp [observe]
  | cons a as ih =>
      rw [observe, observe, List.cons.injEq, List.forall_mem_cons]
      by_cases ha : Q a
      · obtain ⟨hans, hnext⟩ := h a s t ha hst
        rw [ih hnext]
        exact and_congr (iff_of_true hans ha) Iff.rfl
      · exact iff_of_false (fun he => hne a s t ha hst he.1) fun hq => ha hq.1

end

end Afxdp.Observe
