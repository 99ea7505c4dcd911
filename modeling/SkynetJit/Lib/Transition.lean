/-!
# SkynetJit.Lib.Transition

Deterministic labelled transition systems.  A system is a partial step
function `step : σ → α → Option σ`: the label carries every choice the
environment makes, and `none` marks a label that is not enabled.  `run`
executes a list of labels; the two induction rules below are the only place
where an induction over runs is done:

* `run_invariant` — what every step preserves holds after every run;
* `run_invariant_of_meets` — what every step meeting a side condition
  preserves holds after every run whose steps all meet it.

A system whose steps also answer, `step : σ → α → ρ × σ`, refines a
specification when every answer and every state reached is one the
specification allows; `refines_of_simulation` is the induction for that.

Nothing here depends on the systems of this development.
-/

namespace SkynetJit.Transition

universe u v

variable {σ : Type u} {α : Type v}

/-- Execute a list of labels, failing at the first one that is not enabled. -/
def run (step : σ → α → Option σ) : σ → List α → Option σ
  | s, [] => some s
  | s, a :: as => (step s a).bind fun s' => run step s' as

@[simp] theorem run_nil (step : σ → α → Option σ) (s : σ) : run step s [] = some s := rfl

theorem run_cons (step : σ → α → Option σ) (s : σ) (a : α) (as : List α) :
    run step s (a :: as) = (step s a).bind fun s' => run step s' as := rfl

/-- A run that starts with a label splits into that step and the rest. -/
theorem run_cons_eq_some {step : σ → α → Option σ} {s t : σ} {a : α} {as : List α}
    (h : run step s (a :: as) = some t) :
    ∃ s', step s a = some s' ∧ run step s' as = some t := by
  rw [run_cons] at h
  cases hs : step s a with
  | none => rw [hs, Option.bind_none] at h; contradiction
  | some s' =>
      rw [hs, Option.bind_some] at h
      exact ⟨s', rfl, h⟩

/-- Runs compose. -/
theorem run_append (step : σ → α → Option σ) (s : σ) (as bs : List α) :
    run step s (as ++ bs) = (run step s as).bind fun s' => run step s' bs := by
  induction as generalizing s with
  | nil => rfl
  | cons a as ih =>
      rw [List.cons_append, run_cons, run_cons]
      cases step s a with
      | none => rfl
      | some s' => exact ih s'

/-- **Invariant rule**: a property kept by every enabled step holds at the
end of every run that starts where it holds. -/
theorem run_invariant {step : σ → α → Option σ} {Inv : σ → Prop}
    (hstep : ∀ s a s', Inv s → step s a = some s' → Inv s')
    {s t : σ} {as : List α} (h0 : Inv s) (hrun : run step s as = some t) : Inv t := by
  induction as generalizing s with
  | nil =>
      rw [run_nil] at hrun
      exact Option.some.inj hrun ▸ h0
  | cons a as ih =>
      obtain ⟨s', hs, hrest⟩ := run_cons_eq_some hrun
      exact ih (hstep s a s' h0 hs) hrest

/-- Every step the run takes starts in a state that meets `P` for its label. -/
def Meets (step : σ → α → Option σ) (P : σ → α → Prop) : σ → List α → Prop
  | _, [] => True
  | s, a :: as => P s a ∧ ∀ s', step s a = some s' → Meets step P s' as

/-- **Conditional invariant rule**: a property kept by every enabled step
that meets `P` holds at the end of every run whose steps all meet `P`. -/
theorem run_invariant_of_meets {step : σ → α → Option σ} {P : σ → α → Prop} {Inv : σ → Prop}
    (hstep : ∀ s a s', Inv s → P s a → step s a = some s' → Inv s')
    {s t : σ} {as : List α} (h0 : Inv s) (hP : Meets step P s as)
    (hrun : run step s as = some t) : Inv t := by
  induction as generalizing s with
  | nil =>
      rw [run_nil] at hrun
      exact Option.some.inj hrun ▸ h0
  | cons a as ih =>
      obtain ⟨s', hs, hrest⟩ := run_cons_eq_some hrun
      exact ih (hstep s a s' h0 hP.1 hs) (hP.2 s' hs) hrest

/-! ## Refinement -/

section Refinement

universe w x

variable {τ : Type w} {ρ : Type x}

/-- Along a list of labels, every answer of the system is one the
specification allows, and in every state the system is in, an observer sees
what the specification says. -/
def Refines (step : σ → α → ρ × σ) (spec : τ → α → ρ → τ → Prop) (observe : σ → τ → Prop) :
    σ → τ → List α → Prop
  | s, t, [] => observe s t
  | s, t, a :: as =>
      observe s t ∧ ∃ t', spec t a (step s a).1 t' ∧ Refines step spec observe (step s a).2 t' as

/-- **Conditional simulation rule**: a relation that every step with a label
in `P` carries along, and under which the observer sees what the specification
says, is a refinement along labels in `P`. -/
theorem refines_of_simulation_of {step : σ → α → ρ × σ} {spec : τ → α → ρ → τ → Prop}
    {observe : σ → τ → Prop} {R : σ → τ → Prop} {P : α → Prop} (hobs : ∀ s t, R s t → observe s t)
    (hstep : ∀ s t a, R s t → P a → ∃ t', spec t a (step s a).1 t' ∧ R (step s a).2 t')
    {s : σ} {t : τ} (h : R s t) (as : List α) (hP : ∀ a ∈ as, P a) :
    Refines step spec observe s t as := by
  induction as generalizing s t with
  | nil => exact hobs s t h
  | cons a as ih =>
      obtain ⟨t', hspec, hR⟩ := hstep s t a h (hP a List.mem_cons_self)
      exact ⟨hobs s t h, t', hspec, ih hR fun b hb => hP b (List.mem_cons_of_mem a hb)⟩

/-- **Simulation rule**: a relation that every step carries along, and under
which the observer sees what the specification says, is a refinement. -/
theorem refines_of_simulation {step : σ → α → ρ × σ} {spec : τ → α → ρ → τ → Prop}
    {observe : σ → τ → Prop} {R : σ → τ → Prop} (hobs : ∀ s t, R s t → observe s t)
    (hstep : ∀ s t a, R s t → ∃ t', spec t a (step s a).1 t' ∧ R (step s a).2 t')
    {s : σ} {t : τ} (h : R s t) (as : List α) : Refines step spec observe s t as :=
  refines_of_simulation_of (P := fun _ => True) hobs (fun s t a hR _ => hstep s t a hR) h as
    fun _ _ => trivial

end Refinement

end SkynetJit.Transition
