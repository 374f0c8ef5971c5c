/-
  Guarded reachability in deterministic labelled transition systems.

  A system's step is partial: an event that is not enabled has no successor.
  `Reach step ok s₀` are the states that runs from `s₀` reach when every step
  satisfies the side condition `ok`, a relation between the state before the
  step and the event.  `Reach.inv` is the invariant rule.
-/
import Mathlib

namespace Usbmidi9

variable {σ ε : Type*}

/-- The states reached by runs from `s₀` whose steps all satisfy `ok`. -/
inductive Reach (step : σ → ε → Option σ) (ok : σ → ε → Prop) (s₀ : σ) : σ → Prop
  | refl : Reach step ok s₀ s₀
  | step {s s' e} : Reach step ok s₀ s → ok s e → step s e = some s' → Reach step ok s₀ s'

/-- Run a list of events. -/
def runEvents (step : σ → ε → Option σ) : σ → List ε → Option σ
  | s, [] => some s
  | s, e :: es => (step s e).bind fun s' => runEvents step s' es

theorem runEvents_append {step : σ → ε → Option σ} {s : σ} (es es' : List ε) :
    runEvents step s (es ++ es') = (runEvents step s es).bind fun s' => runEvents step s' es' := by
  induction es generalizing s with
  | nil => rfl
  | cons e es ih =>
    rw [List.cons_append, runEvents, runEvents, Option.bind_assoc]
    simp only [ih]

/-- Every step of a run satisfies `ok`. -/
def RunOk (step : σ → ε → Option σ) (ok : σ → ε → Prop) : σ → List ε → Prop
  | _, [] => True
  | s, e :: es => ok s e ∧ ∀ s' ∈ step s e, RunOk step ok s' es

/-- A concrete run can be checked against its condition. -/
instance decidableRunOk {step : σ → ε → Option σ} {ok : σ → ε → Prop}
    [∀ s e, Decidable (ok s e)] : ∀ s es, Decidable (RunOk step ok s es)
  | _, [] => isTrue trivial
  | s, e :: es =>
    have : Decidable (∀ s' ∈ step s e, RunOk step ok s' es) :=
      match step s e with
      | none => isTrue nofun
      | some s' => match decidableRunOk s' es with
        | isTrue h => isTrue fun _ hs => Option.some.inj hs ▸ h
        | isFalse h => isFalse fun hs => h (hs s' rfl)
    inferInstanceAs (Decidable (_ ∧ _))

/-- Every run meets the trivial condition. -/
theorem runOk_true {step : σ → ε → Option σ} {s : σ} {es : List ε} :
    RunOk step (fun _ _ => True) s es := by
  induction es generalizing s with
  | nil => trivial
  | cons e es ih => exact ⟨trivial, fun _ _ => ih⟩

/-- **The exact condition.**  If a step keeps `P` exactly when it satisfies `ok`, a run
    satisfies `ok` exactly when `P` holds all along it. -/
theorem runOk_iff {step : σ → ε → Option σ} {ok : σ → ε → Prop} {I P : σ → Prop}
    (hI : ∀ s e s', I s → step s e = some s' → I s')
    (hP : ∀ s e s', I s → P s → step s e = some s' → (ok s e ↔ P s'))
    {s₀ s : σ} {es : List ε} (hr : runEvents step s₀ es = some s) (hI₀ : I s₀) (hP₀ : P s₀) :
    RunOk step ok s₀ es ↔
      ∀ es₁ s₁, es₁ <+: es → runEvents step s₀ es₁ = some s₁ → P s₁ := by
  induction es generalizing s₀ with
  | nil =>
    refine iff_of_true trivial ?_
    rintro es₁ s₁ hpre h₁
    rw [List.prefix_nil.1 hpre] at h₁
    exact Option.some.inj h₁ ▸ hP₀
  | cons e es ih =>
    obtain ⟨s', he, hr'⟩ := Option.bind_eq_some_iff.1 hr
    have hI' := hI s₀ e s' hI₀ he
    have hstep := hP s₀ e s' hI₀ hP₀ he
    have hrest := ih hr' hI'
    have hcons : ∀ es₁, runEvents step s₀ (e :: es₁) = runEvents step s' es₁ := fun es₁ =>
      congrArg (·.bind fun s => runEvents step s es₁) he
    constructor
    · rintro ⟨hok, hoks⟩ es₁ s₁ hpre h₁
      rcases List.prefix_cons_iff.1 hpre with rfl | ⟨es₂, rfl, hpre₂⟩
      · exact Option.some.inj h₁ ▸ hP₀
      · exact (hrest (hstep.1 hok)).1 (hoks s' he) es₂ s₁ hpre₂ (hcons es₂ ▸ h₁)
    · intro hall
      have hP' : P s' := hall [e] s' ⟨es, rfl⟩ ((hcons []).trans rfl)
      refine ⟨hstep.2 hP', ?_⟩
      intro s'' hs''
      obtain rfl : s' = s'' := Option.some.inj (he.symm.trans hs'')
      refine (hrest hP').2 ?_
      intro es₂ s₁ hpre₂ h₂
      exact hall (e :: es₂) s₁ (List.cons_prefix_cons.2 ⟨rfl, hpre₂⟩) ((hcons es₂).trans h₂)

/-- A condition on the events alone. -/
theorem RunOk.and {step : σ → ε → Option σ} {ok : σ → ε → Prop} {P : ε → Prop} {s : σ} {es : List ε}
    (hok : RunOk step ok s es) (hP : ∀ e ∈ es, P e) :
    RunOk step (fun s e => P e ∧ ok s e) s es := by
  induction es generalizing s with
  | nil => trivial
  | cons e es ih =>
    obtain ⟨he, hes⟩ := List.forall_mem_cons.1 hP
    exact ⟨⟨he, hok.1⟩, fun s' hs => ih (hok.2 s' hs) hes⟩

/-- **The measure rule.**  If every step uses up what its event weighs, a run uses up
    the weights of its events. -/
theorem RunOk.measure {step : σ → ε → Option σ} {ok : σ → ε → Prop} {I : σ → Prop} {μ : σ → ℕ}
    {w : ε → ℕ}
    (hstep : ∀ s e s', I s → ok s e → step s e = some s' → I s' ∧ μ s' + w e ≤ μ s) {s s' : σ}
    {es : List ε} (hok : RunOk step ok s es) (hI : I s) (hr : runEvents step s es = some s') :
    I s' ∧ μ s' + (es.map w).sum ≤ μ s := by
  induction es generalizing s with
  | nil =>
    obtain rfl := Option.some.inj hr
    exact ⟨hI, le_refl _⟩
  | cons e es ih =>
    obtain ⟨s₁, hs, hrest⟩ := Option.bind_eq_some_iff.1 hr
    obtain ⟨hI₁, hμ⟩ := hstep s e s₁ hI hok.1 hs
    obtain ⟨hI', hμ'⟩ := ih (hok.2 s₁ hs) hI₁ hrest
    refine ⟨hI', ?_⟩
    rw [List.map_cons, List.sum_cons]
    omega

namespace Reach
variable {step : σ → ε → Option σ} {ok ok' : σ → ε → Prop} {s₀ s s' : σ}

/-- **The invariant rule.** -/
theorem inv {I : σ → Prop} (h : Reach step ok s₀ s) (h₀ : I s₀)
    (hstep : ∀ s e s', I s → ok s e → step s e = some s' → I s') : I s := by
  induction h with
  | refl => exact h₀
  | step _ hok hs ih => exact hstep _ _ _ ih hok hs

theorem mono (h : Reach step ok s₀ s) (hok : ∀ s e, ok s e → ok' s e) : Reach step ok' s₀ s := by
  induction h with
  | refl => exact .refl
  | step _ ho hs ih => exact .step ih (hok _ _ ho) hs

theorem trans (h : Reach step ok s₀ s) (h' : Reach step ok s s') : Reach step ok s₀ s' := by
  induction h' with
  | refl => exact h
  | step _ ho hs ih => exact .step ih ho hs

/-- A run of admissible events reaches its last state. -/
theorem of_run {es : List ε} (hok : RunOk step ok s₀ es) (hr : runEvents step s₀ es = some s) :
    Reach step ok s₀ s := by
  induction es generalizing s₀ with
  | nil => cases hr; exact .refl
  | cons e es ih =>
    simp only [runEvents, Option.bind_eq_some_iff] at hr
    obtain ⟨s₁, h1, h2⟩ := hr
    exact (Reach.step .refl hok.1 h1).trans (ih (hok.2 s₁ h1) h2)

end Reach

end Usbmidi9
