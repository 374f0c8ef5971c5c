/-
  What goes into a buffer and comes out of it.

  `Flow` is what one step does with a buffer that holds a list: it may drop what is held,
  then it takes some elements in and gives some out, each in order.  An `Account` has what
  was taken and given since something was last dropped.  It is balanced if what was taken
  is what was given, followed by what is held.

  If the step is balanced by itself, an account that is kept along a run stays balanced
  (`Account.Balanced.along`).
-/
import Usbmidi9.Lib.Reach

namespace Usbmidi9

variable {σ ε α : Type*}

/-- What one step does with a buffer. -/
structure Flow (α : Type*) where
  dropped : Bool
  taken : List α
  given : List α

/-- The step neither loses nor reorders anything but what it drops. -/
def Flow.Balanced (f : Flow α) (held held' : List α) : Prop :=
  (if f.dropped then [] else held) ++ f.taken = f.given ++ held'

/-- What was taken and given. -/
structure Account (α : Type*) where
  taken : List α
  given : List α
deriving DecidableEq, Repr

namespace Account

def empty : Account α := ⟨[], []⟩

/-- Enter a step; with what is dropped the account begins anew. -/
def add (a : Account α) (f : Flow α) : Account α :=
  let a := if f.dropped then empty else a
  ⟨a.taken ++ f.taken, a.given ++ f.given⟩

/-- The account at the end of a run. -/
def along (step : σ → ε → Option σ) (flow : σ → ε → σ → Flow α) :
    Account α → σ → List ε → Account α
  | a, _, [] => a
  | a, s, e :: es =>
    match step s e with
    | none => a
    | some s' => along step flow (a.add (flow s e s')) s' es

/-- What was taken was given or is held. -/
def Balanced (a : Account α) (held : List α) : Prop := a.taken = a.given ++ held

theorem balanced_empty : (empty : Account α).Balanced [] := rfl

theorem Balanced.add {a : Account α} {f : Flow α} {held held' : List α} (h : a.Balanced held)
    (hf : f.Balanced held held') : (a.add f).Balanced held' := by
  unfold Flow.Balanced at hf
  unfold Balanced at h ⊢
  cases hd : f.dropped with
  | false =>
    simp only [Account.add, hd, Bool.false_eq_true, if_false] at hf ⊢
    rw [h, List.append_assoc, hf, List.append_assoc]
  | true =>
    simp only [Account.add, hd, if_true, empty, List.nil_append] at hf ⊢
    exact hf

/-- **Balanced along a run**, if an invariant makes every step balanced. -/
theorem Balanced.along {step : σ → ε → Option σ} {flow : σ → ε → σ → Flow α} {I : σ → Prop}
    {held : σ → List α} (hI : ∀ s e s', I s → step s e = some s' → I s')
    (hflow : ∀ s e s', I s → step s e = some s' → (flow s e s').Balanced (held s) (held s'))
    {es : List ε} {s s' : σ} (hs : I s) (hrun : runEvents step s es = some s') {a : Account α}
    (h : a.Balanced (held s)) : (a.along step flow s es).Balanced (held s') := by
  induction es generalizing s a with
  | nil => exact Option.some.inj hrun ▸ h
  | cons e es ih =>
    obtain ⟨s₁, he, hrest⟩ := Option.bind_eq_some_iff.1 hrun
    have halong : a.along step flow s (e :: es) = (a.add (flow s e s₁)).along step flow s₁ es := by
      rw [Account.along, he]
    rw [halong]
    exact ih (hI s e s₁ hs he) hrest (h.add (hflow s e s₁ hs he))

end Account

end Usbmidi9
