/-
  Properties of the entries of a trace, given the entries before them.

  `Each P l` says that `P` holds of every entry of `l` and what precedes it;
  `Each.concat` is its rule for one more entry, `Each.append` for several.
-/
import Mathlib

namespace Usbmidi9

variable {ε : Type*}

/-- Every entry satisfies `P` together with the entries before it. -/
def Each (P : List ε → ε → Prop) (l : List ε) : Prop :=
  ∀ pre e post, l = pre ++ e :: post → P pre e

namespace Each
variable {P : List ε → ε → Prop} {l : List ε}

theorem nil : Each P [] := fun pre e post h => by
  simp at h

theorem concat (h : Each P l) {e : ε} (he : P l e) : Each P (l ++ [e]) := by
  intro pre e' post heq
  rcases List.eq_nil_or_concat post with rfl | ⟨post', e'', rfl⟩
  · obtain ⟨rfl, hlast⟩ := List.append_inj' heq rfl
    obtain rfl := List.singleton_inj.1 hlast
    exact he
  · have hsplit : l ++ [e] = (pre ++ e' :: post') ++ [e''] := by simpa using heq
    obtain ⟨hl, -⟩ := List.append_inj' hsplit rfl
    exact h pre e' post' hl

/-- The entries of a shorter trace. -/
theorem left {es : List ε} (h : Each P (l ++ es)) : Each P l := by
  rintro pre e post rfl
  exact h pre e (post ++ es) (by simp)

/-- Several more entries. -/
theorem append (h : Each P l) {es : List ε} (hes : Each (fun pre e => P (l ++ pre) e) es) :
    Each P (l ++ es) := by
  induction es using List.reverseRecOn with
  | nil => simpa using h
  | append_singleton es e ih =>
    rw [← List.append_assoc]
    exact (ih hes.left).concat (hes es e [] rfl)

/-- A weaker property, for entries of this trace. -/
theorem imp (h : Each P l) {Q : List ε → ε → Prop}
    (hpq : ∀ pre e, (∀ e' ∈ pre, e' ∈ l) → e ∈ l → P pre e → Q pre e) : Each Q l := by
  rintro pre e post rfl
  exact hpq pre e (fun _ he => List.mem_append_left _ he) (by simp) (h pre e post rfl)

/-- Entries each of which satisfies `P` after any others of them. -/
theorem of_mem (h : ∀ pre e, (∀ e' ∈ pre, e' ∈ l) → e ∈ l → P pre e) : Each P l := by
  rintro pre e post rfl
  exact h pre e (fun _ he => List.mem_append_left _ he) (by simp)

end Each

end Usbmidi9
