/-
  Additive updates of cells.

  A list of updates adds values to cells, as often as it likes to the same one.
  `assigned ws k` is what it adds to cell `k` altogether, and `read_foldl` says that this
  is what a store with cells has gained after the updates.
-/
import Mathlib

namespace Usbmidi9

section
variable {κ α : Type*} [DecidableEq κ] [AddCommMonoid α]

/-- The sum of the values for cell `k`. -/
def assigned (ws : List (κ × α)) (k : κ) : α := ((ws.filter (·.1 = k)).map Prod.snd).sum

@[simp] theorem assigned_nil (k : κ) : assigned ([] : List (κ × α)) k = 0 := rfl

theorem assigned_cons (w : κ × α) (ws : List (κ × α)) (k : κ) :
    assigned (w :: ws) k = (if w.1 = k then w.2 else 0) + assigned ws k := by
  unfold assigned
  by_cases h : w.1 = k
  · rw [List.filter_cons_of_pos (by simpa using h), List.map_cons, List.sum_cons, if_pos h]
  · rw [List.filter_cons_of_neg (by simpa using h), if_neg h, zero_add]

theorem assigned_eq_zero {ws : List (κ × α)} {k : κ} (h : ∀ w ∈ ws, w.1 ≠ k) :
    assigned ws k = 0 := by
  unfold assigned
  rw [List.filter_eq_nil_iff.2 fun w hw => by simpa using h w hw]
  rfl

/-- **What a store has gained**: `read` is one of its cells, and `inv` what an update keeps. -/
theorem read_foldl {σ : Type*} {step : σ → κ × α → σ} (read : σ → κ → α) (inv : σ → Prop) {k : κ}
    {ws : List (κ × α)}
    (hinv : ∀ s, ∀ w ∈ ws, inv s → inv (step s w))
    (hread : ∀ s, ∀ w ∈ ws, inv s → read (step s w) k = read s k + if w.1 = k then w.2 else 0)
    {s : σ} (hs : inv s) : read (ws.foldl step s) k = read s k + assigned ws k := by
  induction ws generalizing s with
  | nil => rw [List.foldl_nil, assigned_nil, add_zero]
  | cons w ws ih =>
    have hw : w ∈ w :: ws := List.mem_cons_self
    have htail := ih (fun s w hw => hinv s w (List.mem_cons_of_mem _ hw))
      (fun s w hw => hread s w (List.mem_cons_of_mem _ hw)) (hinv s w hw hs)
    rw [List.foldl_cons, htail, hread s w hw hs, assigned_cons, add_assoc]

end

end Usbmidi9
