/-
  Parts of a list that stand at an offset.

  `placed_cons` and `placed_append` take a part apart, so that what a parser reads one
  after another becomes one part.
-/
import Mathlib

namespace Usbmidi9

variable {α : Type} {l part part' : List α} {off : ℕ} {a : α}

/-- `part` stands at `off`. -/
def Placed (l : List α) (off : ℕ) (part : List α) : Prop := part <+: l.drop off

@[simp] theorem placed_nil : Placed l off [] := List.nil_prefix

theorem placed_cons : Placed l off (a :: part) ↔ l[off]? = some a ∧ Placed l (off + 1) part := by
  have hget : l[off]? = (l.drop off)[0]? := by simp
  have hrest : l.drop (off + 1) = (l.drop off).drop 1 := List.drop_drop.symm
  rw [Placed, Placed, hget, hrest]
  rcases l.drop off with - | ⟨x, rest⟩
  · simp
  · simp [List.cons_prefix_cons, eq_comm]

theorem placed_append :
    Placed l off (part ++ part') ↔ Placed l off part ∧ Placed l (off + part.length) part' := by
  induction part generalizing off with
  | nil => simp
  | cons x part ih =>
    have hadd : off + 1 + part.length = off + (x :: part).length := by
      rw [List.length_cons]
      omega
    rw [List.cons_append, placed_cons, placed_cons, ih, hadd, and_assoc]

/-- Something that is there is a part of the list. -/
theorem Placed.le (h : Placed l off part) (hne : part ≠ []) : off + part.length ≤ l.length := by
  have hlen := h.length_le
  have hpos := List.length_pos_of_ne_nil hne
  rw [List.length_drop] at hlen
  omega

theorem placed_iff_slice :
    Placed l off part ↔ (l.take (off + part.length)).drop off = part := by
  rw [Placed, List.prefix_iff_eq_take, List.drop_take, Nat.add_sub_cancel_left, eq_comm]

end Usbmidi9
