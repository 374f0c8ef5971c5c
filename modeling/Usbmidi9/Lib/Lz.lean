/-
  Literals and matches.

  A match copies what was written some distance back, one element after the other, so
  that it may copy what it has just written.  `lzExpand` is what a list of tokens
  writes; the tokens are sound if no match reaches back before the beginning.

  `lzCopy_take`: a match whose elements are those of a text extends a prefix of the text.
-/
import Mathlib

namespace Usbmidi9

variable {α : Type*}

inductive LzToken (α : Type*) where
  | literal (a : α)
  | copy (length dist : ℕ)
deriving DecidableEq, Repr

/-- Copy `n` elements from `dist` back. -/
def lzCopy (dist : ℕ) : ℕ → List α → List α
  | 0, out => out
  | n + 1, out => lzCopy dist n (out ++ out[out.length - dist]?.toList)

/-- What is written after a token. -/
def LzToken.expand (out : List α) : LzToken α → List α
  | .literal a => out ++ [a]
  | .copy length dist => lzCopy dist length out

/-- What is written after some tokens. -/
def lzExpand (out : List α) (ts : List (LzToken α)) : List α := ts.foldl LzToken.expand out

/-- A match does not reach back before the beginning. -/
def LzToken.Ok (out : List α) : LzToken α → Prop
  | .literal _ => True
  | .copy _ dist => 1 ≤ dist ∧ dist ≤ out.length

/-- No match of the tokens does. -/
def LzOk : List α → List (LzToken α) → Prop
  | _, [] => True
  | out, t :: ts => t.Ok out ∧ LzOk (t.expand out) ts

instance (out : List α) : (t : LzToken α) → Decidable (t.Ok out)
  | .literal _ => isTrue trivial
  | .copy _ _ => inferInstanceAs (Decidable (_ ∧ _))

instance decidableLzOk : ∀ (out : List α) ts, Decidable (LzOk out ts)
  | _, [] => isTrue trivial
  | out, t :: ts =>
    have := decidableLzOk (t.expand out) ts
    inferInstanceAs (Decidable (_ ∧ _))

theorem prefix_lzCopy (dist n : ℕ) (out : List α) : out <+: lzCopy dist n out := by
  induction n generalizing out with
  | zero => exact List.prefix_rfl
  | succ n ih => exact (List.prefix_append _ _).trans (ih _)

theorem LzToken.prefix_expand (out : List α) (t : LzToken α) : out <+: t.expand out := by
  cases t with
  | literal a => exact List.prefix_append _ _
  | copy length dist => exact prefix_lzCopy dist length out

/-- What is written stays. -/
theorem prefix_lzExpand (out : List α) (ts : List (LzToken α)) : out <+: lzExpand out ts := by
  induction ts generalizing out with
  | nil => exact List.prefix_rfl
  | cons t ts ih => exact (t.prefix_expand out).trans (ih _)

/-- **A match with a text** extends its prefix. -/
theorem lzCopy_take {text : List α} {dist n pos : ℕ} (h1 : 1 ≤ dist) (hd : dist ≤ pos)
    (hn : pos + n ≤ text.length)
    (hmatch : ∀ k < n, text[pos - dist + k]? = text[pos + k]?) :
    lzCopy dist n (text.take pos) = text.take (pos + n) := by
  induction n generalizing pos with
  | zero => rfl
  | succ n ih =>
    have hlen : (text.take pos).length = pos := by rw [List.length_take]; omega
    have hbyte : (text.take pos)[(text.take pos).length - dist]? = text[pos]? := by
      rw [hlen, List.getElem?_take_of_lt (by omega)]
      exact hmatch 0 (Nat.succ_pos n)
    rw [lzCopy, hbyte, ← List.take_add_one, ih (by omega) (by omega), Nat.add_right_comm, Nat.add_assoc]
    intro k hk
    have hnext := hmatch (k + 1) (by omega)
    rw [show pos + 1 - dist + k = pos - dist + (k + 1) by omega, hnext]
    congr 1
    omega

end Usbmidi9
