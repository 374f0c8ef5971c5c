/-
  Windows of a circular memory.

  A circular buffer of `size` slots keeps its entries in the slots
  `h, h + 1, …, h + n - 1` modulo `size`; `window get size h n` lists them.
  `fill` writes consecutive slots, wrapping at the end.  A window of at most
  `size` slots is extended on the right by filling the slots that follow it
  (`window_fill`), and shortened on the left by moving `h` (`window_drop`).
-/
import Mathlib

namespace Usbmidi9

variable {α : Type*}

/-- The `n` entries from counter `h` on. -/
def window (get : ℕ → α) (size h n : ℕ) : List α :=
  (List.range n).map fun i => get ((h + i) % size)

/-- Write consecutive slots from counter `t` on. -/
def fill (get : ℕ → α) (size t : ℕ) : List α → ℕ → α
  | [] => get
  | x :: xs => fill (Function.update get (t % size) x) size (t + 1) xs

section
variable (get : ℕ → α) (size : ℕ)

@[simp] theorem length_window (h n : ℕ) : (window get size h n).length = n := by
  simp [window]

@[simp] theorem window_zero (h : ℕ) : window get size h 0 = [] := rfl

@[simp] theorem window_one (h : ℕ) : window get size h 1 = [get (h % size)] := by
  simp [window]

theorem window_add (h a b : ℕ) :
    window get size h (a + b) = window get size h a ++ window get size (h + a) b := by
  simp [window, List.range_add, Function.comp_def, Nat.add_assoc]

theorem window_succ (h n : ℕ) :
    window get size h (n + 1) = get (h % size) :: window get size (h + 1) n := by
  rw [Nat.add_comm n, window_add, window_one]; rfl

theorem window_take (h : ℕ) {k n : ℕ} (hk : k ≤ n) :
    (window get size h n).take k = window get size h k := by
  obtain ⟨b, rfl⟩ := Nat.exists_eq_add_of_le hk
  rw [window_add, List.take_left' (length_window ..)]

theorem window_drop (h : ℕ) {k n : ℕ} (hk : k ≤ n) :
    (window get size h n).drop k = window get size (h + k) (n - k) := by
  obtain ⟨b, rfl⟩ := Nat.exists_eq_add_of_le hk
  rw [window_add, List.drop_left' (length_window ..), Nat.add_sub_cancel_left]

/-- Only the counter's slot matters, so a counter may itself have wrapped. -/
theorem window_mod {m : ℕ} (hm : size ∣ m) (h n : ℕ) :
    window get size (h % m) n = window get size h n := by
  simp only [window]
  apply List.map_congr_left
  intro i _
  rw [Nat.add_mod, Nat.mod_mod_of_dvd _ hm, ← Nat.add_mod]

/-- A window short enough not to wrap is a run of consecutive slots. -/
theorem window_straight {h n : ℕ} (hn : h % size + n ≤ size) :
    window get size h n = (List.range n).map fun i => get (h % size + i) := by
  apply List.map_congr_left
  intro i hi
  rw [List.mem_range] at hi
  rw [← Nat.mod_add_mod, Nat.mod_eq_of_lt (by omega)]

end

theorem window_congr {get get' : ℕ → α} {size h n : ℕ}
    (he : ∀ i < n, get ((h + i) % size) = get' ((h + i) % size)) :
    window get size h n = window get' size h n :=
  List.map_congr_left fun i hi => he i (List.mem_range.1 hi)

/-- Distinct counters less than a revolution apart have distinct slots. -/
theorem slot_ne {size a b : ℕ} (hab : a < b) (hb : b < a + size) : a % size ≠ b % size := by
  intro he
  have h0 : (b - a) % size = 0 := Nat.sub_mod_eq_zero_of_mod_eq he.symm
  rw [Nat.mod_eq_of_lt (by omega)] at h0
  omega

/-- Filling leaves the slots outside the filled run alone. -/
theorem fill_other {size : ℕ} {xs : List α} {get : ℕ → α} {t a : ℕ}
    (h : ∀ j < xs.length, a % size ≠ (t + j) % size) :
    fill get size t xs (a % size) = get (a % size) := by
  induction xs generalizing get t with
  | nil => rfl
  | cons x xs ih =>
    rw [fill, ih fun j hj => by
      have := h (j + 1) (by simpa using hj)
      rwa [← Nat.add_assoc, Nat.add_right_comm] at this]
    exact Function.update_of_ne (h 0 (by simp)) _ _

/-- Reading back a filled run. -/
theorem window_fill_self {size : ℕ} {xs : List α} {get : ℕ → α} {t : ℕ} (hn : xs.length ≤ size) :
    window (fill get size t xs) size t xs.length = xs := by
  induction xs generalizing get t with
  | nil => rfl
  | cons x xs ih =>
    have hs : xs.length + 1 ≤ size := hn
    rw [List.length_cons, window_succ, fill, ih (by omega)]
    congr 1
    rw [fill_other fun j hj => slot_ne (by omega) (by omega), Function.update_self]

/-- **Appending.**  Filling the slots after a window appends to it, as long as
    everything fits into one revolution. -/
theorem window_fill {size n : ℕ} (xs : List α) {get : ℕ → α} {h : ℕ}
    (hn : n + xs.length ≤ size) :
    window (fill get size (h + n) xs) size h (n + xs.length) = window get size h n ++ xs := by
  rw [window_add, window_fill_self (by omega)]
  congr 1
  exact window_congr fun i hi =>
    fill_other fun j hj => slot_ne (by omega) (by omega)

/-- Filling in two runs. -/
theorem fill_append (size : ℕ) (xs ys : List α) (get : ℕ → α) (t : ℕ) :
    fill get size t (xs ++ ys) = fill (fill get size t xs) size (t + xs.length) ys := by
  induction xs generalizing get t with
  | nil => rfl
  | cons x xs ih =>
    rw [List.cons_append, fill, fill, ih, List.length_cons, Nat.add_assoc, Nat.add_comm 1]

/-- Filling starts at the counter's slot, so the counter may have wrapped. -/
theorem fill_mod {size m : ℕ} (hm : size ∣ m) {xs : List α} {get : ℕ → α} {t t' : ℕ}
    (h : t % m = t' % m) : fill get size t xs = fill get size t' xs := by
  induction xs generalizing get t t' with
  | nil => rfl
  | cons x xs ih =>
    have hs : t % size = t' % size := by
      rw [← Nat.mod_mod_of_dvd t hm, ← Nat.mod_mod_of_dvd t' hm, h]
    rw [fill, fill, hs]
    exact ih (by rw [Nat.add_mod, h, ← Nat.add_mod])

end Usbmidi9
