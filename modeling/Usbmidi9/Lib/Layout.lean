/-
  Blocks that are placed one behind the other.

  Each block gets a slot, its size rounded up to a multiple of `a`, so that `start` is the
  sum of the slots before.  In a space of `M` addresses, where the last is followed by the
  first, the blocks are apart exactly if each that is not empty ends within `M`
  (`apart_iff`).
-/
import Mathlib

namespace Usbmidi9

namespace Layout
variable (a : ℕ) (sizes : List ℕ)

/-- The slot of a block of `n`. -/
def slot (n : ℕ) : ℕ := (n + (a - 1)) / a * a

/-- Where the block `i` starts. -/
def start (i : ℕ) : ℕ := ((sizes.take i).map (slot a)).sum

/-! ## Slots -/

variable {a sizes} (ha : 0 < a)
include ha

theorem le_slot (n : ℕ) : n ≤ slot a n := by
  have hdiv := Nat.div_add_mod (n + (a - 1)) a
  have hmod := Nat.mod_lt (n + (a - 1)) ha
  rw [Nat.mul_comm] at hdiv
  unfold slot
  omega

theorem slot_lt (n : ℕ) : slot a n < n + a := by
  have hdiv := Nat.div_mul_le_self (n + (a - 1)) a
  unfold slot
  omega

omit ha in
theorem dvd_slot (n : ℕ) : a ∣ slot a n := Nat.dvd_mul_left _ _

/-- A multiple of `a` in a slot is in its block. -/
theorem lt_of_lt_slot {r n : ℕ} (hr : a ∣ r) (h : r < slot a n) : r < n := by
  have hnext : r + a ≤ slot a n := by
    obtain ⟨k, rfl⟩ := hr
    obtain ⟨m, hm⟩ := dvd_slot (a := a) n
    rw [hm] at h ⊢
    have hk : k + 1 ≤ m := Nat.lt_of_mul_lt_mul_left h
    calc a * k + a = a * (k + 1) := (Nat.mul_succ a k).symm
      _ ≤ a * m := Nat.mul_le_mul_left a hk
  have hlt := slot_lt ha n
  omega

/-! ## Starts -/

omit ha

theorem start_zero : start a sizes 0 = 0 := rfl

theorem start_cons (n i : ℕ) :
    start a (n :: sizes) (i + 1) = slot a n + start a sizes i := by
  unfold start
  rw [List.take_succ_cons, List.map_cons, List.sum_cons]

theorem start_succ {i : ℕ} (hi : i < sizes.length) :
    start a sizes (i + 1) = start a sizes i + slot a sizes[i] := by
  unfold start
  rw [List.take_succ_eq_append_getElem hi, List.map_append, List.sum_append, List.map_singleton,
    List.sum_singleton]

theorem start_mono {i j : ℕ} (hij : i ≤ j) (hj : j ≤ sizes.length) :
    start a sizes i ≤ start a sizes j := by
  induction j, hij using Nat.le_induction with
  | base => exact le_rfl
  | succ j _ ih =>
    rw [start_succ (by omega)]
    exact (ih (by omega)).trans (Nat.le_add_right _ _)

theorem dvd_start (i : ℕ) : a ∣ start a sizes i := by
  refine List.dvd_sum fun n hn => ?_
  obtain ⟨m, -, rfl⟩ := List.mem_map.1 hn
  exact dvd_slot m

include ha

/-- **A block ends before the next one starts.** -/
theorem end_le_start {i j : ℕ} (hij : i < j) (hj : j ≤ sizes.length) :
    start a sizes i + sizes[i] ≤ start a sizes j := by
  have hsucc : start a sizes (i + 1) = start a sizes i + slot a sizes[i] := start_succ (by omega)
  have hmono : start a sizes (i + 1) ≤ start a sizes j := start_mono hij hj
  have hfit := le_slot ha sizes[i]
  omega

/-- A multiple of `a` before a start is in a block. -/
theorem exists_block {r i : ℕ} (hr : a ∣ r) (hi : i ≤ sizes.length) (h : r < start a sizes i) :
    ∃ j, ∃ hj : j < sizes.length, j < i ∧ start a sizes j ≤ r ∧
      r < start a sizes j + sizes[j] := by
  induction i with
  | zero => cases h
  | succ i ih =>
    by_cases hlt : r < start a sizes i
    · obtain ⟨j, hj, hji, hr'⟩ := ih (by omega) hlt
      exact ⟨j, hj, by omega, hr'⟩
    · have hle := not_lt.1 hlt
      rw [start_succ (by omega)] at h
      have hoff : r - start a sizes i < sizes[i] :=
        lt_of_lt_slot ha (Nat.dvd_sub hr (dvd_start i)) (by omega)
      exact ⟨i, by omega, by omega, hle, by omega⟩

/-! ## A space of `M` addresses -/

omit ha

/-- No address belongs to two blocks, if the first starts at `base`. -/
def Apart (a M base : ℕ) (sizes : List ℕ) : Prop :=
  ∀ i j (hi : i < sizes.length) (hj : j < sizes.length), i ≠ j → ∀ o < sizes[i], ∀ o' < sizes[j],
    (base + start a sizes i + o) % M ≠ (base + start a sizes j + o') % M

theorem add_mod_eq_iff {M base x y : ℕ} : (base + x) % M = (base + y) % M ↔ x % M = y % M :=
  ⟨Nat.ModEq.add_left_cancel' base, Nat.ModEq.add_left base⟩

include ha

/-- An address in a block that does not end within the space is in an earlier block, too. -/
theorem exists_overlap {M i : ℕ} (hM : a ∣ M) (hi : i < sizes.length) (hfit : sizes[i] ≤ M)
    (hpos : 0 < sizes[i]) (hout : M < start a sizes i + sizes[i]) :
    ∃ o < sizes[i], ∃ j, ∃ hj : j < sizes.length, j < i ∧ ∃ o' < sizes[j],
      (start a sizes i + o) % M = (start a sizes j + o') % M := by
  -- the first multiple of `a` in the block that is not below `M`
  obtain ⟨o, ho, hdvd, hbelow⟩ : ∃ o < sizes[i], a ∣ start a sizes i + o ∧
      (start a sizes i + o) % M < start a sizes i := by
    by_cases hstart : M ≤ start a sizes i
    · refine ⟨0, hpos, dvd_start i, ?_⟩
      exact (Nat.mod_lt _ (hpos.trans_le hfit)).trans_le hstart
    · have hsum : start a sizes i + (M - start a sizes i) = M := by omega
      refine ⟨M - start a sizes i, by omega, ?_, ?_⟩
      · rwa [hsum]
      · rw [hsum, Nat.mod_self]
        omega
  obtain ⟨j, hj, hji, hle, hlt⟩ :=
    exists_block ha ((Nat.dvd_mod_iff hM).2 hdvd) hi.le hbelow
  refine ⟨o, ho, j, hj, hji, (start a sizes i + o) % M - start a sizes j, by omega, ?_⟩
  rw [Nat.add_sub_of_le hle, Nat.mod_mod]

/-- **Blocks are apart** exactly if every block that is not empty ends within the space. -/
theorem apart_iff {M base : ℕ} (hM : a ∣ M) (hsizes : ∀ n ∈ sizes, n ≤ M) :
    Apart a M base sizes ↔
      ∀ i (hi : i < sizes.length), 0 < sizes[i] → start a sizes i + sizes[i] ≤ M := by
  constructor
  · intro h i hi hpos
    by_contra hout
    obtain ⟨o, ho, j, hj, hji, o', ho', heq⟩ :=
      exists_overlap ha hM hi (hsizes _ (List.getElem_mem hi)) hpos (not_le.1 hout)
    refine h i j hi hj hji.ne' o ho o' ho' ?_
    rw [Nat.add_assoc, Nat.add_assoc]
    exact add_mod_eq_iff.2 heq
  · intro h i j hi hj hij o ho o' ho' heq
    rw [Nat.add_assoc, Nat.add_assoc, add_mod_eq_iff] at heq
    have hend := h i hi (by omega)
    have hend' := h j hj (by omega)
    rw [Nat.mod_eq_of_lt (by omega), Nat.mod_eq_of_lt (by omega)] at heq
    rcases lt_or_gt_of_ne hij with hlt | hlt
    · have hsep := end_le_start ha hlt hj.le
      omega
    · have hsep := end_le_start ha hlt hi.le
      omega

end Layout

end Usbmidi9
