/-
  The last index at which a search finds something.

  `lastSome f lo n` goes through the `n` indices from `lo` on, from the highest down, and
  stops where `f` finds something.  `LastIn P lo hi i` says that `i` is the last index from
  `lo` on and below `hi` that satisfies `P`.

  A search that takes more for a find than another one agrees with it, unless it stops at
  an index where the other finds nothing (`lastSome_eq_iff`).
-/
import Mathlib

namespace Usbmidi9

variable {β : Type*}

/-- What `f` finds at the last of the indices `lo`, …, `lo + n - 1`. -/
def lastSome (f : ℕ → Option β) (lo : ℕ) : ℕ → Option β
  | 0 => none
  | n + 1 => (f (lo + n)).or (lastSome f lo n)

/-- The last index of a range that satisfies `P`. -/
def LastIn (P : ℕ → Prop) (lo hi i : ℕ) : Prop := IsGreatest {i | i ∈ Set.Ico lo hi ∧ P i} i

theorem LastIn.unique {P : ℕ → Prop} {lo hi i j : ℕ} (hi' : LastIn P lo hi i)
    (hj : LastIn P lo hi j) : i = j := IsGreatest.unique hi' hj

theorem LastIn.congr {P Q : ℕ → Prop} {lo hi i : ℕ} (h : ∀ i, P i ↔ Q i) :
    LastIn P lo hi i ↔ LastIn Q lo hi i := by
  obtain rfl : P = Q := funext fun i => propext (h i)
  exact Iff.rfl

variable {f g : ℕ → Option β} {lo n : ℕ} {b : β}

theorem lastSome_eq_none :
    lastSome f lo n = none ↔ ∀ i ∈ Set.Ico lo (lo + n), f i = none := by
  induction n with
  | zero => simp [lastSome]
  | succ n ih =>
    rw [lastSome, Option.or_eq_none_iff, ih]
    constructor
    · rintro ⟨hlast, hrest⟩ i ⟨hlo, hhi⟩
      by_cases hi : i = lo + n
      · rw [hi, hlast]
      · exact hrest i ⟨hlo, by omega⟩
    · intro hall
      refine ⟨hall _ ⟨by omega, by omega⟩, ?_⟩
      rintro i ⟨hlo, hhi⟩
      exact hall i ⟨hlo, by omega⟩

/-- The search stops at the last find. -/
theorem lastSome_eq_some :
    lastSome f lo n = some b ↔ ∃ i, LastIn (fun i => f i ≠ none) lo (lo + n) i ∧ f i = some b := by
  induction n with
  | zero =>
    simp only [lastSome, reduceCtorEq, false_iff, not_exists]
    rintro i ⟨⟨⟨⟨hlo, hhi⟩, -⟩, -⟩, -⟩
    omega
  | succ n ih =>
    rw [lastSome, Option.or_eq_some_iff, ih]
    constructor
    · rintro (hlast | ⟨hnone, i, ⟨⟨⟨hlo, hhi⟩, hfind⟩, hmax⟩, hb⟩)
      · refine ⟨lo + n, ⟨⟨⟨by omega, by omega⟩, by simp [hlast]⟩, ?_⟩, hlast⟩
        rintro j ⟨⟨-, hj⟩, -⟩
        omega
      · refine ⟨i, ⟨⟨⟨hlo, by omega⟩, hfind⟩, ?_⟩, hb⟩
        rintro j ⟨⟨hjlo, hjhi⟩, hj⟩
        have hne : j ≠ lo + n := by
          rintro rfl
          exact hj hnone
        exact hmax ⟨⟨hjlo, by omega⟩, hj⟩
    · rintro ⟨i, ⟨⟨⟨hlo, hhi⟩, hfind⟩, hmax⟩, hb⟩
      by_cases hi : i = lo + n
      · subst hi
        exact .inl hb
      · refine .inr ⟨?_, i, ⟨⟨⟨hlo, by omega⟩, hfind⟩, ?_⟩, hb⟩
        · by_contra hlast
          have hle : lo + n ≤ i := hmax ⟨⟨by omega, by omega⟩, hlast⟩
          omega
        · rintro j ⟨⟨hjlo, hjhi⟩, hj⟩
          exact hmax ⟨⟨hjlo, by omega⟩, hj⟩

/-- **When a search that finds more agrees**: wherever it stops and the other one finds
    nothing, the other's last find is the same. -/
theorem lastSome_eq_iff (h : ∀ i b, g i = some b → f i = some b) :
    lastSome f lo n = lastSome g lo n ↔
      ∀ i b, LastIn (fun i => f i ≠ none) lo (lo + n) i → f i = some b → g i = none →
        lastSome g lo n = some b := by
  constructor
  · intro heq i b hlast hb _
    rw [← heq]
    exact lastSome_eq_some.2 ⟨i, hlast, hb⟩
  · intro hall
    rcases hf : lastSome f lo n with _ | b
    · refine (lastSome_eq_none.2 ?_).symm
      intro i hi
      have hnone := lastSome_eq_none.1 hf i hi
      by_contra hg
      obtain ⟨b, hb⟩ := Option.ne_none_iff_exists'.1 hg
      rw [h i b hb] at hnone
      cases hnone
    · obtain ⟨i, hlast, hb⟩ := lastSome_eq_some.1 hf
      rcases hg : g i with _ | b'
      · exact (hall i b hlast hb hg).symm
      · obtain rfl : b' = b := Option.some.inj ((h i b' hg).symm.trans hb)
        refine (lastSome_eq_some.2 ⟨i, ⟨⟨hlast.1.1, by simp [hg]⟩, ?_⟩, hg⟩).symm
        rintro j ⟨hj, hfind⟩
        obtain ⟨c, hc⟩ := Option.ne_none_iff_exists'.1 hfind
        exact hlast.2 ⟨hj, by simp [h j c hc]⟩

end Usbmidi9
