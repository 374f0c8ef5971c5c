/-
  Canonical prefix codes.

  The symbols of a finite set are ordered by the lengths of their codes, and by
  themselves where these agree.  The code of a symbol counts, in units of its own
  length, what the symbols before it take up (`canonicalCode`); a codeword is the code
  with the most significant bit first (`codeword`).

  * `codeword_prefixFree`: if the lengths satisfy the inequality of Kraft, no codeword
    is a prefix of another one;
  * `exists_codeword`: if they satisfy it with equality, every long enough list of bits
    begins with a codeword.
-/
import Usbmidi9.Lib.Bits

namespace Usbmidi9

/-! ## Canonical codes -/

section
variable {ι : Type*} [LinearOrder ι] (s : Finset ι) (len : ι → ℕ)

/-- `j` is assigned its code before `i`. -/
def CodeBefore (j i : ι) : Prop := len j < len i ∨ len j = len i ∧ j < i

instance (j i : ι) : Decidable (CodeBefore len j i) := inferInstanceAs (Decidable (_ ∨ _ ∧ _))

/-- The canonical code of a symbol. -/
def canonicalCode (i : ι) : ℕ := ∑ j ∈ s with CodeBefore len j i, 2 ^ (len i - len j)

/-- The code of a symbol as a list of bits. -/
def codeword (i : ι) : List Bool := msbBits (len i) (canonicalCode s len i)

/-- What the codes take up of the numbers of `M` bits. -/
def kraftSum (M : ℕ) : ℕ := ∑ j ∈ s, 2 ^ (M - len j)

@[simp] theorem length_codeword (i : ι) : (codeword s len i).length = len i := length_msbBits _ _

variable {s len} {i j : ι} {M : ℕ}

theorem CodeBefore.trans {k : ι} (h : CodeBefore len j i) (h' : CodeBefore len i k) :
    CodeBefore len j k := by
  rcases h with h | ⟨h, hi⟩ <;> rcases h' with h' | ⟨h', hi'⟩
  · exact .inl (h.trans h')
  · exact .inl (h'.symm ▸ h)
  · exact .inl (h ▸ h')
  · exact .inr ⟨h.trans h', hi.trans hi'⟩

theorem codeBefore_irrefl (i : ι) : ¬CodeBefore len i i := by
  rintro (h | ⟨-, h⟩)
  · exact lt_irrefl _ h
  · exact lt_irrefl _ h

theorem codeBefore_total (len : ι → ℕ) {i j : ι} (h : i ≠ j) : CodeBefore len i j ∨ CodeBefore len j i := by
  rcases lt_trichotomy (len i) (len j) with hl | hl | hl
  · exact .inl (.inl hl)
  · rcases lt_or_gt_of_ne h with hij | hij
    · exact .inl (.inr ⟨hl, hij⟩)
    · exact .inr (.inr ⟨hl.symm, hij⟩)
  · exact .inr (.inl hl)

theorem CodeBefore.len_le (h : CodeBefore len j i) : len j ≤ len i := by
  rcases h with h | ⟨h, -⟩
  · exact h.le
  · exact h.le

/-- The start of a code among the numbers of `M` bits. -/
theorem canonicalCode_mul (hM : len i ≤ M) :
    canonicalCode s len i * 2 ^ (M - len i) = ∑ j ∈ s with CodeBefore len j i, 2 ^ (M - len j) := by
  rw [canonicalCode, Finset.sum_mul]
  refine Finset.sum_congr rfl fun j hj => ?_
  have hle := (Finset.mem_filter.1 hj).2.len_le
  rw [← pow_add]
  congr 1
  omega

/-- The codes before `i` end where `i` starts; `i` ends where what follows may start. -/
theorem canonicalCode_end (hM : len i ≤ M) (t : Finset ι) (hmem : i ∈ t)
    (hall : ∀ j ∈ s, CodeBefore len j i → j ∈ t) :
    (canonicalCode s len i + 1) * 2 ^ (M - len i) ≤ ∑ j ∈ t, 2 ^ (M - len j) := by
  have hnot : i ∉ s.filter fun j => CodeBefore len j i := by
    simp only [Finset.mem_filter, not_and]
    exact fun _ => codeBefore_irrefl i
  rw [add_mul, one_mul, canonicalCode_mul hM, add_comm,
    ← Finset.sum_insert (f := fun j => 2 ^ (M - len j)) hnot]
  refine Finset.sum_le_sum_of_subset ?_
  intro j hj
  rcases Finset.mem_insert.1 hj with rfl | hj
  · exact hmem
  · exact hall j (Finset.mem_filter.1 hj).1 (Finset.mem_filter.1 hj).2

/-- **A code has the length of its symbol.** -/
theorem canonicalCode_lt (hk : kraftSum s len M ≤ 2 ^ M) (hi : i ∈ s) (hM : len i ≤ M) :
    canonicalCode s len i < 2 ^ len i := by
  have hend := canonicalCode_end hM s hi fun _ hj _ => hj
  have hle := hend.trans hk
  have hpow : 2 ^ M = 2 ^ len i * 2 ^ (M - len i) := by rw [← pow_add]; congr 1; omega
  rw [hpow] at hle
  exact Nat.le_of_mul_le_mul_right hle (Nat.two_pow_pos _)

/-- Codes do not overlap: the later one starts where the earlier one has ended. -/
theorem canonicalCode_apart (hi : i ∈ s) (hb : CodeBefore len i j) (hM : len j ≤ M) :
    (canonicalCode s len i + 1) * 2 ^ (M - len i) ≤ canonicalCode s len j * 2 ^ (M - len j) := by
  rw [canonicalCode_mul hM]
  refine canonicalCode_end (hb.len_le.trans hM) _ (Finset.mem_filter.2 ⟨hi, hb⟩) ?_
  intro k hk hki
  exact Finset.mem_filter.2 ⟨hk, hki.trans hb⟩

/-- **No codeword is a prefix of another one.** -/
theorem codeword_prefixFree (hk : kraftSum s len M ≤ 2 ^ M) (hi : i ∈ s) (hj : j ∈ s)
    (hM : len j ≤ M) (hpre : codeword s len i <+: codeword s len j) : i = j := by
  by_contra hne
  have hle : len i ≤ len j := by simpa using hpre.length_le
  obtain ⟨d, hd⟩ := Nat.exists_eq_add_of_le hle
  -- the shorter code is the upper part of the longer one
  have hquot : canonicalCode s len i = canonicalCode s len j / 2 ^ d := by
    have hlt := canonicalCode_lt hk hj hM
    have hsplit : codeword s len j = msbBits (len i) (canonicalCode s len j / 2 ^ d) ++
        msbBits d (canonicalCode s len j) := by rw [codeword, hd, msbBits_add]
    have heq : codeword s len i = msbBits (len i) (canonicalCode s len j / 2 ^ d) := by
      have h₁ := List.prefix_iff_eq_take.1 hpre
      rw [hsplit, length_codeword, List.take_left' (length_msbBits _ _)] at h₁
      exact h₁
    refine msbBits_inj (canonicalCode_lt hk hi (hle.trans hM)) ?_ heq
    rw [Nat.div_lt_iff_lt_mul (Nat.two_pow_pos d), ← pow_add, ← hd]
    exact hlt
  have hlow : canonicalCode s len i * 2 ^ d ≤ canonicalCode s len j := by
    rw [hquot]; exact Nat.div_mul_le_self _ _
  have hhigh : canonicalCode s len j < (canonicalCode s len i + 1) * 2 ^ d := by
    rw [hquot, ← Nat.div_lt_iff_lt_mul (Nat.two_pow_pos d)]; exact Nat.lt_succ_self _
  rcases codeBefore_total len hne with hb | hb
  · have happart := canonicalCode_apart hi hb le_rfl
    rw [Nat.sub_self, pow_zero, mul_one, hd, Nat.add_sub_cancel_left] at happart
    omega
  · have heq : len i = len j := le_antisymm hle hb.len_le
    have happart := canonicalCode_apart hj hb hle
    rw [heq, Nat.sub_self, pow_zero, mul_one, mul_one] at happart
    obtain rfl : d = 0 := by omega
    omega

/-- The numbers of `M` bits that begin with the code of `i`. -/
def codeBlock (s : Finset ι) (len : ι → ℕ) (M : ℕ) (i : ι) : Finset ℕ :=
  Finset.Ico (canonicalCode s len i * 2 ^ (M - len i)) ((canonicalCode s len i + 1) * 2 ^ (M - len i))

theorem codeBlock_disjoint (hlen : ∀ i ∈ s, len i ≤ M) :
    (s : Set ι).PairwiseDisjoint (codeBlock s len M) := by
  have hbefore : ∀ {i j : ι}, i ∈ s → j ∈ s → CodeBefore len i j →
      Disjoint (codeBlock s len M i) (codeBlock s len M j) := by
    intro i j hi hj hb
    rw [Finset.disjoint_left]
    intro x hx hx'
    have happart := canonicalCode_apart hi hb (hlen j hj)
    exact absurd ((Finset.mem_Ico.1 hx).2.trans_le happart) (not_lt.2 (Finset.mem_Ico.1 hx').1)
  intro i hi j hj hne
  rcases codeBefore_total len hne with hb | hb
  · exact hbefore hi hj hb
  · exact (hbefore hj hi hb).symm

/-- **With equality, the codes cover all numbers.** -/
theorem exists_codeBlock (hk : kraftSum s len M = 2 ^ M) (hlen : ∀ i ∈ s, len i ≤ M) {x : ℕ}
    (hx : x < 2 ^ M) : ∃ i ∈ s, x ∈ codeBlock s len M i := by
  have hsub : s.biUnion (codeBlock s len M) ⊆ Finset.range (2 ^ M) := by
    intro y hy
    obtain ⟨i, hi, hyi⟩ := Finset.mem_biUnion.1 hy
    have hend := canonicalCode_end (hlen i hi) s hi fun _ hj _ => hj
    exact Finset.mem_range.2 ((Finset.mem_Ico.1 hyi).2.trans_le (hend.trans hk.le))
  have hcard : (s.biUnion (codeBlock s len M)).card = 2 ^ M := by
    rw [Finset.card_biUnion (codeBlock_disjoint hlen), ← hk]
    refine Finset.sum_congr rfl fun i _ => ?_
    rw [codeBlock, Nat.card_Ico, add_mul, one_mul, Nat.add_sub_cancel_left]
  have hall := Finset.eq_of_subset_of_card_le hsub (by rw [hcard, Finset.card_range])
  exact Finset.mem_biUnion.1 (hall ▸ Finset.mem_range.2 hx)

/-- **With equality, every long enough list of bits begins with a codeword.** -/
theorem exists_codeword (hk : kraftSum s len M = 2 ^ M) (hlen : ∀ i ∈ s, len i ≤ M) {l : List Bool}
    (hl : M ≤ l.length) : ∃ i ∈ s, codeword s len i <+: l := by
  obtain ⟨x, hx, hbits⟩ := exists_msbBits (l.take M)
  rw [List.length_take, Nat.min_eq_left hl] at hx hbits
  obtain ⟨i, hi, hmem⟩ := exists_codeBlock hk hlen hx
  obtain ⟨hlow, hhigh⟩ := Finset.mem_Ico.1 hmem
  have hquot : x / 2 ^ (M - len i) = canonicalCode s len i := by
    refine Nat.div_eq_of_lt_le hlow ?_
    exact hhigh
  refine ⟨i, hi, List.IsPrefix.trans ?_ (List.take_prefix M l)⟩
  refine ⟨msbBits (M - len i) x, ?_⟩
  rw [codeword, ← hquot, ← msbBits_add, Nat.add_sub_cancel' (hlen i hi), hbits]

end

end Usbmidi9
