/-
  USBMIDI9 — where sections are placed, and what pointers resolve to
  (`synthetic_bases` and `resolve_pointer` of `pefcheck/src/reloc.rs`).

  The running address has 64 bits, and the bases are its low 32 bits.  `syntheticBases_eq` gives
  them as sums of slots, and `resolvePointer_cases` says what the resolver finds.
  `placement_inverts_iff` is the condition on the lengths under which no two sections
  overlap and the resolver finds every address.
-/
import Usbmidi9.Lib.Layout
import Usbmidi9.Pef.Contents

namespace Usbmidi9

open Outcome

/-! ## Bases -/

/-- The lengths of the sections. -/
def Container.lengths (c : Container) : List ℕ := c.sections.map (·.totalLength.toNat)

/-- The running address at a section. -/
def Container.address (c : Container) (i : ℕ) : ℕ := syntheticBase0 + Layout.start 16 c.lengths i

/-- `synthetic_bases`, section by section. -/
def Container.bases (c : Container) : List UInt32 :=
  (List.range c.sections.length).map fun i => UInt32.ofNat (c.address i)

theorem and_not_15 {n : ℕ} (h : n < wordSize) : n &&& (wordSize - 1 - 15) = n / 16 * 16 := by
  have hmask : wordSize - 1 - 15 = (2 ^ 60 - 1) * 2 ^ 4 := by decide
  have hdiv : n / 16 * 16 = n / 2 ^ 4 * 2 ^ 4 := rfl
  rw [hmask, hdiv]
  refine Nat.eq_of_testBit_eq fun i => ?_
  rw [Nat.testBit_and, Nat.testBit_mul_two_pow, Nat.testBit_mul_two_pow, Nat.testBit_div_two_pow,
    Nat.testBit_two_pow_sub_one]
  by_cases hi : 4 ≤ i
  · rw [Nat.sub_add_cancel hi]
    by_cases hlt : i < 64
    · simp [hi, show i - 4 < 60 by omega]
    · have hhigh : n.testBit i = false := by
        refine Nat.testBit_lt_two_pow (h.trans_le ?_)
        exact Nat.pow_le_pow_right (by decide) (not_lt.1 hlt)
      simp [hhigh]
  · simp [hi]

theorem align16_eq {n : ℕ} (h : n + 15 ≤ isizeMax) : align16 n = .ok (Layout.slot 16 n) := by
  rw [align16, word_eq_of_le h, ok_bind, and_not_15 (lt_of_le_of_lt h (by decide))]
  rfl

theorem foldl_syntheticBase {sections : List PefSection} {cur : ℕ} {acc : List UInt32}
    (h : cur + sections.length * 2 ^ 33 ≤ isizeMax) :
    foldl syntheticBase sections (cur, acc) =
      .ok (cur + Layout.start 16 (sections.map (·.totalLength.toNat)) sections.length,
        acc ++ (List.range sections.length).map fun i =>
          UInt32.ofNat (cur + Layout.start 16 (sections.map (·.totalLength.toNat)) i)) := by
  have hmax := isizeMax_eq
  induction sections generalizing cur acc with
  | nil => simp [foldl, Layout.start_zero]
  | cons s sections ih =>
    rw [List.length_cons] at h
    have htotal := s.totalLength.toNat_lt
    have hslot : Layout.slot 16 s.totalLength.toNat < s.totalLength.toNat + 16 :=
      Layout.slot_lt (by decide) _
    have hstep : syntheticBase (cur, acc) s =
        .ok (cur + Layout.slot 16 s.totalLength.toNat, acc ++ [UInt32.ofNat cur]) := by
      rw [syntheticBase, align16_eq (by omega), ok_bind, word_eq_of_le (by omega), ok_bind]
    rw [foldl, hstep, ok_bind, ih (by omega)]
    simp only [List.map_cons, List.length_cons, List.range_succ_eq_map, List.map_map,
      Function.comp_def, Layout.start_cons, Layout.start_zero, Nat.add_assoc, Nat.add_zero,
      List.append_assoc, List.singleton_append, Nat.succ_eq_add_one]

theorem syntheticBases_eq {c : Container} (hc : c.Sound) : syntheticBases c = .ok c.bases := by
  have hmax := isizeMax_eq
  have hsections := hc.sections_length
  unfold syntheticBases
  rw [withCapacity_eq (by omega), ok_bind, foldl_syntheticBase (by unfold syntheticBase0; omega),
    ok_bind]
  rfl

section
variable {c : Container} {i : ℕ} {s : PefSection}

theorem length_lengths : c.lengths.length = c.sections.length := List.length_map _

theorem bases_getElem? (hi : i < c.sections.length) :
    c.bases[i]? = some (UInt32.ofNat (c.address i)) := by
  rw [Container.bases, List.getElem?_map, List.getElem?_range hi, Option.map_some]

theorem lengths_getElem (hs : c.sections[i]? = some s) (hi : i < c.lengths.length) :
    c.lengths[i] = s.totalLength.toNat := by
  obtain ⟨hlt, rfl⟩ := List.getElem?_eq_some_iff.1 hs
  exact List.getElem_map _

/-! ## The resolver -/

section
variable {bases : List UInt32} {w : UInt32} {k : ℕ} {sections : List PefSection}

/-- What `resolve_pointer` asks of section `i`. -/
def Hit (bases : List UInt32) (w : UInt32) (i : ℕ) (s : PefSection) : Prop :=
  bases[i]?.getD 0 ≤ w ∧ w - bases[i]?.getD 0 < s.totalLength

/-- The resolver finds the first section that is hit. -/
theorem resolvePointerFrom_hit {i : ℕ} (hs : sections[i]? = some s) (hit : Hit bases w (k + i) s)
    (hfirst : ∀ j < i, ∀ t, sections[j]? = some t → ¬Hit bases w (k + j) t) :
    resolvePointerFrom bases w k sections = ⟨w, k + i, w - bases[k + i]?.getD 0⟩ := by
  induction sections generalizing k i with
  | nil => cases hs
  | cons t rest ih =>
    unfold resolvePointerFrom
    cases i with
    | zero =>
      obtain rfl := Option.some.inj hs
      exact if_pos hit
    | succ i =>
      have hk : k + (i + 1) = k + 1 + i := by omega
      rw [hk] at hit ⊢
      refine (if_neg (hfirst 0 (Nat.succ_pos i) t rfl)).trans (ih hs hit ?_)
      intro j hj t' ht'
      have hnot := hfirst (j + 1) (by omega) t' ht'
      rwa [show k + (j + 1) = k + 1 + j by omega] at hnot

theorem resolvePointerFrom_miss (h : ∀ i t, sections[i]? = some t → ¬Hit bases w (k + i) t) :
    resolvePointerFrom bases w k sections = ⟨w, wordSize - 1, w⟩ := by
  induction sections generalizing k with
  | nil => rfl
  | cons t rest ih =>
    unfold resolvePointerFrom
    refine (if_neg (h 0 t rfl)).trans (ih ?_)
    intro i t' ht'
    have hnot := h (i + 1) t' ht'
    rwa [show k + (i + 1) = k + 1 + i by omega] at hnot

end

/-- The word `w` is in the range of section `i`. -/
def Container.Covers (c : Container) (i : ℕ) (w : UInt32) : Prop :=
  ∃ s b, c.sections[i]? = some s ∧ c.bases[i]? = some b ∧ b ≤ w ∧ w - b < s.totalLength

theorem covers_iff_hit (hs : c.sections[i]? = some s) {w : UInt32} :
    c.Covers i w ↔ Hit c.bases w i s := by
  obtain ⟨hlt, -⟩ := List.getElem?_eq_some_iff.1 hs
  have hb := bases_getElem? hlt
  unfold Container.Covers Hit
  simp [hs, hb]

/-- **What the resolver finds**: the first section whose range the word is in. -/
theorem resolvePointer_cases (c : Container) (w : UInt32) :
    (∃ i s b, c.sections[i]? = some s ∧ c.bases[i]? = some b ∧ b ≤ w ∧ w - b < s.totalLength ∧
        (∀ j < i, ¬c.Covers j w) ∧ resolvePointer c.bases c.sections w = ⟨w, i, w - b⟩) ∨
      (∀ i, ¬c.Covers i w) ∧ resolvePointer c.bases c.sections w = ⟨w, wordSize - 1, w⟩ := by
  classical
  unfold resolvePointer
  by_cases h : ∃ i, c.Covers i w
  · have hmin : ∀ j < Nat.find h, ¬c.Covers j w := fun j hj => Nat.find_min h hj
    obtain ⟨s, b, hs, hb, hle, hlt⟩ := Nat.find_spec h
    refine .inl ⟨Nat.find h, s, b, hs, hb, hle, hlt, hmin, ?_⟩
    have hit : Hit c.bases w (0 + Nat.find h) s := by
      rw [Nat.zero_add]
      exact (covers_iff_hit hs).1 ⟨s, b, hs, hb, hle, hlt⟩
    rw [resolvePointerFrom_hit hs hit, Nat.zero_add, hb, Option.getD_some]
    intro j hj t ht
    rw [Nat.zero_add]
    exact fun hj' => hmin j hj ((covers_iff_hit ht).2 hj')
  · have hmiss : ∀ i, ¬c.Covers i w := fun i hi => h ⟨i, hi⟩
    refine .inr ⟨hmiss, resolvePointerFrom_miss ?_⟩
    intro i t ht
    rw [Nat.zero_add]
    exact fun hi => hmiss i ((covers_iff_hit ht).2 hi)

/-- What a resolved pointer should be: a section and an offset in it. -/
def Container.Located (c : Container) (p : ResolvedPointer) : Prop :=
  ∃ s b, c.sections[p.sectionIndex]? = some s ∧ c.bases[p.sectionIndex]? = some b ∧
    p.offset < s.totalLength ∧ b + p.offset = p.word

/-- The sentinel is no section. -/
theorem sentinel_out (hc : c.Sound) : c.sections[wordSize - 1]? = none := by
  have hsections := hc.sections_length
  refine List.getElem?_eq_none (hsections.le.trans ?_)
  decide

theorem located_iff (hc : c.Sound) {w : UInt32} :
    c.Located (resolvePointer c.bases c.sections w) ↔ ∃ i, c.Covers i w := by
  rcases resolvePointer_cases c w with ⟨i, s, b, hs, hb, hle, hlt, -, heq⟩ | ⟨hmiss, heq⟩
  · rw [heq]
    refine iff_of_true ⟨s, b, hs, hb, hlt, ?_⟩ ⟨i, s, b, hs, hb, hle, hlt⟩
    exact add_sub_cancel b w
  · rw [heq]
    refine iff_of_false ?_ (not_exists.2 hmiss)
    rintro ⟨s, b, hs, -⟩
    rw [sentinel_out hc] at hs
    cases hs

/-! ## Sections that can be told apart -/

/-- The ranges of two sections have no address in common. -/
def Container.Disjoint (c : Container) (bases : List UInt32) : Prop :=
  ∀ (i j : ℕ) (s t : PefSection) (b b' : UInt32), i ≠ j → c.sections[i]? = some s → c.sections[j]? = some t →
    bases[i]? = some b → bases[j]? = some b' →
    ∀ o < s.totalLength, ∀ o' < t.totalLength, b + o ≠ b' + o'

/-- The resolver finds the section and the offset of every address in a range. -/
def Container.Inverts (c : Container) (bases : List UInt32) : Prop :=
  ∀ (i : ℕ) (s : PefSection) (b : UInt32), c.sections[i]? = some s → bases[i]? = some b →
    ∀ o < s.totalLength, resolvePointer bases c.sections (b + o) = ⟨b + o, i, o⟩

/-- The sections fit 32 bits: each that is not empty ends within 2³² bytes of the first
    base, and does not go on beyond the last address. -/
def Container.Fits (c : Container) : Prop :=
  ∀ i (hi : i < c.lengths.length), 0 < c.lengths[i] →
    c.address i + c.lengths[i] ≤ syntheticBase0 + 2 ^ 32 ∧
      ¬(c.address i < 2 ^ 32 ∧ 2 ^ 32 < c.address i + c.lengths[i])

/-- An address in the range of a section. -/
theorem toNat_base_add (o : UInt32) :
    (UInt32.ofNat (c.address i) + o).toNat = (c.address i + o.toNat) % 2 ^ 32 := by
  rw [UInt32.toNat_add, UInt32.toNat_ofNat', Nat.mod_add_mod]

/-- Ranges without a common address, in terms of the lengths. -/
theorem disjoint_iff_apart :
    c.Disjoint c.bases ↔ Layout.Apart 16 (2 ^ 32) syntheticBase0 c.lengths := by
  constructor
  · intro h i j hi hj hij o ho o' ho' heq
    have hi' : i < c.sections.length := by rwa [← length_lengths]
    have hj' : j < c.sections.length := by rwa [← length_lengths]
    have hs := List.getElem?_eq_getElem hi'
    have ht := List.getElem?_eq_getElem hj'
    rw [lengths_getElem hs] at ho
    rw [lengths_getElem ht] at ho'
    have hlt := ho.trans (UInt32.toNat_lt _)
    have hlt' := ho'.trans (UInt32.toNat_lt _)
    refine h i j _ _ _ _ hij hs ht (bases_getElem? hi') (bases_getElem? hj') (UInt32.ofNat o) ?_
      (UInt32.ofNat o') ?_ (UInt32.toNat_inj.1 ?_)
    · rwa [UInt32.lt_iff_toNat_lt, UInt32.toNat_ofNat_of_lt' hlt]
    · rwa [UInt32.lt_iff_toNat_lt, UInt32.toNat_ofNat_of_lt' hlt']
    · rw [toNat_base_add, toNat_base_add, UInt32.toNat_ofNat_of_lt' hlt,
        UInt32.toNat_ofNat_of_lt' hlt']
      exact heq
  · intro h i j s t b b' hij hs ht hb hb' o ho o' ho' heq
    obtain ⟨hi, -⟩ := List.getElem?_eq_some_iff.1 hs
    obtain ⟨hj, -⟩ := List.getElem?_eq_some_iff.1 ht
    obtain rfl := Option.some.inj ((bases_getElem? hi).symm.trans hb)
    obtain rfl := Option.some.inj ((bases_getElem? hj).symm.trans hb')
    have hi' : i < c.lengths.length := by rwa [length_lengths]
    have hj' : j < c.lengths.length := by rwa [length_lengths]
    refine h i j hi' hj' hij o.toNat ?_ o'.toNat ?_ ?_
    · rwa [lengths_getElem hs, ← UInt32.lt_iff_toNat_lt]
    · rwa [lengths_getElem ht, ← UInt32.lt_iff_toNat_lt]
    · have htoNat := congrArg UInt32.toNat heq
      rwa [toNat_base_add, toNat_base_add] at htoNat

theorem disjoint_iff :
    c.Disjoint c.bases ↔ ∀ i (hi : i < c.lengths.length), 0 < c.lengths[i] →
      c.address i + c.lengths[i] ≤ syntheticBase0 + 2 ^ 32 := by
  have hsizes : ∀ n ∈ c.lengths, n ≤ 2 ^ 32 := by
    intro n hn
    obtain ⟨s, -, rfl⟩ := List.mem_map.1 hn
    exact s.totalLength.toNat_lt.le
  have hapart : Layout.Apart 16 (2 ^ 32) syntheticBase0 c.lengths ↔ _ :=
    Layout.apart_iff (by decide) (by decide) hsizes
  rw [disjoint_iff_apart, hapart]
  simp only [Container.address, Nat.add_assoc, Nat.add_le_add_iff_left]

/-- The resolver does not find an address beyond the last one. -/
theorem not_straddles (hc : c.Sound) (h : c.Inverts c.bases) (hi : i < c.lengths.length) :
    ¬(c.address i < 2 ^ 32 ∧ 2 ^ 32 < c.address i + c.lengths[i]) := by
  rintro ⟨hlt, hgt⟩
  have hi' : i < c.sections.length := by rwa [← length_lengths]
  have hs := List.getElem?_eq_getElem hi'
  have hlen := lengths_getElem hs hi
  have hpos : 0 < c.address i := Nat.add_pos_left (by decide) _
  have ho : 2 ^ 32 - c.address i < 2 ^ 32 := by omega
  -- the address at which the section goes on is 0
  have hzero : UInt32.ofNat (c.address i) + UInt32.ofNat (2 ^ 32 - c.address i) = 0 := by
    refine UInt32.toNat_inj.1 ?_
    rw [toNat_base_add, UInt32.toNat_ofNat_of_lt' ho, Nat.add_sub_of_le hlt.le]
    decide
  have hresolve := h i _ _ hs (bases_getElem? hi') (UInt32.ofNat (2 ^ 32 - c.address i)) (by
    rw [UInt32.lt_iff_toNat_lt, UInt32.toNat_ofNat_of_lt' ho]
    omega)
  rw [hzero] at hresolve
  rcases resolvePointer_cases c 0 with ⟨j, t, b, -, hb, hle, -, -, heq⟩ | ⟨-, heq⟩
  · obtain rfl : j = i := congrArg ResolvedPointer.sectionIndex (heq.symm.trans hresolve)
    obtain rfl := Option.some.inj ((bases_getElem? hi').symm.trans hb)
    rw [UInt32.le_iff_toNat_le, UInt32.toNat_ofNat_of_lt' hlt] at hle
    exact absurd hle (not_le.2 hpos)
  · have hindex : wordSize - 1 = i :=
      congrArg ResolvedPointer.sectionIndex (heq.symm.trans hresolve)
    have hnone := sentinel_out hc
    rw [hindex, hs] at hnone
    cases hnone

/-- An address of a section that fits. -/
theorem Container.Fits.toNat_add (h : c.Fits) (hs : c.sections[i]? = some s) {o : UInt32}
    (ho : o < s.totalLength) :
    (UInt32.ofNat (c.address i) + o).toNat = (UInt32.ofNat (c.address i)).toNat + o.toNat := by
  obtain ⟨hi, -⟩ := List.getElem?_eq_some_iff.1 hs
  have hi' : i < c.lengths.length := by rwa [length_lengths]
  have hlen := lengths_getElem hs hi'
  have hlt := UInt32.lt_iff_toNat_lt.1 ho
  obtain ⟨hend, hnot⟩ := h i hi' (by omega)
  have hbase : syntheticBase0 = 2 ^ 28 := rfl
  rw [toNat_base_add, UInt32.toNat_ofNat']
  rw [hlen] at hend hnot
  omega

theorem Container.Fits.inverts (h : c.Fits) : c.Inverts c.bases := by
  intro i s b hs hb o ho
  obtain ⟨hi, -⟩ := List.getElem?_eq_some_iff.1 hs
  obtain rfl := Option.some.inj ((bases_getElem? hi).symm.trans hb)
  have hdisjoint : c.Disjoint c.bases := disjoint_iff.2 fun i hi hpos => (h i hi hpos).1
  have hsum := h.toNat_add hs ho
  generalize UInt32.ofNat (c.address i) = b at hb hsum
  have hle : b ≤ b + o := by
    rw [UInt32.le_iff_toNat_le]
    omega
  have hoff : b + o - b = o := add_sub_cancel_left b o
  rcases resolvePointer_cases c (b + o) with ⟨j, t, b', ht, hb', -, hlt, -, heq⟩ | ⟨hmiss, -⟩
  · obtain rfl : i = j := by
      by_contra hij
      refine hdisjoint i j s t b b' hij hs ht hb hb' o ho (b + o - b') hlt ?_
      exact (add_sub_cancel b' (b + o)).symm
    obtain rfl := Option.some.inj (hb.symm.trans hb')
    rw [heq, hoff]
  · refine absurd ⟨s, b, hs, hb, hle, ?_⟩ (hmiss i)
    rwa [hoff]

end

/-- **Placement and resolution**: for a container that is parsed, no two sections overlap
    and the resolver finds every address again, exactly if the sections fit 32 bits. -/
theorem placement_inverts_iff (data : Slice) (c : Container) (h : Container.parse data = .ok c) :
    ∃ bases, syntheticBases c = .ok bases ∧
      (c.Disjoint bases ∧ c.Inverts bases ↔ c.Fits) := by
  have hc := (Container.parse_safe data).of_eq_ok h
  refine ⟨c.bases, syntheticBases_eq hc, ?_⟩
  constructor
  · rintro ⟨hdisjoint, hinverts⟩ i hi hpos
    exact ⟨disjoint_iff.1 hdisjoint i hi hpos, not_straddles hc hinverts hi⟩
  · intro hfits
    exact ⟨disjoint_iff.2 fun i hi hpos => (hfits i hi hpos).1, hfits.inverts⟩

/-- Two data sections with 2³² + 240 bytes. -/
def hugeSections : List PefSection :=
  [.unpackedData 0xfffffff0 0 0 0, .unpackedData 0x100 0 0 0, .loader 124 56]

def hugeFile : List UInt8 := pefFile hugeSections .empty []

theorem length_hugeFile : hugeFile.length ≤ isizeMax := by decide +kernel

def hugeContainer : Container :=
  pefContainer ⟨hugeFile, length_hugeFile⟩ hugeSections .empty LoaderInfo.empty.encode

theorem parse_hugeFile : Container.parse ⟨hugeFile, length_hugeFile⟩ = .ok hugeContainer := by
  decide +kernel

/-- The second section has addresses of the first, to which they resolve. -/
theorem not_placement_inverts :
    ¬ ∀ data c, Container.parse data = .ok c → ∀ bases, syntheticBases c = .ok bases →
      c.Disjoint bases ∧ c.Inverts bases := by
  intro h
  have hbases : syntheticBases hugeContainer = .ok [0x10000000, 0x0ffffff0, 0x100000f0] := by
    decide +kernel
  obtain ⟨-, hinverts⟩ := h _ _ parse_hugeFile _ hbases
  have hresolve := hinverts 1 (.unpackedData 0x100 0 0 0) 0x0ffffff0 rfl rfl 0x10 (by decide)
  exact absurd (congrArg ResolvedPointer.sectionIndex hresolve) (by decide +kernel)

/-- One short section fits; these two do not. -/
theorem placement_inverts_iff_huge :
    (∃ bases, syntheticBases zeroFilledContainer = .ok bases ∧
      zeroFilledContainer.Disjoint bases ∧ zeroFilledContainer.Inverts bases) ∧
    ∃ bases, syntheticBases hugeContainer = .ok bases ∧
      ¬(hugeContainer.Disjoint bases ∧ hugeContainer.Inverts bases) := by
  constructor
  · obtain ⟨bases, hbases, hiff⟩ := placement_inverts_iff _ zeroFilledContainer parse_zeroFilledFile
    refine ⟨bases, hbases, hiff.2 ?_⟩
    unfold Container.Fits
    decide +kernel
  · obtain ⟨bases, hbases, hiff⟩ := placement_inverts_iff _ hugeContainer parse_hugeFile
    refine ⟨bases, hbases, fun hboth => ?_⟩
    have hfits := hiff.1 hboth
    exact absurd (hfits 1 (by decide) (by decide)).1 (by decide +kernel)

end Usbmidi9
