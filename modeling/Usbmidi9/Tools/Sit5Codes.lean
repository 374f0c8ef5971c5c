/-
  USBMIDI9 — the prefix codes of the StuffIt decompressor (`tools/re/sit5.py`).

  * `BitReader.rest` are the bits that a reader has left; every function that reads is
    stated by what it takes off them;
  * `CodeTable.Holds` says which codewords a table has, and `nextSymbol_codeword` that
    with a prefix-free set of codewords the symbol of the codeword ahead is read;
  * `buildCanonical_holds`: `build_canonical` makes the table of the canonical code,
    `nextSymbol_complete`: with a complete code there is always a codeword ahead.
-/
import Usbmidi9.Lib.Canonical
import Usbmidi9.Tools.Sit5

namespace Usbmidi9.Sit5

open Outcome

/-! ## Reading bits -/

/-- The bits of a byte, in the order they are read. -/
def byteBits (b : UInt8) : List Bool := lsbBits 8 b.toNat

/-- The bits that are left. -/
def BitReader.rest (br : BitReader) : List Bool :=
  ((br.data.drop br.pos).flatMap byteBits).drop br.bit

theorem drop_lsbBits {n k : ℕ} (h : k ≤ n) (c : ℕ) :
    (lsbBits n c).drop k = lsbBits (n - k) (c / 2 ^ k) := by
  obtain ⟨d, rfl⟩ := Nat.exists_eq_add_of_le h
  rw [lsbBits_add, Nat.add_sub_cancel_left, List.drop_left' (length_lsbBits _ _)]

theorem and_one_eq (c k : ℕ) : c >>> k &&& 1 = ((c / 2 ^ k).testBit 0).toNat := by
  rw [Nat.shiftRight_eq_div_pow, Nat.and_one_is_mod, Nat.testBit_zero]
  rcases Nat.mod_two_eq_zero_or_one (c / 2 ^ k) with h | h <;> simp [h]

/-- **`next_bit`** takes the first bit that is left, or raises. -/
theorem BitReader.nextBit_spec (br : BitReader) :
    match br.rest with
    | [] => br.nextBit = .err (.eofError "bit stream exhausted")
    | b :: l => ∃ br', br.nextBit = .ok (b.toNat, br') ∧ br'.rest = l := by
  obtain ⟨data, pos, bit, hbit⟩ := br
  cases hget : data[pos]? with
  | none =>
    have hdrop : data.drop pos = [] := List.drop_eq_nil_of_le (List.getElem?_eq_none_iff.1 hget)
    simp [BitReader.rest, BitReader.nextBit, hdrop, hget]
  | some byte =>
    have hdrop : data.drop pos = byte :: data.drop (pos + 1) := by
      obtain ⟨hlt, rfl⟩ := List.getElem?_eq_some_iff.1 hget
      exact List.drop_eq_getElem_cons hlt
    have hrest : BitReader.rest ⟨data, pos, bit, hbit⟩ =
        (byte.toNat / 2 ^ bit).testBit 0 :: (lsbBits (7 - bit) (byte.toNat / 2 ^ (bit + 1)) ++
          (data.drop (pos + 1)).flatMap byteBits) := by
      rw [BitReader.rest, hdrop, List.flatMap_cons, List.drop_append_of_le_length
        (by rw [byteBits, length_lsbBits]; exact hbit.le), byteBits, drop_lsbBits hbit.le,
        show 8 - bit = 7 - bit + 1 by omega, lsbBits, Nat.div_div_eq_div_mul, ← pow_succ]
      rfl
    rw [hrest]
    simp only [BitReader.nextBit, hget, and_one_eq]
    by_cases h8 : bit + 1 = 8
    · rw [dif_pos h8]
      refine ⟨_, rfl, ?_⟩
      rw [show 7 - bit = 0 by omega]
      rfl
    · rw [dif_neg h8]
      refine ⟨_, rfl, ?_⟩
      simp only [BitReader.rest, hdrop, List.flatMap_cons]
      rw [List.drop_append_of_le_length (by rw [byteBits, length_lsbBits]; omega), byteBits,
        drop_lsbBits (by omega : bit + 1 ≤ 8), show 8 - (bit + 1) = 7 - bit by omega]

theorem BitReader.nextBit_cons {br : BitReader} {b : Bool} {l : List Bool} (h : br.rest = b :: l) :
    ∃ br', br.nextBit = .ok (b.toNat, br') ∧ br'.rest = l := by
  have hspec := br.nextBit_spec
  rwa [h] at hspec

theorem BitReader.nextBit_nil {br : BitReader} (h : br.rest = []) :
    br.nextBit = .err (.eofError "bit stream exhausted") := by
  have hspec := br.nextBit_spec
  rwa [h] at hspec

theorem BitReader.nextBitsLoop_append {l rest : List Bool} (read : List Bool) {br : BitReader}
    (h : br.rest = l ++ rest) :
    ∃ br', nextBitsLoop l.length read.length (bitsValue read) br =
      .ok (bitsValue (read ++ l), br') ∧ br'.rest = rest := by
  induction l generalizing read br with
  | nil => exact ⟨br, by simp [nextBitsLoop], h⟩
  | cons b l ih =>
    obtain ⟨br₁, hb, hrest⟩ := br.nextBit_cons h
    obtain ⟨br₂, hl, hr⟩ := ih (read ++ [b]) hrest
    refine ⟨br₂, ?_, hr⟩
    rw [List.length_cons, nextBitsLoop, hb, ok_bind]
    simp only [← bitsValue_concat]
    simpa using hl

/-- **`next_bits`** reads a value with its least significant bit first. -/
theorem BitReader.nextBits_append {l rest : List Bool} {br : BitReader} (h : br.rest = l ++ rest) :
    ∃ br', br.nextBits l.length = .ok (bitsValue l, br') ∧ br'.rest = rest :=
  BitReader.nextBitsLoop_append [] h

/-! ## Reading symbols -/

/-- The table has the codewords `cw` of the symbols `s`. -/
def CodeTable.Holds (table : CodeTable) (s : Finset ℕ) (cw : ℕ → List Bool) : Prop :=
  ∀ v length i, table.lookup v = some (length, i) ↔
    i ∈ s ∧ length = (cw i).length ∧ v = bitsValue (cw i)

/-- No codeword is a prefix of another one. -/
def PrefixFree (s : Finset ℕ) (cw : ℕ → List Bool) : Prop :=
  ∀ i ∈ s, ∀ j ∈ s, cw i <+: cw j → i = j

section
variable {table : CodeTable} {s : Finset ℕ} {cw : ℕ → List Bool}

theorem nextSymbolLoop_codeword (ht : table.Holds s cw) (hp : PrefixFree s cw) {i : ℕ} (hi : i ∈ s)
    {rest : List Bool} :
    ∀ {suf : List Bool} (read : List Bool) {k : ℕ} {br : BitReader}, read ++ suf = cw i → suf ≠ [] →
      suf.length ≤ k → br.rest = suf ++ rest →
      ∃ br', nextSymbolLoop table k read.length (bitsValue read) br = .ok (i, br') ∧ br'.rest = rest := by
  intro suf
  induction suf with
  | nil => exact fun _ _ _ _ h => absurd rfl h
  | cons b suf ih =>
    intro read k br hcw _ hk hrest
    obtain ⟨k, rfl⟩ := Nat.exists_eq_succ_of_ne_zero (by simp at hk; omega : k ≠ 0)
    obtain ⟨br₁, hb, hrest₁⟩ := br.nextBit_cons hrest
    have hread : read ++ [b] ++ suf = cw i := by simpa using hcw
    rw [nextSymbolLoop, hb, ok_bind]
    simp only [← bitsValue_concat]
    have hlen : (read ++ [b]).length = read.length + 1 := by simp
    cases suf with
    | nil =>
      have hall : read ++ [b] = cw i := by simpa using hread
      rw [(ht _ (cw i).length i).2 ⟨hi, rfl, by rw [hall]⟩]
      simp only [← hall, hlen, if_true]
      exact ⟨br₁, rfl, hrest₁⟩
    | cons c suf =>
      obtain ⟨br₂, hloop, hr⟩ := ih (read ++ [b]) hread
        (List.cons_ne_nil _ _) (by simpa using hk) hrest₁
      rw [hlen] at hloop
      refine ⟨br₂, ?_, hr⟩
      cases hlook : table.lookup (bitsValue (read ++ [b])) with
      | none => exact hloop
      | some e =>
        obtain ⟨length, j⟩ := e
        simp only
        split_ifs with hl
        · -- a codeword of this length would be a prefix of the one ahead
          obtain ⟨hj, hjlen, hjv⟩ := (ht _ _ _).1 hlook
          have heq : cw j = read ++ [b] := bitsValue_inj (by rw [← hjlen, hl, hlen]) hjv.symm
          have hji : j = i := hp j hj i hi (heq ▸ ⟨_, hread⟩)
          rw [← hji, heq] at hread
          simp at hread
        · exact hloop

/-- **The symbol of the codeword ahead is read.** -/
theorem nextSymbol_codeword (ht : table.Holds s cw) (hp : PrefixFree s cw) {i : ℕ} (hi : i ∈ s)
    (hne : cw i ≠ []) (hlen : (cw i).length ≤ 32) {rest : List Bool} {br : BitReader}
    (h : br.rest = cw i ++ rest) :
    ∃ br', nextSymbol table br = .ok (i, br') ∧ br'.rest = rest :=
  nextSymbolLoop_codeword ht hp hi [] rfl hne hlen h

end

/-! ## Canonical tables -/

theorem reverseCode_eq (length c : ℕ) : reverseCode length c = bitsValue (msbBits length c) := by
  induction length with
  | zero => rfl
  | succ n ih =>
    rw [bitsValue_msbBits_succ, ← ih, reverseCode, List.range_succ, List.foldl_append]
    rfl

/-- The length of a symbol's code. -/
def symbolLength (lengths : List ℤ) (i : ℕ) : ℕ := (lengths.getD i 0).toNat

/-- The symbols that get a code. -/
def codedSymbols (lengths : List ℤ) (n : ℕ) : Finset ℕ :=
  {i ∈ Finset.range n | 1 ≤ symbolLength lengths i ∧ symbolLength lengths i ≤ maxLength}

/-- The codeword of a symbol. -/
def symbolCode (lengths : List ℤ) (n i : ℕ) : List Bool :=
  codeword (codedSymbols lengths n) (symbolLength lengths) i

/-- The symbols that have their code when symbol `p` is looked at in the pass for length `L`. -/
def assignedSymbols (lengths : List ℤ) (n L p : ℕ) : Finset ℕ :=
  {j ∈ Finset.range n |
    1 ≤ symbolLength lengths j ∧ (symbolLength lengths j < L ∨ symbolLength lengths j = L ∧ j < p)}

/-- The entry of a symbol. -/
def tableEntry (lengths : List ℤ) (n j : ℕ) : ℕ × ℕ × ℕ :=
  (bitsValue (symbolCode lengths n j), symbolLength lengths j, j)

/-- What holds when symbol `p` is looked at in the pass for length `L`. -/
structure BuildInv (lengths : List ℤ) (n L p : ℕ) (st : CanonicalState) : Prop where
  code : st.code = ∑ j ∈ assignedSymbols lengths n L p, 2 ^ (L - symbolLength lengths j)
  table : ∀ e, e ∈ st.table ↔ ∃ j ∈ assignedSymbols lengths n L p, e = tableEntry lengths n j
  left : st.symbolsleft + (assignedSymbols lengths n L p).card = n

section
variable {lengths : List ℤ} {n L p : ℕ} {st : CanonicalState}

theorem getD_eq_iff (hL : 1 ≤ L) (i : ℕ) : lengths.getD i 0 = (L : ℤ) ↔ symbolLength lengths i = L := by
  unfold symbolLength
  omega

theorem mem_assignedSymbols {j : ℕ} : j ∈ assignedSymbols lengths n L p ↔ j < n ∧
    1 ≤ symbolLength lengths j ∧ (symbolLength lengths j < L ∨ symbolLength lengths j = L ∧ j < p) := by
  simp [assignedSymbols]

theorem mem_codedSymbols {j : ℕ} : j ∈ codedSymbols lengths n ↔ j < n ∧
    1 ≤ symbolLength lengths j ∧ symbolLength lengths j ≤ maxLength := by
  simp [codedSymbols]

/-- All symbols are assigned, and no others are coded. -/
theorem assigned_of_left (hL : L ≤ maxLength) (h : BuildInv lengths n L p st)
    (h0 : st.symbolsleft = 0) : assignedSymbols lengths n L p = codedSymbols lengths n := by
  have hcard : (Finset.range n).card ≤ (assignedSymbols lengths n L p).card := by
    rw [Finset.card_range]
    have hleft := h.left
    omega
  have hall : assignedSymbols lengths n L p = Finset.range n :=
    Finset.eq_of_subset_of_card_le (Finset.filter_subset _ _) hcard
  ext j
  constructor
  · intro hj
    obtain ⟨hn, h1, hlt⟩ := mem_assignedSymbols.1 hj
    exact mem_codedSymbols.2 ⟨hn, h1, by omega⟩
  · intro hj
    rw [hall]
    exact Finset.mem_range.2 (mem_codedSymbols.1 hj).1

theorem BuildInv.skip (h : BuildInv lengths n L p st) (hp : symbolLength lengths p ≠ L) :
    BuildInv lengths n L (p + 1) st := by
  have hsame : assignedSymbols lengths n L (p + 1) = assignedSymbols lengths n L p := by
    ext j
    rw [mem_assignedSymbols, mem_assignedSymbols]
    have hj : symbolLength lengths j = L → j ≠ p := by
      rintro hj rfl
      exact hp hj
    constructor
    · rintro ⟨hn, h1, hlt | ⟨heq, hlt⟩⟩
      · exact ⟨hn, h1, .inl hlt⟩
      · exact ⟨hn, h1, .inr ⟨heq, by have := hj heq; omega⟩⟩
    · rintro ⟨hn, h1, hlt | ⟨heq, hlt⟩⟩
      · exact ⟨hn, h1, .inl hlt⟩
      · exact ⟨hn, h1, .inr ⟨heq, by omega⟩⟩
  exact ⟨hsame ▸ h.code, hsame ▸ h.table, hsame ▸ h.left⟩

/-- The counter is the canonical code of the symbol that is assigned next. -/
theorem BuildInv.code_eq (h : BuildInv lengths n L p st) (hL : L ≤ maxLength)
    (hp : symbolLength lengths p = L) :
    st.code = canonicalCode (codedSymbols lengths n) (symbolLength lengths) p := by
  rw [h.code, canonicalCode, hp]
  refine Finset.sum_congr ?_ fun _ _ => rfl
  ext j
  rw [mem_assignedSymbols, Finset.mem_filter, mem_codedSymbols, CodeBefore, hp]
  constructor
  · rintro ⟨hn, h1, hlt⟩
    exact ⟨⟨hn, h1, by omega⟩, hlt⟩
  · rintro ⟨⟨hn, h1, -⟩, hlt⟩
    exact ⟨hn, h1, hlt⟩

theorem BuildInv.assign (h : BuildInv lengths n L p st) (hn : p < n) (hL : L ≤ maxLength)
    (h1 : 1 ≤ L) (hp : symbolLength lengths p = L) :
    BuildInv lengths n L (p + 1) (st.assign L p) := by
  have hnot : p ∉ assignedSymbols lengths n L p := by
    rw [mem_assignedSymbols]
    omega
  have hinsert : assignedSymbols lengths n L (p + 1) = insert p (assignedSymbols lengths n L p) := by
    ext j
    rw [Finset.mem_insert, mem_assignedSymbols, mem_assignedSymbols]
    constructor
    · rintro ⟨hj, hj1, hlt | ⟨heq, hlt⟩⟩
      · exact .inr ⟨hj, hj1, .inl hlt⟩
      · rcases Nat.lt_succ_iff_lt_or_eq.1 hlt with hlt | rfl
        · exact .inr ⟨hj, hj1, .inr ⟨heq, hlt⟩⟩
        · exact .inl rfl
    · rintro (rfl | ⟨hj, hj1, hlt | ⟨heq, hlt⟩⟩)
      · exact ⟨hn, by omega, .inr ⟨hp, by omega⟩⟩
      · exact ⟨hj, hj1, .inl hlt⟩
      · exact ⟨hj, hj1, .inr ⟨heq, by omega⟩⟩
  have hentry : (reverseCode L st.code, L, p) = tableEntry lengths n p := by
    rw [reverseCode_eq, h.code_eq hL hp, tableEntry, symbolCode, codeword, hp]
  refine ⟨?_, ?_, ?_⟩
  · rw [hinsert, Finset.sum_insert hnot, hp, Nat.sub_self, pow_zero, ← h.code, add_comm]
    rfl
  · intro e
    rw [hinsert]
    simp only [CanonicalState.assign, hentry, List.mem_cons, h.table, Finset.mem_insert, exists_eq_or_imp]
  · rw [hinsert, Finset.card_insert_of_notMem hnot]
    have hleft := h.left
    have hle : (insert p (assignedSymbols lengths n L p)).card ≤ n := by
      rw [← hinsert]
      exact (Finset.card_le_card (Finset.filter_subset _ _)).trans (Finset.card_range n).le
    rw [Finset.card_insert_of_notMem hnot] at hle
    simp only [CanonicalState.assign]
    omega

/-- The next pass begins. -/
theorem BuildInv.pass (h : BuildInv lengths n L n st) :
    BuildInv lengths n (L + 1) 0 { st with code := st.code <<< 1 } := by
  have hsame : assignedSymbols lengths n (L + 1) 0 = assignedSymbols lengths n L n := by
    ext j
    rw [mem_assignedSymbols, mem_assignedSymbols]
    omega
  refine ⟨?_, hsame ▸ h.table, hsame ▸ h.left⟩
  rw [hsame]
  show st.code <<< 1 = _
  rw [h.code, Nat.shiftLeft_eq, pow_one, Finset.sum_mul]
  refine Finset.sum_congr rfl fun j hj => ?_
  obtain ⟨-, -, hlt⟩ := mem_assignedSymbols.1 hj
  rw [← pow_succ]
  congr 1
  omega

/-- The table of a code. -/
def Complete (lengths : List ℤ) (n : ℕ) (table : CodeTable) : Prop :=
  ∀ e, e ∈ table ↔ ∃ j ∈ codedSymbols lengths n, e = tableEntry lengths n j

/-- Nothing is assigned at first. -/
theorem BuildInv.start (lengths : List ℤ) (n : ℕ) : BuildInv lengths n 1 0 ⟨0, [], n⟩ := by
  have hnone : assignedSymbols lengths n 1 0 = ∅ := by
    ext j
    rw [mem_assignedSymbols]
    simp only [Finset.notMem_empty, iff_false]
    omega
  exact ⟨by simp [hnone], fun e => by simp [hnone], by simp [hnone]⟩

/-- Everything is assigned at last. -/
theorem BuildInv.complete (h : BuildInv lengths n (maxLength + 1) 0 st) :
    Complete lengths n st.table := by
  have hall : assignedSymbols lengths n (maxLength + 1) 0 = codedSymbols lengths n := by
    ext j
    rw [mem_assignedSymbols, mem_codedSymbols]
    omega
  intro e
  rw [h.table, hall]

theorem canonicalSymbols_inv (hL : L ≤ maxLength) (h1 : 1 ≤ L) {k : ℕ} :
    ∀ {p : ℕ} {st : CanonicalState}, p + k = n → BuildInv lengths n L p st →
      match canonicalSymbols lengths L (List.range' p k) st with
      | (st', true) => Complete lengths n st'.table
      | (st', false) => BuildInv lengths n L n st' := by
  induction k with
  | zero =>
    intro p st hn h
    obtain rfl : p = n := hn
    exact h
  | succ k ih =>
    intro p st hn h
    rw [List.range'_succ, canonicalSymbols]
    by_cases hp : lengths.getD p 0 = (L : ℤ)
    · rw [if_neg (not_not.2 hp)]
      have hassign := h.assign (by omega) hL h1 ((getD_eq_iff h1 p).1 hp)
      by_cases h0 : (st.assign L p).symbolsleft = 0
      · rw [if_pos h0]
        show Complete lengths n (st.assign L p).table
        intro e
        rw [hassign.table, assigned_of_left hL hassign h0]
      · rw [if_neg h0]
        exact ih (by omega) hassign
    · rw [if_pos hp]
      exact ih (by omega) (h.skip fun heq => hp ((getD_eq_iff h1 p).2 heq))

theorem canonicalLengths_complete {k : ℕ} : ∀ {L : ℕ} {st : CanonicalState}, 1 ≤ L →
    L + k = maxLength + 1 → BuildInv lengths n L 0 st →
    Complete lengths n (canonicalLengths lengths n (List.range' L k) st) := by
  induction k with
  | zero =>
    intro L st h1 hL h
    obtain rfl : L = maxLength + 1 := hL
    exact h.complete
  | succ k ih =>
    intro L st h1 hL h
    have hpass := canonicalSymbols_inv (by omega) h1 (Nat.zero_add n) h
    rw [List.range'_succ, canonicalLengths, List.range_eq_range']
    rcases hs : canonicalSymbols lengths L (List.range' 0 n) st with ⟨st', _ | _⟩
    · rw [hs] at hpass
      exact ih (by omega) (by omega) hpass.pass
    · rw [hs] at hpass
      exact hpass

theorem lookup_eq_some_iff {α β : Type*} [DecidableEq α] {l : List (α × β)}
    (h : ∀ k v w, (k, v) ∈ l → (k, w) ∈ l → v = w) {k : α} {v : β} :
    l.lookup k = some v ↔ (k, v) ∈ l := by
  induction l with
  | nil => simp
  | cons e l ih =>
    obtain ⟨k', v'⟩ := e
    have htail : ∀ k v w, (k, v) ∈ l → (k, w) ∈ l → v = w := fun k v w hv hw =>
      h k v w (List.mem_cons_of_mem _ hv) (List.mem_cons_of_mem _ hw)
    by_cases hk : k = k'
    · subst hk
      rw [List.lookup_cons_self, Option.some.injEq]
      constructor
      · rintro rfl
        exact List.mem_cons_self
      · intro hv
        exact h k v' v List.mem_cons_self hv
    · rw [List.lookup_cons, beq_eq_false_iff_ne.2 hk, List.mem_cons]
      simp [hk, ih htail]

/-- The codewords of a complete table are its prefix-free code. -/
theorem Complete.holds {table : CodeTable} (h : Complete lengths n table)
    (hp : PrefixFree (codedSymbols lengths n) (symbolCode lengths n)) :
    table.Holds (codedSymbols lengths n) (symbolCode lengths n) := by
  have hfun : ∀ k v w, (k, v) ∈ table → (k, w) ∈ table → v = w := by
    intro k v w hv hw
    obtain ⟨i, hi, hiv⟩ := (h _).1 hv
    obtain ⟨j, hj, hjw⟩ := (h _).1 hw
    obtain ⟨hki, rfl⟩ := Prod.mk.inj hiv
    obtain ⟨hkj, rfl⟩ := Prod.mk.inj hjw
    -- one of the two codewords is a prefix of the other
    have hij : i = j := by
      rcases le_total (symbolCode lengths n i).length (symbolCode lengths n j).length with hle | hle
      · exact hp i hi j hj (prefix_of_bitsValue hle (hki.symm.trans hkj))
      · exact (hp j hj i hi (prefix_of_bitsValue hle (hkj.symm.trans hki))).symm
    rw [hij]
  intro v length i
  rw [lookup_eq_some_iff hfun, h]
  constructor
  · rintro ⟨j, hj, he⟩
    obtain ⟨rfl, rfl, rfl⟩ : v = _ ∧ length = _ ∧ i = _ := by simpa [tableEntry] using he
    exact ⟨hj, by rw [symbolCode, length_codeword], rfl⟩
  · rintro ⟨hi, rfl, rfl⟩
    exact ⟨i, hi, by rw [tableEntry, symbolCode, length_codeword]⟩

/-- The lengths satisfy the inequality of Kraft. -/
def KraftOk (lengths : List ℤ) (n : ℕ) : Prop :=
  kraftSum (codedSymbols lengths n) (symbolLength lengths) maxLength ≤ 2 ^ maxLength

/-- What a length takes up of the numbers of 32 bits. -/
def lengthWeight (l : ℤ) : ℕ :=
  if 1 ≤ l.toNat ∧ l.toNat ≤ maxLength then 2 ^ (maxLength - l.toNat) else 0

/-- The sum is that of a list. -/
theorem kraftSum_eq (hn : n ≤ lengths.length) :
    kraftSum (codedSymbols lengths n) (symbolLength lengths) maxLength =
      ((lengths.take n).map lengthWeight).sum := by
  have htake : lengths.take n = (List.range n).map fun i => lengths.getD i 0 := by
    refine List.ext_getElem (by simpa using hn) ?_
    intro i h₁ h₂
    have hi : i < lengths.length := by
      rw [List.length_take] at h₁
      omega
    simp [List.getD_eq_getElem?_getD, List.getElem?_eq_getElem hi]
  rw [kraftSum, codedSymbols, Finset.sum_filter, htake, List.map_map]
  rfl

theorem kraftOk_of_sum (hn : n ≤ lengths.length)
    (h : ((lengths.take n).map lengthWeight).sum ≤ 2 ^ maxLength) : KraftOk lengths n :=
  (kraftSum_eq hn).trans_le h

theorem KraftOk.prefixFree (h : KraftOk lengths n) :
    PrefixFree (codedSymbols lengths n) (symbolCode lengths n) := fun _ hi _ hj hpre =>
  codeword_prefixFree h hi hj (mem_codedSymbols.1 hj).2.2 hpre

/-- **`build_canonical`** makes the table of the canonical code. -/
theorem buildCanonical_holds (hn : n ≤ lengths.length) (h : KraftOk lengths n) :
    ∃ table, buildCanonical lengths n = .ok table ∧
      table.Holds (codedSymbols lengths n) (symbolCode lengths n) := by
  have hcomplete : Complete lengths n
      (canonicalLengths lengths n (List.range' 1 maxLength) ⟨0, [], n⟩) :=
    canonicalLengths_complete le_rfl rfl (.start lengths n)
  exact ⟨_, if_neg (not_lt.2 hn), hcomplete.holds h.prefixFree⟩

/-- The symbol of a canonical codeword is read. -/
theorem nextSymbol_symbolCode {table : CodeTable}
    (ht : table.Holds (codedSymbols lengths n) (symbolCode lengths n)) (h : KraftOk lengths n) {i : ℕ}
    (hi : i ∈ codedSymbols lengths n) {rest : List Bool} {br : BitReader}
    (hr : br.rest = symbolCode lengths n i ++ rest) :
    ∃ br', nextSymbol table br = .ok (i, br') ∧ br'.rest = rest := by
  obtain ⟨-, h1, h32⟩ := mem_codedSymbols.1 hi
  have hlen : (symbolCode lengths n i).length = symbolLength lengths i := length_codeword _ _ _
  refine nextSymbol_codeword ht h.prefixFree hi ?_ (by rw [hlen]; exact h32) hr
  intro hnil
  rw [hnil, List.length_nil] at hlen
  omega

/-! ## Complete codes -/

/-- The end of the data. -/
abbrev exhausted : PyError := .eofError "bit stream exhausted"

theorem BitReader.nextBitsLoop_short {br : BitReader} : ∀ {k i v : ℕ}, br.rest.length < k →
    nextBitsLoop k i v br = .err exhausted := by
  induction hr : br.rest generalizing br with
  | nil =>
    intro k i v hk
    obtain ⟨k, rfl⟩ := Nat.exists_eq_succ_of_ne_zero (Nat.ne_of_gt (Nat.zero_lt_of_lt hk))
    rw [nextBitsLoop, br.nextBit_nil hr, err_bind]
  | cons b l ih =>
    intro k i v hk
    obtain ⟨k, rfl⟩ := Nat.exists_eq_succ_of_ne_zero (Nat.ne_of_gt (Nat.zero_lt_of_lt hk))
    obtain ⟨br₁, hb, hr₁⟩ := br.nextBit_cons hr
    rw [nextBitsLoop, hb, ok_bind]
    exact ih hr₁ (by simpa using hk)

/-- Bits are read, or the data is exhausted. -/
theorem BitReader.nextBits_cases (br : BitReader) (k : ℕ) :
    (∃ v br', br.nextBits k = .ok (v, br') ∧ br'.rest.length ≤ br.rest.length) ∨
      br.nextBits k = .err exhausted := by
  rcases Nat.lt_or_ge br.rest.length k with hk | hk
  · exact .inr (BitReader.nextBitsLoop_short hk)
  · obtain ⟨br', hb, hr⟩ := br.nextBits_append (List.take_append_drop k br.rest).symm
    rw [List.length_take, Nat.min_eq_left hk] at hb
    refine .inl ⟨_, br', hb, ?_⟩
    rw [hr, List.length_drop]
    exact Nat.sub_le _ _

theorem nextSymbolLoop_short {table : CodeTable} {s : Finset ℕ} {cw : ℕ → List Bool}
    (ht : table.Holds s cw) (hp : PrefixFree s cw) {i : ℕ} (hi : i ∈ s) {c : List Bool} (hc : c ≠ []) :
    ∀ {suf : List Bool} (read : List Bool) {k : ℕ} {br : BitReader}, read ++ suf ++ c = cw i →
      suf.length < k → br.rest = suf →
      nextSymbolLoop table k read.length (bitsValue read) br = .err exhausted := by
  intro suf
  induction suf with
  | nil =>
    intro read k br _ hk hr
    obtain ⟨k, rfl⟩ := Nat.exists_eq_succ_of_ne_zero (Nat.ne_of_gt (Nat.zero_lt_of_lt hk))
    rw [nextSymbolLoop, br.nextBit_nil hr, err_bind]
  | cons b suf ih =>
    intro read k br hcw hk hr
    obtain ⟨k, rfl⟩ := Nat.exists_eq_succ_of_ne_zero (Nat.ne_of_gt (Nat.zero_lt_of_lt hk))
    obtain ⟨br₁, hb, hr₁⟩ := br.nextBit_cons hr
    have hread : read ++ [b] ++ suf ++ c = cw i := by simpa using hcw
    have hlen : (read ++ [b]).length = read.length + 1 := by simp
    have hloop := ih (read ++ [b]) hread (by simpa using hk) hr₁
    rw [hlen] at hloop
    rw [nextSymbolLoop, hb, ok_bind]
    simp only [← bitsValue_concat]
    cases hlook : table.lookup (bitsValue (read ++ [b])) with
    | none => exact hloop
    | some e =>
      obtain ⟨length, j⟩ := e
      simp only
      split_ifs with hl
      · obtain ⟨hj, hjlen, hjv⟩ := (ht _ _ _).1 hlook
        have heq : cw j = read ++ [b] := bitsValue_inj (by rw [← hjlen, hl, hlen]) hjv.symm
        have hpre : cw j <+: cw i := ⟨suf ++ c, by rw [heq, ← hread]; simp⟩
        have hji : j = i := hp j hj i hi hpre
        rw [← hji, heq, List.append_assoc, List.append_right_eq_self, List.append_eq_nil_iff] at hread
        exact absurd hread.2 hc
      · exact hloop

/-- The lengths satisfy the inequality of Kraft with equality. -/
def KraftFull (lengths : List ℤ) (n : ℕ) : Prop :=
  kraftSum (codedSymbols lengths n) (symbolLength lengths) maxLength = 2 ^ maxLength

theorem kraftFull_of_sum (hn : n ≤ lengths.length)
    (h : ((lengths.take n).map lengthWeight).sum = 2 ^ maxLength) : KraftFull lengths n :=
  (kraftSum_eq hn).trans h

/-- **With a complete code** a symbol is read, or the data is exhausted. -/
theorem nextSymbol_cases {table : CodeTable}
    (ht : table.Holds (codedSymbols lengths n) (symbolCode lengths n)) (h : KraftFull lengths n)
    (br : BitReader) :
    (∃ i br', nextSymbol table br = .ok (i, br') ∧ br'.rest.length < br.rest.length) ∨
      nextSymbol table br = .err exhausted := by
  have hok : KraftOk lengths n := h.le
  have hlen : ∀ i ∈ codedSymbols lengths n, symbolLength lengths i ≤ maxLength := fun i hi =>
    (mem_codedSymbols.1 hi).2.2
  obtain ⟨i, hi, hpre⟩ := exists_codeword h hlen (l := br.rest ++ List.replicate maxLength false)
    (by rw [List.length_append, List.length_replicate]; exact Nat.le_add_left _ _)
  rcases Nat.lt_or_ge br.rest.length (symbolCode lengths n i).length with hlt | hge
  · -- the codeword ahead is cut by the end of the data
    refine .inr ?_
    have hrest : br.rest <+: symbolCode lengths n i :=
      List.prefix_of_prefix_length_le (List.prefix_append _ _) hpre hlt.le
    obtain ⟨c, hc⟩ := hrest
    have hne : c ≠ [] := by
      rintro rfl
      rw [← hc, List.append_nil] at hlt
      exact lt_irrefl _ hlt
    refine nextSymbolLoop_short ht hok.prefixFree hi hne [] hc (hlt.trans_le ?_) rfl
    rw [symbolCode, length_codeword]
    exact hlen i hi
  · refine .inl ?_
    have hrest : symbolCode lengths n i <+: br.rest :=
      List.prefix_of_prefix_length_le hpre (List.prefix_append _ _) hge
    obtain ⟨rest, hr⟩ := hrest
    obtain ⟨br', hsym, hr'⟩ := nextSymbol_symbolCode ht hok hi hr.symm
    refine ⟨i, br', hsym, ?_⟩
    have h1 : 1 ≤ (symbolCode lengths n i).length := by
      rw [symbolCode, length_codeword]
      exact (mem_codedSymbols.1 hi).2.1
    rw [hr', ← hr, List.length_append]
    omega

end

end Usbmidi9.Sit5
