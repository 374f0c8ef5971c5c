/-
  USBMIDI9 — the StuffIt encoder of the fixtures (`tools/re/make_classic_fixtures.py`).

  `lzh13Encode` writes literals and matches of three bytes in the first static set.  It
  looks back ten bytes at most and takes the nearest match.  A match of distance 1 gets no
  offset code, which the decompressor then misses.

  `lzh13_roundTrip` is the result: the decompressor returns every payload in which no byte
  occurs four times in a row.  No other payload has such a match.
-/
import Usbmidi9.Tools.Sit5Stream

namespace Usbmidi9.Sit5

open Outcome

/-! ## Codes -/

/-- A dictionary from symbols to codes and lengths. -/
abbrev SymbolCodes := List (ℕ × ℕ × ℕ)

/-- The symbols with codes of one length, in `_canonical_codes`. -/
def codesOfLength (lengths : List ℕ) (length : ℕ) :
    List ℕ → ℕ × SymbolCodes → ℕ × SymbolCodes
  | [], st => st
  | sym :: syms, st =>
    codesOfLength lengths length syms <|
      if lengths.getD sym 0 ≠ length then st
      else (st.1 + 1, (sym, reverseCode length st.1, length) :: st.2)

/-- The loop over the lengths. -/
def codesLoop (lengths : List ℕ) : List ℕ → ℕ × SymbolCodes → SymbolCodes
  | [], st => st.2
  | length :: rest, st =>
    let st := codesOfLength lengths length (List.range lengths.length) st
    codesLoop lengths rest (st.1 <<< 1, st.2)

/-- `_canonical_codes`. -/
def canonicalCodes (lengths : List ℕ) : SymbolCodes := codesLoop lengths (List.range' 1 32) (0, [])

/-! ## Writing bits -/

/-- The locals of `put_code`. -/
structure BitWriter where
  out : List UInt8
  bitbuf : ℕ
  nbits : ℕ

/-- The loop that empties `bitbuf`, at most `fuel` times. -/
def BitWriter.flush : ℕ → BitWriter → BitWriter
  | 0, w => w
  | fuel + 1, w =>
    if 8 ≤ w.nbits then
      flush fuel ⟨w.out ++ [UInt8.ofNat (w.bitbuf &&& 0xFF)], w.bitbuf >>> 8, w.nbits - 8⟩
    else w

/-- `put_code`. -/
def BitWriter.putCode (w : BitWriter) (code length : ℕ) : BitWriter :=
  flush (w.nbits + length) ⟨w.out, w.bitbuf ||| code <<< w.nbits, w.nbits + length⟩

/-- `put_code(*codes[sym])`; none for a symbol without a code. -/
def BitWriter.putSymbol (w : BitWriter) (codes : SymbolCodes) (sym : ℕ) : Option BitWriter :=
  (codes.lookup sym).map fun c => w.putCode c.1 c.2

/-! ## The encoder -/

/-- `payload[i:i + 3]`. -/
def slice3 (payload : List UInt8) (i : ℕ) : List UInt8 := (payload.drop i).take 3

/-- The nearest match. -/
def findMatch (payload : List UInt8) (i : ℕ) : Option ℕ :=
  if 3 ≤ i then
    (List.range' 1 10).find? fun dist => dist ≤ i ∧ slice3 payload i = slice3 payload (i - dist)
  else none

/-- `lo`. -/
def offsetLo (sym : ℕ) : ℕ := if sym = 1 then 2 else 1 <<< (sym - 1) + 1

/-- `hi`. -/
def offsetHi (sym : ℕ) : ℕ := if sym = 1 then 2 else 1 <<< sym

/-- The offset code of a match, with its bits. -/
def putOffset (offset : SymbolCodes) (dist : ℕ) (w : BitWriter) : Option BitWriter :=
  match (List.range' 1 10).find? fun sym => offsetLo sym ≤ dist ∧ dist ≤ offsetHi sym with
  | none => some w
  | some sym => do
    let w ← w.putSymbol offset sym
    some (if 1 < sym then w.putCode (dist - 1 <<< (sym - 1) - 1) (sym - 1) else w)

/-- No code is found for a distance of 1. -/
example (offset : SymbolCodes) (w : BitWriter) : putOffset offset 1 w = some w := rfl

/-- The codes of the first static set. -/
structure EncoderCodes where
  first : SymbolCodes
  second : SymbolCodes
  offset : SymbolCodes

/-- The loop over the payload, for at most `fuel` tokens. -/
def encodeLoop (c : EncoderCodes) (payload : List UInt8) :
    ℕ → SymbolCodes → ℕ → BitWriter → Option BitWriter
  | 0, ctx, _, w => w.putSymbol ctx 0x140
  | fuel + 1, ctx, i, w =>
    match payload[i]? with
    | none => w.putSymbol ctx 0x140
    | some b =>
      match findMatch payload i with
      | some dist => do
        let w ← w.putSymbol ctx 0x100
        let w ← putOffset c.offset dist w
        encodeLoop c payload fuel c.second (i + 3) w
      | none => do
        let w ← w.putSymbol ctx b.toNat
        encodeLoop c payload fuel c.first (i + 1) w

/-- What is left in `bitbuf` is written. -/
def BitWriter.finish (w : BitWriter) : List UInt8 :=
  if w.nbits ≠ 0 then w.out ++ [UInt8.ofNat (w.bitbuf &&& 0xFF)] else w.out

/-- `lzh13_encode`. -/
def lzh13Encode (payload : List UInt8) : Option (List UInt8) :=
  let c : EncoderCodes := ⟨canonicalCodes firstCodeLengths1, canonicalCodes secondCodeLengths1,
    canonicalCodes offsetCodeLengths1⟩
  (encodeLoop c payload payload.length c.first 0 ⟨[0x11], 0, 0⟩).map BitWriter.finish

/-! ## The codes of the encoder -/

/-- The dictionary of `build_canonical` with the entries of one of `_canonical_codes`. -/
def SymbolCodes.table (codes : SymbolCodes) : CodeTable := codes.map fun e => (e.2.1, e.2.2, e.1)

/-- `_canonical_codes` is where `build_canonical` would be. -/
def BuildLike (lengths : List ℕ) (L p : ℕ) (st : ℕ × SymbolCodes) : Prop :=
  ∃ left, BuildInv (staticLengths lengths) lengths.length L p ⟨st.1, st.2.table, left⟩

theorem symbolLength_staticLengths (lengths : List ℕ) (i : ℕ) :
    symbolLength (staticLengths lengths) i = lengths.getD i 0 := by
  simp only [symbolLength, staticLengths, List.getD_eq_getElem?_getD, List.getElem?_map]
  cases lengths[i]? <;> simp

theorem codesOfLength_inv {lengths : List ℕ} {L : ℕ} (hL : L ≤ maxLength) (h1 : 1 ≤ L) {k : ℕ} :
    ∀ {p : ℕ} {st : ℕ × SymbolCodes}, p + k = lengths.length → BuildLike lengths L p st →
      BuildLike lengths L lengths.length (codesOfLength lengths L (List.range' p k) st) := by
  induction k with
  | zero =>
    intro p st hn h
    obtain rfl : p = lengths.length := hn
    exact h
  | succ k ih =>
    intro p st hn h
    obtain ⟨left, h⟩ := h
    rw [List.range'_succ, codesOfLength]
    refine ih (by omega) ?_
    split_ifs with hp
    · exact ⟨left, h.skip (by rwa [symbolLength_staticLengths])⟩
    · exact ⟨left - 1, h.assign (by omega) hL h1 (by rw [symbolLength_staticLengths]; omega)⟩

theorem codesLoop_complete {lengths : List ℕ} {k : ℕ} : ∀ {L : ℕ} {st : ℕ × SymbolCodes}, 1 ≤ L →
    L + k = maxLength + 1 → BuildLike lengths L 0 st →
    Complete (staticLengths lengths) lengths.length (codesLoop lengths (List.range' L k) st).table := by
  induction k with
  | zero =>
    intro L st h1 hL h
    obtain ⟨left, h⟩ := h
    obtain rfl : L = maxLength + 1 := hL
    exact h.complete
  | succ k ih =>
    intro L st h1 hL h
    rw [List.range'_succ, codesLoop, List.range_eq_range']
    obtain ⟨left, hpass⟩ := codesOfLength_inv (by omega) h1 (Nat.zero_add _) h
    exact ih (by omega) (by omega) ⟨left, hpass.pass⟩

/-- **The codes of `_canonical_codes`** are those of the table. -/
theorem canonicalCodes_lookup {lengths : List ℕ} {i : ℕ}
    (hi : i ∈ codedSymbols (staticLengths lengths) lengths.length) :
    (canonicalCodes lengths).lookup i =
      some (bitsValue (symbolCode (staticLengths lengths) lengths.length i),
        (symbolCode (staticLengths lengths) lengths.length i).length) := by
  have hcomplete : Complete (staticLengths lengths) lengths.length (canonicalCodes lengths).table :=
    codesLoop_complete le_rfl rfl ⟨lengths.length, .start _ _⟩
  have hmem : ∀ j code length, (j, code, length) ∈ canonicalCodes lengths ↔
      (code, length, j) ∈ (canonicalCodes lengths).table := by
    intro j code length
    simp only [SymbolCodes.table, List.mem_map, Prod.mk.injEq, Prod.exists]
    constructor
    · intro h
      exact ⟨j, code, length, h, rfl, rfl, rfl⟩
    · rintro ⟨_, _, _, h, rfl, rfl, rfl⟩
      exact h
  have hfun : ∀ k v w, (k, v) ∈ canonicalCodes lengths → (k, w) ∈ canonicalCodes lengths → v = w := by
    rintro k ⟨v, l⟩ ⟨w, m⟩ hv hw
    obtain ⟨j, -, hj⟩ := (hcomplete _).1 ((hmem _ _ _).1 hv)
    obtain ⟨j', -, hj'⟩ := (hcomplete _).1 ((hmem _ _ _).1 hw)
    simp only [tableEntry, Prod.mk.injEq] at hj hj'
    obtain ⟨rfl, rfl, rfl⟩ := hj
    obtain ⟨rfl, rfl, rfl⟩ := hj'
    rfl
  rw [lookup_eq_some_iff hfun, hmem, hcomplete]
  exact ⟨i, hi, by rw [tableEntry, symbolCode, length_codeword]⟩

/-! ## The bits that are written -/

/-- The bits that were put. -/
def BitWriter.bits (w : BitWriter) : List Bool := w.out.flatMap byteBits ++ lsbBits w.nbits w.bitbuf

/-- `bitbuf` has no bits above those that wait. -/
def BitWriter.Wf (w : BitWriter) : Prop := w.bitbuf < 2 ^ w.nbits

theorem BitWriter.flush_spec {fuel : ℕ} : ∀ {w : BitWriter}, w.Wf → w.nbits ≤ fuel →
    (flush fuel w).bits = w.bits ∧ (flush fuel w).Wf ∧ (flush fuel w).nbits < 8 := by
  induction fuel with
  | zero => exact fun hw h => ⟨rfl, hw, by rw [flush]; omega⟩
  | succ fuel ih =>
    intro w hw h
    rw [flush]
    split_ifs with h8
    · obtain ⟨d, hd⟩ := Nat.exists_eq_add_of_le h8
      have hbyte : byteBits (UInt8.ofNat (w.bitbuf &&& 0xFF)) = lsbBits 8 w.bitbuf := by
        rw [byteBits, show (0xFF : ℕ) = 2 ^ 8 - 1 from rfl, Nat.and_two_pow_sub_one_eq_mod,
          UInt8.toNat_ofNat', ← lsbBits_mod 8 w.bitbuf]
        simp
      have hshift : w.bitbuf >>> 8 < 2 ^ (w.nbits - 8) := by
        rw [Nat.shiftRight_eq_div_pow, Nat.div_lt_iff_lt_mul (by decide), ← pow_add,
          Nat.sub_add_cancel h8]
        exact hw
      obtain ⟨hbits, hwf, hlt⟩ := ih (w := ⟨w.out ++ [UInt8.ofNat (w.bitbuf &&& 0xFF)],
        w.bitbuf >>> 8, w.nbits - 8⟩) hshift (by simp only; omega)
      refine ⟨hbits.trans ?_, hwf, hlt⟩
      simp only [BitWriter.bits, List.flatMap_append, List.flatMap_cons, List.flatMap_nil,
        List.append_nil, hbyte, List.append_assoc]
      rw [hd, Nat.add_sub_cancel_left, lsbBits_add, Nat.shiftRight_eq_div_pow]
    · exact ⟨rfl, hw, not_le.1 h8⟩

/-- **`put_code`** puts the bits of a code. -/
theorem BitWriter.putCode_spec {w : BitWriter} (hw : w.Wf) {code length : ℕ} (hc : code < 2 ^ length) :
    (w.putCode code length).bits = w.bits ++ lsbBits length code ∧ (w.putCode code length).Wf ∧
      (w.putCode code length).nbits < 8 := by
  have hsum : w.bitbuf ||| code <<< w.nbits = 2 ^ w.nbits * code + w.bitbuf := by
    rw [Nat.or_comm, Nat.shiftLeft_eq, mul_comm, ← Nat.two_pow_add_eq_or_of_lt hw]
  have hwf : BitWriter.Wf ⟨w.out, w.bitbuf ||| code <<< w.nbits, w.nbits + length⟩ := by
    show w.bitbuf ||| code <<< w.nbits < 2 ^ (w.nbits + length)
    have hw' : w.bitbuf < 2 ^ w.nbits := hw
    rw [hsum, pow_add]
    calc 2 ^ w.nbits * code + w.bitbuf < 2 ^ w.nbits * code + 2 ^ w.nbits := by omega
      _ = 2 ^ w.nbits * (code + 1) := by ring
      _ ≤ 2 ^ w.nbits * 2 ^ length := Nat.mul_le_mul_left _ hc
  obtain ⟨hbits, hrest⟩ := flush_spec hwf le_rfl
  refine ⟨hbits.trans ?_, hrest⟩
  have hw' : w.bitbuf < 2 ^ w.nbits := hw
  simp only [BitWriter.bits]
  rw [List.append_assoc, lsbBits_add, hsum, ← lsbBits_mod w.nbits (2 ^ w.nbits * code + w.bitbuf),
    Nat.mul_add_mod, Nat.mod_eq_of_lt hw', Nat.mul_add_div (Nat.two_pow_pos _),
    Nat.div_eq_of_lt hw', Nat.add_zero]

/-- The bits that were put come first in what is written. -/
theorem BitWriter.finish_spec {w : BitWriter} (hw : w.Wf) (h8 : w.nbits < 8) :
    w.bits <+: w.finish.flatMap byteBits := by
  unfold BitWriter.finish
  split_ifs with h0
  · obtain ⟨d, hd⟩ := Nat.exists_eq_add_of_le h8.le
    have hlt : w.bitbuf < 2 ^ 8 := lt_of_lt_of_le hw (Nat.pow_le_pow_right (by decide) h8.le)
    have hbyte : byteBits (UInt8.ofNat (w.bitbuf &&& 0xFF)) = lsbBits w.nbits w.bitbuf ++
        lsbBits d (w.bitbuf / 2 ^ w.nbits) := by
      rw [byteBits, show (0xFF : ℕ) = 2 ^ 8 - 1 from rfl, Nat.and_two_pow_sub_one_eq_mod,
        Nat.mod_eq_of_lt hlt, UInt8.toNat_ofNat', Nat.mod_eq_of_lt hlt, ← lsbBits_add, ← hd]
    rw [List.flatMap_append, List.flatMap_cons, List.flatMap_nil, List.append_nil, hbyte,
      ← List.append_assoc]
    exact List.prefix_append _ _
  · rw [not_not] at h0
    rw [BitWriter.bits, h0, lsbBits, List.append_nil]

/-! ## The round trip -/

/-- The dictionary has the codes of some lengths. -/
def SymbolCodes.Of {n : ℕ} (codes : SymbolCodes) (c : CodeLengths n) : Prop :=
  ∀ i ∈ c.symbols, codes.lookup i = some (bitsValue (c.code i), (c.code i).length)

theorem BitWriter.putSymbol_spec {n : ℕ} {codes : SymbolCodes} {c : CodeLengths n} (h : codes.Of c)
    {i : ℕ} (hi : i ∈ c.symbols) {w : BitWriter} (hw : w.Wf) : ∃ w', w.putSymbol codes i = some w' ∧
      w'.bits = w.bits ++ c.code i ∧ w'.Wf ∧ w'.nbits < 8 := by
  obtain ⟨hbits, hrest⟩ := w.putCode_spec hw (bitsValue_lt (c.code i))
  refine ⟨_, by rw [BitWriter.putSymbol, h i hi, Option.map_some], ?_, hrest⟩
  rw [hbits, lsbBits_bitsValue]

/-- The codes of the encoder are those of the first static set. -/
structure EncoderCodes.Of (e : EncoderCodes) (c : StreamCode) : Prop where
  first : e.first.Of c.first
  second : e.second.Of c.second
  offset : e.offset.Of c.offset

theorem canonicalCodes_of {lengths : List ℕ} {n : ℕ} (hn : lengths.length = n)
    (hk : KraftOk (staticLengths lengths) n) : (canonicalCodes lengths).Of
      (⟨staticLengths lengths, ((length_staticLengths lengths).trans hn).ge, hk⟩ : CodeLengths n) := by
  subst hn
  exact fun i hi => canonicalCodes_lookup hi

theorem mem_codedSymbols_static (lengths : List ℕ) {n : ℕ} (hn : lengths.length = n)
    (h : ∀ l ∈ lengths, 1 ≤ l ∧ l ≤ maxLength) {i : ℕ} (hi : i < n) :
    i ∈ codedSymbols (staticLengths lengths) n := by
  subst hn
  rw [mem_codedSymbols, symbolLength_staticLengths, List.getD_eq_getElem?_getD,
    List.getElem?_eq_getElem hi]
  exact ⟨hi, h _ (List.getElem_mem hi)⟩

/-- Every symbol of the first static set has a code. -/
theorem mem_static_symbols : (∀ i < 321, i ∈ (staticCode 1).first.symbols) ∧
    (∀ i < 321, i ∈ (staticCode 1).second.symbols) ∧
    ∀ i < 11, i ∈ (staticCode 1).offset.symbols :=
  ⟨fun _ => mem_codedSymbols_static (staticSet 1).1 (static_enough 1).1 (by decide +kernel),
    fun _ => mem_codedSymbols_static (staticSet 1).2.1 (static_enough 1).2 (by decide +kernel),
    fun _ => mem_codedSymbols_static (staticSet 1).2.2 rfl (by decide +kernel)⟩

/-- A match that is found. -/
theorem findMatch_spec {payload : List UInt8} {i dist : ℕ} (hi : i < payload.length)
    (h : findMatch payload i = some dist) : (1 ≤ dist ∧ dist ≤ 10) ∧ dist ≤ i ∧
      i + 3 ≤ payload.length ∧ ∀ k < 3, payload[i - dist + k]? = payload[i + k]? := by
  unfold findMatch at h
  split_ifs at h with h3
  have hrange := List.mem_range'_1.1 (List.mem_of_find?_eq_some h)
  have hfound := List.find?_some h
  simp only [decide_eq_true_eq] at hfound
  obtain ⟨hd, heq⟩ := hfound
  have hget : ∀ k < 3, payload[i - dist + k]? = payload[i + k]? := by
    intro k hk
    have hk' := congrArg (·[k]?) heq
    simp only [slice3, List.getElem?_take_of_lt hk, List.getElem?_drop] at hk'
    exact hk'.symm
  refine ⟨by omega, hd, ?_, hget⟩
  -- the slices have one length, and the other one is not cut
  have hlen := congrArg List.length heq
  simp only [slice3, List.length_take, List.length_drop] at hlen
  omega

/-- No byte occurs four times in a row. -/
def NoRun (payload : List UInt8) : Prop := ∀ b ∈ payload, ¬List.replicate 4 b <:+: payload

instance (payload : List UInt8) : Decidable (NoRun payload) :=
  inferInstanceAs (Decidable (∀ b ∈ payload, _))

/-- A match of distance 1 lies in a run. -/
theorem NoRun.dist_ne_one {payload : List UInt8} (h : NoRun payload) {i dist : ℕ}
    (hi : i < payload.length) (hm : findMatch payload i = some dist) : dist ≠ 1 := by
  rintro rfl
  obtain ⟨-, h1, h3, hget⟩ := findMatch_spec hi hm
  have hfirst : i - 1 < payload.length := by omega
  refine h payload[i - 1] (List.getElem_mem hfirst) ?_
  have hrun : List.replicate 4 payload[i - 1] = (payload.drop (i - 1)).take 4 := by
    refine List.ext_getElem? fun k => ?_
    by_cases hk : k < 4
    · rw [List.getElem?_replicate, if_pos hk, List.getElem?_take_of_lt hk, List.getElem?_drop]
      have h₀ := hget 0 (by decide)
      have h₁ := hget 1 (by decide)
      have h₂ := hget 2 (by decide)
      rw [show i - 1 + 1 = i by omega] at h₁
      rw [show i - 1 + 2 = i + 1 by omega] at h₂
      rw [Nat.add_zero, Nat.add_zero] at h₀
      have hsome : payload[i - 1]? = some payload[i - 1] := List.getElem?_eq_getElem hfirst
      interval_cases k
      · rw [Nat.add_zero, hsome]
      · rw [show i - 1 + 1 = i by omega, ← h₀, hsome]
      · rw [show i - 1 + 2 = i + 1 by omega, ← h₁, ← h₀, hsome]
      · rw [show i - 1 + 3 = i + 2 by omega, ← h₂, ← h₁, ← h₀, hsome]
    · rw [List.getElem?_eq_none (by rw [List.length_replicate]; omega),
        List.getElem?_eq_none (by rw [List.length_take]; omega)]
  rw [hrun]
  exact (List.take_prefix _ _).isInfix.trans (List.drop_suffix _ _).isInfix

/-- The offset code of a distance. -/
theorem offset_symbol {dist : ℕ} (h2 : 2 ≤ dist) (h10 : dist ≤ 10) : ∃ sym,
    ((List.range' 1 10).find? fun sym => offsetLo sym ≤ dist ∧ dist ≤ offsetHi sym) = some sym ∧
      (sym = 1 ∧ dist = 2 ∨ (2 ≤ sym ∧ sym ≤ 4) ∧ 2 ^ (sym - 1) + 1 ≤ dist ∧
        dist ≤ 2 ^ (sym - 1) + 2 ^ (sym - 1)) := by
  interval_cases dist <;> exact ⟨_, rfl, by decide⟩

theorem putOffset_spec {offset : SymbolCodes} {n : ℕ} {c : CodeLengths n} (h : offset.Of c)
    (hall : ∀ i < 11, i ∈ c.symbols) {dist : ℕ} (h2 : 2 ≤ dist) (h10 : dist ≤ 10) {w : BitWriter}
    (hw : w.Wf) : ∃ w' bl extra, putOffset offset dist w = some w' ∧ DistBits dist bl extra ∧
      bl ∈ c.symbols ∧ w'.bits = w.bits ++ c.code bl ++ extra ∧ w'.Wf := by
  obtain ⟨sym, hsym, hcase⟩ := offset_symbol h2 h10
  have hmem : sym ∈ c.symbols := hall sym (by omega)
  obtain ⟨w₁, hput, hbits, hw₁, -⟩ := w.putSymbol_spec h hmem hw
  have hrun : putOffset offset dist w =
      some (if 1 < sym then w₁.putCode (dist - 1 <<< (sym - 1) - 1) (sym - 1) else w₁) := by
    rw [putOffset, hsym]
    simp only [hput, Option.bind_eq_bind, Option.bind_some]
  rw [hrun]
  rcases hcase with ⟨rfl, rfl⟩ | ⟨⟨hlo, hhi⟩, hmin, hmax⟩
  · exact ⟨w₁, 1, [], rfl, .two, hmem, by rw [hbits, List.append_nil], hw₁⟩
  · have hlt : dist - 1 <<< (sym - 1) - 1 < 2 ^ (sym - 1) := by
      rw [Nat.one_shiftLeft]
      omega
    obtain ⟨x, hx⟩ : ∃ x, dist - 1 <<< (sym - 1) - 1 = x := ⟨_, rfl⟩
    rw [hx] at hlt ⊢
    obtain ⟨hbits₂, hw₂, -⟩ := w₁.putCode_spec hw₁ hlt
    refine ⟨_, sym, lsbBits (sym - 1) x, rfl, ?_, hmem, ?_, ?_⟩
    · have hdist : dist = 2 ^ (sym - 1) + bitsValue (lsbBits (sym - 1) x) + 1 := by
        rw [Nat.one_shiftLeft] at hx
        rw [bitsValue_lsbBits, Nat.mod_eq_of_lt hlt]
        omega
      rw [hdist]
      exact .more hlo (length_lsbBits _ _)
    · rw [if_pos (by omega), hbits₂, hbits]
    · rw [if_pos (by omega)]
      exact hw₂

/-- **The loop** writes tokens for what is left of the payload. -/
theorem encodeLoop_spec {e : EncoderCodes} {payload : List UInt8} (he : e.Of (staticCode 1))
    (hrun : NoRun payload) {fuel : ℕ} : ∀ {ctx : SymbolCodes} {cur : CodeLengths 321} {i : ℕ}
      {w : BitWriter}, ctx.Of cur → (∀ k < 321, k ∈ cur.symbols) → payload.length ≤ i + fuel →
      w.Wf → ∃ w' ts bits, encodeLoop e payload fuel ctx i w = some w' ∧
        StreamBits (staticCode 1) true cur ts bits ∧ w'.bits = w.bits ++ bits ∧
        (w'.Wf ∧ w'.nbits < 8) ∧
        LzOk (payload.take i) ts ∧ lzExpand (payload.take i) ts = payload := by
  have hend : ∀ {ctx : SymbolCodes} {cur : CodeLengths 321} {i : ℕ} {w : BitWriter}, ctx.Of cur →
      (∀ k < 321, k ∈ cur.symbols) → payload.length ≤ i → w.Wf →
      ∃ w' ts bits, w.putSymbol ctx 0x140 = some w' ∧
        StreamBits (staticCode 1) true cur ts bits ∧ w'.bits = w.bits ++ bits ∧ (w'.Wf ∧ w'.nbits < 8) ∧
        LzOk (payload.take i) ts ∧ lzExpand (payload.take i) ts = payload := by
    intro ctx cur i w hctx hcur hi hw
    have hmem : 0x140 ∈ cur.symbols := hcur _ (by decide)
    obtain ⟨w', hput, hbits, hw'⟩ := w.putSymbol_spec hctx hmem hw
    exact ⟨w', [], _, hput, .stop hmem (by decide), hbits, hw', trivial, List.take_of_length_le hi⟩
  obtain ⟨hfirst, hsecond, hoffset⟩ := mem_static_symbols
  induction fuel with
  | zero => exact fun hctx hcur hi hw => hend hctx hcur hi hw
  | succ fuel ih =>
    intro ctx cur i w hctx hcur hi hw
    rw [encodeLoop]
    cases hget : payload[i]? with
    | none => exact hend hctx hcur (List.getElem?_eq_none_iff.1 hget) hw
    | some b =>
      obtain ⟨hlt, hb⟩ := List.getElem?_eq_some_iff.1 hget
      cases hm : findMatch payload i with
      | none =>
        have hmem : b.toNat ∈ cur.symbols := hcur _ (b.toNat_lt.trans (by decide))
        obtain ⟨w₁, hput, hbits₁, hw₁, -⟩ := w.putSymbol_spec hctx hmem hw
        obtain ⟨w', ts, bits, hloop, hstream, hbits, hw', hok, hexp⟩ :=
          ih he.first hfirst (i := i + 1) (by omega) hw₁
        have htake : LzToken.expand (payload.take i) (.literal b) = payload.take (i + 1) := by
          rw [LzToken.expand, List.take_add_one, hget, Option.toList_some]
        refine ⟨w', .literal b :: ts, _, ?_, .literal hmem hstream, ?_, hw', ⟨trivial, ?_⟩, ?_⟩
        · simp only [hput, Option.bind_eq_bind, Option.bind_some, hloop]
        · rw [hbits, hbits₁, List.append_assoc]
        · rw [htake]
          exact hok
        · rw [lzExpand, List.foldl_cons, htake]
          exact hexp
      | some dist =>
        obtain ⟨⟨h1, h10⟩, hd, h3, hsame⟩ := findMatch_spec hlt hm
        have hne := hrun.dist_ne_one hlt hm
        have hmem : 0x100 ∈ cur.symbols := hcur _ (by decide)
        obtain ⟨w₁, hput, hbits₁, hw₁, -⟩ := w.putSymbol_spec hctx hmem hw
        obtain ⟨w₂, bl, extra, hoff, hdist, hbl, hbits₂, hw₂⟩ :=
          putOffset_spec he.offset hoffset (by omega) h10 hw₁
        obtain ⟨w', ts, bits, hloop, hstream, hbits, hw', hok, hexp⟩ :=
          ih he.second hsecond (i := i + 3) (by omega) hw₂
        have htake : LzToken.expand (payload.take i) (.copy 3 dist) = payload.take (i + 3) :=
          lzCopy_take h1 hd h3 hsame
        have hlen : (payload.take i).length = i := by
          rw [List.length_take]
          omega
        refine ⟨w', .copy 3 dist :: ts, _, ?_,
          .copy (.short le_rfl (by decide)) hmem hdist hbl hstream, ?_, hw', ⟨⟨h1, ?_⟩, ?_⟩, ?_⟩
        · simp only [hput, hoff, Option.bind_eq_bind, Option.bind_some, hloop]
        · rw [hbits, hbits₂, hbits₁]
          simp only [List.append_assoc, List.append_nil]
        · rw [hlen]
          exact hd
        · rw [htake]
          exact hok
        · rw [lzExpand, List.foldl_cons, htake]
          exact hexp

theorem encoderCodes_of (k : ℕ) : EncoderCodes.Of ⟨canonicalCodes (staticSet k).1,
    canonicalCodes (staticSet k).2.1, canonicalCodes (staticSet k).2.2⟩ (staticCode k) :=
  ⟨canonicalCodes_of (static_enough k).1 (static_kraft k).1,
    canonicalCodes_of (static_enough k).2 (static_kraft k).2.1,
    canonicalCodes_of rfl (static_kraft k).2.2⟩

/-- **What the encoder writes is decompressed** to the payload, if no byte occurs four times
    in a row in it; and to its beginning, if less is asked for. -/
theorem lzh13_roundTrip {payload : List UInt8} (hrun : NoRun payload) : ∃ data,
    lzh13Encode payload = some data ∧
      ∀ outLen, decompress data outLen = .ok (payload.take outLen) := by
  have he := encoderCodes_of 1
  simp only [staticSet] at he
  obtain ⟨w', ts, bits, hloop, hstream, hbits, ⟨hw', h8⟩, hok, hexp⟩ :=
    encodeLoop_spec he hrun (i := 0) (w := ⟨[0x11], 0, 0⟩) he.first mem_static_symbols.1
      (Nat.zero_add payload.length).ge (Nat.two_pow_pos 0)
  refine ⟨w'.finish, by rw [lzh13Encode, hloop, Option.map_some], fun outLen => ?_⟩
  have hdata : lsbBits 8 (16 * 1 + 1) ++ bits <+: w'.finish.flatMap byteBits :=
    hbits ▸ w'.finish_spec hw' h8
  have hheader : HeaderBits (staticCode 1) (lsbBits 8 (16 * 1 + 1)) :=
    .static (by decide) (by decide) (by decide)
  obtain ⟨t, br, rest, ht, hr, hfuel, heq⟩ := decompress_header hheader hstream hdata outLen
  rw [List.take_zero] at hok hexp
  have hcut : true = false → outLen ≤ (lzExpand [] ts).length := fun h => absurd h (by decide)
  obtain ⟨out, hout, htake⟩ := decompressLoop_stream ht hstream ht.first hfuel hok hcut hr
  rw [heq, hout, ok_bind, htake, hexp]

/-- A payload with matches. -/
theorem lzh13_roundTrip_matches : ∃ data,
    lzh13Encode [0x61, 0x62, 0x61, 0x62, 0x61, 0x62, 0x63, 0x63, 0x63] = some data ∧
      ∀ outLen, decompress data outLen =
        .ok ([0x61, 0x62, 0x61, 0x62, 0x61, 0x62, 0x63, 0x63, 0x63].take outLen) :=
  lzh13_roundTrip (by decide +kernel)

end Usbmidi9.Sit5
