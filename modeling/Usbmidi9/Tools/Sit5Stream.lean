/-
  USBMIDI9 — what a method-13 stream says (`tools/re/sit5.py`).

  `StreamBits` are the bits that some tokens are written with, `HeaderBits` those that
  announce the tables: one of the five static sets, or tables that are transmitted.  A table
  is transmitted by symbols of the metacode that set, increment or decrement a length or
  leave it unassigned, and repeat it (`TableBits`).

  `decompress_stream` is the result: on every stream that is written so, whatever
  follows it, `decompress` returns what the tokens write, as far as it is asked for.
-/
import Usbmidi9.Lib.Lz
import Usbmidi9.Tools.Sit5Codes

namespace Usbmidi9.Sit5

open Outcome

/-! ## Tokens as bits -/

/-- The code lengths of `n` symbols, which form a prefix code. -/
structure CodeLengths (n : ℕ) where
  lengths : List ℤ
  enough : n ≤ lengths.length
  kraft : KraftOk lengths n

namespace CodeLengths
variable {n : ℕ} (c : CodeLengths n)

/-- The symbols that have a code. -/
abbrev symbols : Finset ℕ := codedSymbols c.lengths n

/-- The codeword of a symbol. -/
abbrev code (i : ℕ) : List Bool := symbolCode c.lengths n i

/-- A table of these lengths. -/
def Table (table : CodeTable) : Prop := table.Holds c.symbols c.code

end CodeLengths

/-- The code lengths of a stream. -/
structure StreamCode where
  first : CodeLengths 321
  second : CodeLengths 321
  offsets : ℕ
  offset : CodeLengths offsets

/-- The symbol of a match length, and the bits that follow it. -/
inductive LengthBits : ℕ → ℕ → List Bool → Prop
  | short {length : ℕ} (h3 : 3 ≤ length) (h : length < 65) : LengthBits length (length + 0xfd) []
  | medium {l : List Bool} (h : l.length = 10) : LengthBits (bitsValue l + 65) 0x13e l
  | long {l : List Bool} (h : l.length = 15) : LengthBits (bitsValue l + 65) 0x13f l

/-- The symbol of a match distance, and the bits that follow it. -/
inductive DistBits : ℕ → ℕ → List Bool → Prop
  | one : DistBits 1 0 []
  | two : DistBits 2 1 []
  | more {bl : ℕ} {l : List Bool} (h2 : 2 ≤ bl) (h : l.length = bl - 1) :
      DistBits (2 ^ (bl - 1) + bitsValue l + 1) bl l

/-- The bits of some tokens, and of the end symbol if the stream is closed; the next symbol
    is one of `cur`. -/
inductive StreamBits (c : StreamCode) :
    Bool → CodeLengths 321 → List (LzToken UInt8) → List Bool → Prop
  | stop {cur : CodeLengths 321} {i : ℕ} (hi : i ∈ cur.symbols) (h : 0x13f < i) :
      StreamBits c true cur [] (cur.code i)
  | cut {cur : CodeLengths 321} : StreamBits c false cur [] []
  | literal {closed : Bool} {cur : CodeLengths 321} {b : UInt8} {ts : List (LzToken UInt8)}
      {bits : List Bool} (hb : b.toNat ∈ cur.symbols) (h : StreamBits c closed c.first ts bits) :
      StreamBits c closed cur (.literal b :: ts) (cur.code b.toNat ++ bits)
  | copy {closed : Bool} {cur : CodeLengths 321} {length dist sym bl : ℕ}
      {extra extra' : List Bool} {ts : List (LzToken UInt8)} {bits : List Bool}
      (hlength : LengthBits length sym extra) (hsym : sym ∈ cur.symbols)
      (hdist : DistBits dist bl extra') (hbl : bl ∈ c.offset.symbols)
      (h : StreamBits c closed c.second ts bits) :
      StreamBits c closed cur (.copy length dist :: ts)
        (cur.code sym ++ extra ++ c.offset.code bl ++ extra' ++ bits)

/-- The tables of a stream. -/
structure Tables.Of (t : Tables) (c : StreamCode) : Prop where
  first : c.first.Table t.first
  second : c.second.Table t.second
  offset : c.offset.Table t.offset

theorem CodeLengths.Table.nextSymbol {n : ℕ} {c : CodeLengths n} {table : CodeTable}
    (h : c.Table table) {i : ℕ} (hi : i ∈ c.symbols) {rest : List Bool} {br : BitReader}
    (hr : br.rest = c.code i ++ rest) :
    ∃ br', nextSymbol table br = .ok (i, br') ∧ br'.rest = rest :=
  nextSymbol_symbolCode h c.kraft hi hr

theorem matchLength_spec {length sym : ℕ} {extra rest : List Bool} (h : LengthBits length sym extra)
    {br : BitReader} (hr : br.rest = extra ++ rest) :
    ∃ br', matchLength sym br = .ok (length, br') ∧ br'.rest = rest := by
  cases h with
  | short h3 h =>
    refine ⟨br, ?_, hr⟩
    rw [matchLength, if_pos (by omega)]
    congr 2
    omega
  | medium h =>
    obtain ⟨br', hb, hr'⟩ := br.nextBits_append hr
    rw [h] at hb
    exact ⟨br', by simp [matchLength, hb], hr'⟩
  | long h =>
    obtain ⟨br', hb, hr'⟩ := br.nextBits_append hr
    rw [h] at hb
    exact ⟨br', by simp [matchLength, hb], hr'⟩

theorem matchDistance_spec {dist bl : ℕ} {extra rest : List Bool} (h : DistBits dist bl extra)
    {br : BitReader} (hr : br.rest = extra ++ rest) :
    ∃ br', matchDistance bl br = .ok (dist, br') ∧ br'.rest = rest := by
  cases h with
  | one => exact ⟨br, rfl, hr⟩
  | two => exact ⟨br, rfl, hr⟩
  | more h2 h =>
    obtain ⟨br', hb, hr'⟩ := br.nextBits_append hr
    rw [h] at hb
    refine ⟨br', ?_, hr'⟩
    rw [matchDistance, if_neg (by omega), if_neg (by omega), hb, ok_bind, Nat.one_shiftLeft]

theorem copyMatch_eq {dist n : ℕ} {out : List UInt8} (h1 : 1 ≤ dist) (hd : dist ≤ out.length) :
    copyMatch dist n out = .ok (lzCopy dist n out) := by
  induction n generalizing out with
  | zero => rfl
  | succ n ih =>
    have hget : out[out.length - dist]? = some out[out.length - dist] :=
      List.getElem?_eq_getElem (by omega)
    rw [copyMatch, byteBack, if_pos hd, lzCopy, hget]
    exact ih (by rw [List.length_append]; exact hd.trans (Nat.le_add_right _ _))

theorem take_of_prefix {α : Type*} {k l : List α} {n : ℕ} (h : k <+: l) (hn : n ≤ k.length) :
    k.take n = l.take n := by
  obtain ⟨m, rfl⟩ := h
  rw [List.take_append_of_le_length hn]

/-- **The loop** reads the tokens one after the other, up to the end symbol or until it has
    enough. -/
theorem decompressLoop_stream {t : Tables} {c : StreamCode} (ht : t.Of c) {outLen : ℕ}
    {closed : Bool} {cur : CodeLengths 321} {ts : List (LzToken UInt8)} {bits : List Bool}
    (h : StreamBits c closed cur ts bits) : ∀ {currcode : CodeTable} {fuel : ℕ}
      {out : List UInt8} {br : BitReader} {rest : List Bool}, cur.Table currcode →
      ts.length < fuel → LzOk out ts →
      (closed = false → outLen ≤ (lzExpand out ts).length) → br.rest = bits ++ rest →
      ∃ out', decompressLoop t outLen fuel currcode out br = .ok out' ∧
        out'.take outLen = (lzExpand out ts).take outLen := by
  induction h with
  | @stop cur i hi h =>
    intro currcode fuel out br rest hcur hfuel _ _ hr
    obtain ⟨fuel, rfl⟩ := Nat.exists_eq_succ_of_ne_zero (Nat.ne_of_gt (Nat.zero_lt_of_lt hfuel))
    rw [decompressLoop]
    split_ifs with hlen
    · obtain ⟨br₁, hsym, -⟩ := hcur.nextSymbol hi hr
      refine ⟨out, ?_, rfl⟩
      rw [hsym, ok_bind]
      simp only
      rw [if_neg (by omega), if_pos h]
    · exact ⟨out, rfl, rfl⟩
  | cut =>
    intro currcode fuel out br rest _ hfuel _ hcut _
    obtain ⟨fuel, rfl⟩ := Nat.exists_eq_succ_of_ne_zero (Nat.ne_of_gt (Nat.zero_lt_of_lt hfuel))
    have henough : outLen ≤ out.length := hcut rfl
    rw [decompressLoop, if_neg (not_lt.2 henough)]
    exact ⟨out, rfl, rfl⟩
  | @literal closed cur b ts bits hb _ ih =>
    intro currcode fuel out br rest hcur hfuel hok hcut hr
    obtain ⟨fuel, rfl⟩ := Nat.exists_eq_succ_of_ne_zero (Nat.ne_of_gt (Nat.zero_lt_of_lt hfuel))
    rw [decompressLoop]
    split_ifs with hlen
    · rw [List.append_assoc] at hr
      obtain ⟨br₁, hsym, hr₁⟩ := hcur.nextSymbol hb hr
      have hbyte : b.toNat < 0x100 := b.toNat_lt
      rw [hsym, ok_bind]
      simp only
      rw [if_pos hbyte, UInt8.ofNat_toNat]
      exact ih ht.first (by simpa using hfuel) hok.2 hcut hr₁
    · exact ⟨out, rfl, take_of_prefix (prefix_lzExpand _ _) (not_lt.1 hlen)⟩
  | @copy closed cur length dist sym bl extra extra' ts bits hlength hsym hdist hbl _ ih =>
    intro currcode fuel out br rest hcur hfuel hok hcut hr
    obtain ⟨fuel, rfl⟩ := Nat.exists_eq_succ_of_ne_zero (Nat.ne_of_gt (Nat.zero_lt_of_lt hfuel))
    rw [decompressLoop]
    split_ifs with hlen
    · simp only [List.append_assoc] at hr
      obtain ⟨br₁, h₁, hr₁⟩ := hcur.nextSymbol hsym hr
      obtain ⟨br₂, h₂, hr₂⟩ := matchLength_spec hlength hr₁
      obtain ⟨br₃, h₃, hr₃⟩ := ht.offset.nextSymbol hbl hr₂
      obtain ⟨br₄, h₄, hr₄⟩ := matchDistance_spec hdist hr₃
      have hrange : 0x100 ≤ sym ∧ sym ≤ 0x13f := by cases hlength <;> omega
      rw [h₁, ok_bind]
      simp only
      rw [if_neg (by omega), if_neg (by omega), h₂, ok_bind]
      simp only [h₃, ok_bind, h₄, copyMatch_eq hok.1.1 hok.1.2]
      exact ih ht.second (by simpa using hfuel) hok.2 hcut hr₄
    · exact ⟨out, rfl, take_of_prefix (prefix_lzExpand _ _) (not_lt.1 hlen)⟩

theorem StreamBits.length_le {c : StreamCode} {closed : Bool} {cur : CodeLengths 321}
    {ts : List (LzToken UInt8)} {bits : List Bool} (h : StreamBits c closed cur ts bits) :
    ts.length ≤ bits.length := by
  have hpos : ∀ {cur : CodeLengths 321} {i : ℕ}, i ∈ cur.symbols → 1 ≤ (cur.code i).length := by
    intro cur i hi
    rw [CodeLengths.code, symbolCode, length_codeword]
    exact (mem_codedSymbols.1 hi).2.1
  induction h with
  | stop hi _ => exact Nat.zero_le _
  | cut => exact le_rfl
  | literal hb _ ih =>
    have h1 := hpos hb
    simp only [List.length_cons, List.length_append]
    omega
  | copy _ hsym _ _ _ ih =>
    have h1 := hpos hsym
    simp only [List.length_cons, List.length_append]
    omega

/-! ## Headers -/

theorem static_enough (k : ℕ) : (staticSet k).1.length = 321 ∧ (staticSet k).2.1.length = 321 := by
  unfold staticSet
  split <;> decide +kernel

/-- The lengths of a static table. -/
def staticLengths (l : List ℕ) : List ℤ := l.map (↑)

theorem length_staticLengths (l : List ℕ) : (staticLengths l).length = l.length := List.length_map _

/-- Every static table is a prefix code. -/
theorem static_kraft (k : ℕ) : KraftOk (staticLengths (staticSet k).1) 321 ∧
    KraftOk (staticLengths (staticSet k).2.1) 321 ∧
    KraftOk (staticLengths (staticSet k).2.2) (staticSet k).2.2.length := by
  have hsum : ∀ l ∈ [(staticSet k).1, (staticSet k).2.1, (staticSet k).2.2],
      (((staticLengths l).take l.length).map lengthWeight).sum ≤ 2 ^ maxLength := by
    unfold staticSet
    split <;> decide +kernel
  have hok : ∀ l ∈ [(staticSet k).1, (staticSet k).2.1, (staticSet k).2.2],
      KraftOk (staticLengths l) l.length := fun l hl =>
    kraftOk_of_sum (length_staticLengths l).ge (hsum l hl)
  refine ⟨?_, ?_, hok _ (by simp)⟩
  · exact (static_enough k).1 ▸ hok _ (by simp)
  · exact (static_enough k).2 ▸ hok _ (by simp)

/-- The code lengths of a static set. -/
def staticCode (k : ℕ) : StreamCode where
  first := ⟨staticLengths (staticSet k).1,
    ((length_staticLengths _).trans (static_enough k).1).ge, (static_kraft k).1⟩
  second := ⟨staticLengths (staticSet k).2.1,
    ((length_staticLengths _).trans (static_enough k).2).ge, (static_kraft k).2.1⟩
  offsets := (staticSet k).2.2.length
  offset := ⟨staticLengths (staticSet k).2.2, (length_staticLengths _).ge, (static_kraft k).2.2⟩

/-- The codeword of a symbol of the metacode. -/
def metaWord (i : ℕ) : List Bool := lsbBits (metaLengths.getD i 0) (metaCodes.getD i 0)

/-- What a symbol of the metacode, with the bits that follow it, makes of the length before
    it, and how often it repeats that. -/
inductive MetaBits : ℤ → ℕ → List Bool → ℤ → ℕ → Prop
  | set {l : ℤ} {i : ℕ} (h : i < 31) : MetaBits l i [] (i + 1) 0
  | unassigned {l : ℤ} : MetaBits l 31 [] (-1) 0
  | increment {l : ℤ} : MetaBits l 32 [] (l + 1) 0
  | decrement {l : ℤ} : MetaBits l 33 [] (l - 1) 0
  | again {l : ℤ} (b : Bool) : MetaBits l 34 [b] l b.toNat
  | few {l : ℤ} {bits : List Bool} (h : bits.length = 3) : MetaBits l 35 bits l (bitsValue bits + 2)
  | many {l : ℤ} {bits : List Bool} (h : bits.length = 6) :
      MetaBits l 36 bits l (bitsValue bits + 10)

/-- How many lengths a symbol transmits if `m` are missing: its repetitions, and one more
    unless they were enough. -/
def metaCount (m reps : ℕ) : ℕ := if reps < m then reps + 1 else reps

/-- The bits that transmit at least `m` lengths, behind the length `l`. -/
inductive TableBits : ℕ → ℤ → List ℤ → List Bool → Prop
  | done {l : ℤ} : TableBits 0 l [] []
  | symbol {m : ℕ} {l : ℤ} {i : ℕ} {extra : List Bool} {l' : ℤ} {reps : ℕ} {lengths : List ℤ}
      {bits : List Bool} (hm : 0 < m) (hsym : MetaBits l i extra l' reps)
      (h : TableBits (m - metaCount m reps) l' lengths bits) :
      TableBits m l (List.replicate (metaCount m reps) l' ++ lengths) (metaWord i ++ extra ++ bits)

/-- The bits before the symbols of a stream. -/
inductive HeaderBits : StreamCode → List Bool → Prop
  | static {k low : ℕ} (h1 : 1 ≤ k) (h5 : k ≤ 5) (hlow : low < 16) :
      HeaderBits (staticCode k) (lsbBits 8 (16 * k + low))
  | separate {first second : CodeLengths 321} {m : ℕ} {offset : CodeLengths (m + 10)}
      {bits bits' bits'' : List Bool} (hm : m < 8) (hfirst : TableBits 321 0 first.lengths bits)
      (hsecond : TableBits 321 0 second.lengths bits')
      (hoffset : TableBits (m + 10) 0 offset.lengths bits'') :
      HeaderBits ⟨first, second, m + 10, offset⟩ (lsbBits 8 m ++ bits ++ bits' ++ bits'')
  | shared {first : CodeLengths 321} {m : ℕ} {offset : CodeLengths (m + 10)}
      {bits bits' : List Bool} (hm : m < 8) (hfirst : TableBits 321 0 first.lengths bits)
      (hoffset : TableBits (m + 10) 0 offset.lengths bits') :
      HeaderBits ⟨first, first, m + 10, offset⟩ (lsbBits 8 (8 + m) ++ bits ++ bits')

theorem metaWord_prefixFree : PrefixFree (Finset.range 37) metaWord := by
  unfold PrefixFree
  decide +kernel

theorem metaWord_length : ∀ i < 37, 1 ≤ (metaWord i).length ∧ (metaWord i).length ≤ 32 := by
  decide +kernel

/-- **The metacode's table.** -/
theorem metaCode_holds : metaCode.Holds (Finset.range 37) metaWord := by
  have hmem : ∀ v length i, (v, length, i) ∈ metaCode ↔
      i < 37 ∧ v = metaCodes.getD i 0 ∧ length = metaLengths.getD i 0 := by
    intro v length i
    simp only [metaCode, buildDirect, List.mem_reverse, List.mem_map, List.mem_range, Prod.mk.injEq]
    constructor
    · rintro ⟨j, hj, rfl, rfl, rfl⟩
      exact ⟨hj, rfl, rfl⟩
    · rintro ⟨hi, rfl, rfl⟩
      exact ⟨i, hi, rfl, rfl, rfl⟩
  have hinj : ∀ i < 37, ∀ j < 37, metaCodes.getD i 0 = metaCodes.getD j 0 → i = j := by
    decide +kernel
  have hval : ∀ i < 37, bitsValue (metaWord i) = metaCodes.getD i 0 := by decide +kernel
  have hfun : ∀ k v w, (k, v) ∈ metaCode → (k, w) ∈ metaCode → v = w := by
    rintro k ⟨l, i⟩ ⟨l', j⟩ hv hw
    obtain ⟨hi, rfl, rfl⟩ := (hmem _ _ _).1 hv
    obtain ⟨hj, hk, rfl⟩ := (hmem _ _ _).1 hw
    rw [hinj i hi j hj hk]
  intro v length i
  rw [lookup_eq_some_iff hfun, hmem, Finset.mem_range]
  constructor
  · rintro ⟨hi, rfl, rfl⟩
    exact ⟨hi, (length_lsbBits _ _).symm, (hval i hi).symm⟩
  · rintro ⟨hi, rfl, rfl⟩
    exact ⟨hi, hval i hi, length_lsbBits _ _⟩

theorem nextSymbol_metaWord {i : ℕ} (hi : i < 37) {rest : List Bool} {br : BitReader}
    (hr : br.rest = metaWord i ++ rest) :
    ∃ br', nextSymbol metaCode br = .ok (i, br') ∧ br'.rest = rest := by
  obtain ⟨h1, h32⟩ := metaWord_length i hi
  exact nextSymbol_codeword metaCode_holds metaWord_prefixFree (Finset.mem_range.2 hi)
    (List.ne_nil_of_length_pos h1) h32 hr

theorem MetaBits.lt {l l' : ℤ} {i reps : ℕ} {extra : List Bool} (h : MetaBits l i extra l' reps) :
    i < 37 := by
  cases h <;> omega

/-- **Every symbol of the metacode** does what it says. -/
theorem dynamicSymbol_spec {l l' : ℤ} {i reps : ℕ} {extra : List Bool}
    (h : MetaBits l i extra l' reps) (lengths : List ℤ) {br : BitReader} {rest : List Bool}
    (hr : br.rest = extra ++ rest) :
    ∃ br', dynamicSymbol i ⟨l, lengths⟩ br =
      .ok (⟨l', lengths ++ List.replicate reps l'⟩, br') ∧ br'.rest = rest := by
  cases h with
  | set h =>
    refine ⟨br, ?_, hr⟩
    rw [dynamicSymbol, if_neg (by omega), if_neg (by omega), if_neg (by omega), if_neg (by omega),
      if_neg (by omega), if_neg (by omega), List.replicate_zero, List.append_nil]
  | unassigned | increment | decrement =>
    refine ⟨br, ?_, hr⟩
    rw [List.replicate_zero, List.append_nil]
    rfl
  | again b =>
    obtain ⟨br', hb, hr'⟩ := br.nextBit_cons hr
    refine ⟨br', ?_, hr'⟩
    cases b <;> simp [dynamicSymbol, hb, DynamicState.append]
  | few h =>
    obtain ⟨br', hb, hr'⟩ := br.nextBits_append hr
    rw [h] at hb
    exact ⟨br', by simp [dynamicSymbol, hb, DynamicState.append], hr'⟩
  | many h =>
    obtain ⟨br', hb, hr'⟩ := br.nextBits_append hr
    rw [h] at hb
    exact ⟨br', by simp [dynamicSymbol, hb, DynamicState.append], hr'⟩

/-- The repetitions of a symbol, and one more unless they were enough. -/
theorem append_metaCount {lengths : List ℤ} {n m : ℕ} (hm : n - lengths.length = m) (l : ℤ)
    (reps : ℕ) :
    (if (lengths ++ List.replicate reps l).length < n then
        DynamicState.append ⟨l, lengths ++ List.replicate reps l⟩ 1
      else ⟨l, lengths ++ List.replicate reps l⟩) =
      ⟨l, lengths ++ List.replicate (metaCount m reps) l⟩ := by
  have hiff : (lengths ++ List.replicate reps l).length < n ↔ reps < m := by
    rw [List.length_append, List.length_replicate]
    omega
  unfold metaCount DynamicState.append
  by_cases hlt : reps < m
  · rw [if_pos (hiff.2 hlt), if_pos hlt, List.append_assoc, List.replicate_append_replicate]
  · rw [if_neg (mt hiff.1 hlt), if_neg hlt]

/-- **The loop of a table**, symbol by symbol. -/
theorem dynamicLoop_bits {numcodes m : ℕ} {l : ℤ} {ls : List ℤ} {bits : List Bool}
    (h : TableBits m l ls bits) : ∀ {fuel : ℕ} {lengths : List ℤ} {br : BitReader}
      {rest : List Bool}, numcodes - lengths.length = m → m < fuel → br.rest = bits ++ rest →
      ∃ st br', dynamicLoop metaCode numcodes fuel ⟨l, lengths⟩ br = .ok (st, br') ∧
        st.lengths = lengths ++ ls ∧ br'.rest = rest := by
  induction h with
  | @done l =>
    intro fuel lengths br rest hm hfuel hr
    obtain ⟨fuel, rfl⟩ := Nat.exists_eq_succ_of_ne_zero hfuel.ne'
    refine ⟨⟨l, lengths⟩, br, ?_, (List.append_nil _).symm, hr⟩
    rw [dynamicLoop, if_neg (by dsimp only; omega)]
  | @symbol m l i extra l' reps ls bits hpos hsym _ ih =>
    intro fuel lengths br rest hm hfuel hr
    obtain ⟨fuel, rfl⟩ := Nat.exists_eq_succ_of_ne_zero (Nat.ne_of_gt (Nat.zero_lt_of_lt hfuel))
    simp only [List.append_assoc] at hr
    obtain ⟨br₁, h₁, hr₁⟩ := nextSymbol_metaWord hsym.lt hr
    obtain ⟨br₂, h₂, hr₂⟩ := dynamicSymbol_spec hsym lengths hr₁
    have hcount : 1 ≤ metaCount m reps := by
      unfold metaCount
      split_ifs <;> omega
    have hleft : numcodes - (lengths ++ List.replicate (metaCount m reps) l').length =
        m - metaCount m reps := by
      rw [List.length_append, List.length_replicate]
      omega
    have hfuel' : m - metaCount m reps < fuel := by omega
    obtain ⟨st, br', hloop, hlengths, hr'⟩ := ih hleft hfuel' hr₂
    refine ⟨st, br', ?_, by rw [hlengths, List.append_assoc], hr'⟩
    rw [dynamicLoop, if_pos (by dsimp only; omega), h₁, ok_bind]
    simp only [h₂, ok_bind, append_metaCount hm l' reps, hloop]

/-- **A transmitted table is received.** -/
theorem parseDynamicTable_bits {n : ℕ} {c : CodeLengths n} {bits : List Bool}
    (h : TableBits n 0 c.lengths bits) {br : BitReader} {rest : List Bool}
    (hr : br.rest = bits ++ rest) :
    ∃ table br', parseDynamicTable br metaCode n = .ok (table, br') ∧ c.Table table ∧
      br'.rest = rest := by
  have hnone : n - ([] : List ℤ).length = n := rfl
  obtain ⟨st, br', hloop, hlengths, hr'⟩ := dynamicLoop_bits h hnone (Nat.lt_succ_self n) hr
  obtain ⟨table, hbuild, htable⟩ := buildCanonical_holds c.enough c.kraft
  refine ⟨table, br', ?_, htable, hr'⟩
  rw [parseDynamicTable, hloop, ok_bind]
  simp only [hlengths, List.nil_append, hbuild, ok_bind]

theorem makeStaticCode_table {l : List ℕ} {n : ℕ} (hn : l.length = n)
    (hk : KraftOk (staticLengths l) n) : ∃ table, makeStaticCode l = .ok table ∧
      CodeLengths.Table ⟨staticLengths l, ((length_staticLengths l).trans hn).ge, hk⟩ table := by
  subst hn
  exact buildCanonical_holds (length_staticLengths l).ge hk

/-- **The header** is read, and announces the tables. -/
theorem readTables_header {c : StreamCode} {bits rest : List Bool} (h : HeaderBits c bits)
    {br : BitReader} (hr : br.rest = bits ++ rest) : ∃ val t br₁ br₂,
      br.nextBits 8 = .ok (val, br₁) ∧ readTables val br₁ = .ok (t, br₂) ∧ t.Of c ∧
        br₂.rest = rest := by
  cases h with
  | @static k low h1 h5 hlow =>
    obtain ⟨br₁, hval, hr₁⟩ := br.nextBits_append hr
    rw [length_lsbBits, bitsValue_lsbBits, Nat.mod_eq_of_lt (by omega)] at hval
    have hk : (16 * k + low) >>> 4 = k := by
      rw [Nat.shiftRight_eq_div_pow]
      omega
    obtain ⟨first, hf, hfirst⟩ := makeStaticCode_table (static_enough k).1 (static_kraft k).1
    obtain ⟨second, hs, hsecond⟩ := makeStaticCode_table (static_enough k).2 (static_kraft k).2.1
    obtain ⟨offset, ho, hoffset⟩ := makeStaticCode_table rfl (static_kraft k).2.2
    refine ⟨_, ⟨first, second, offset⟩, br₁, br₁, hval, ?_, ⟨hfirst, hsecond, hoffset⟩, hr₁⟩
    simp only [readTables, hk, hf, hs, ho, ok_bind]
    rw [if_neg (by omega), if_pos (by omega)]
  | @separate first second m offset bits bits' bits'' hm hfirst hsecond hoffset =>
    simp only [List.append_assoc] at hr
    obtain ⟨br₁, hval, hr₁⟩ := br.nextBits_append hr
    rw [length_lsbBits, bitsValue_lsbBits, Nat.mod_eq_of_lt (by omega)] at hval
    have hcode : m >>> 4 = 0 ∧ m &&& 0x08 = 0 ∧ m &&& 0x07 = m := by interval_cases m <;> decide
    obtain ⟨hcode, hshared, hlow⟩ := hcode
    obtain ⟨t₁, br₂, hp₁, ht₁, hr₂⟩ := parseDynamicTable_bits hfirst hr₁
    obtain ⟨t₂, br₃, hp₂, ht₂, hr₃⟩ := parseDynamicTable_bits hsecond hr₂
    obtain ⟨t₃, br₄, hp₃, ht₃, hr₄⟩ := parseDynamicTable_bits hoffset hr₃
    refine ⟨m, ⟨t₁, t₂, t₃⟩, br₁, br₄, hval, ?_, ⟨ht₁, ht₂, ht₃⟩, hr₄⟩
    simp [readTables, hcode, hshared, hlow, hp₁, hp₂, hp₃]
  | @shared first m offset bits bits' hm hfirst hoffset =>
    simp only [List.append_assoc] at hr
    obtain ⟨br₁, hval, hr₁⟩ := br.nextBits_append hr
    rw [length_lsbBits, bitsValue_lsbBits, Nat.mod_eq_of_lt (by omega)] at hval
    have hcode : (8 + m) >>> 4 = 0 ∧ (8 + m) &&& 0x08 ≠ 0 ∧ (8 + m) &&& 0x07 = m := by
      interval_cases m <;> decide
    obtain ⟨hcode, hshared, hlow⟩ := hcode
    obtain ⟨t₁, br₂, hp₁, ht₁, hr₂⟩ := parseDynamicTable_bits hfirst hr₁
    obtain ⟨t₃, br₃, hp₃, ht₃, hr₃⟩ := parseDynamicTable_bits hoffset hr₂
    refine ⟨8 + m, ⟨t₁, t₁, t₃⟩, br₁, br₃, hval, ?_, ⟨ht₁, ht₁, ht₃⟩, hr₃⟩
    simp [readTables, hcode, hshared, hlow, hp₁, hp₃]

/-! ## Decompression -/

theorem length_flatMap_byteBits (data : List UInt8) :
    (data.flatMap byteBits).length = 8 * data.length := by
  induction data with
  | nil => rfl
  | cons b data ih =>
    rw [List.flatMap_cons, List.length_append, ih, byteBits, length_lsbBits, List.length_cons]
    omega

/-- **The data behind a header** is read with the tables that it announces, and there are
    fewer tokens than bits. -/
theorem decompress_header {c : StreamCode} {header bits : List Bool} (hheader : HeaderBits c header)
    {closed : Bool} {ts : List (LzToken UInt8)} (hstream : StreamBits c closed c.first ts bits)
    {data : List UInt8} (hdata : header ++ bits <+: data.flatMap byteBits) (outLen : ℕ) :
    ∃ t br rest, t.Of c ∧ br.rest = bits ++ rest ∧ ts.length < 8 * data.length + 1 ∧
      decompress data outLen =
        decompressLoop t outLen (8 * data.length + 1) t.first [] br >>= fun out =>
          .ok (out.take outLen) := by
  obtain ⟨rest, hrest⟩ := hdata
  have hr : BitReader.rest ⟨data, 0, 0, by decide⟩ = header ++ (bits ++ rest) := by
    rw [← List.append_assoc, hrest]
    rfl
  obtain ⟨val, t, br₁, br₂, hval, htables, ht, hr₂⟩ := readTables_header hheader hr
  refine ⟨t, br₂, rest, ht, hr₂, ?_, ?_⟩
  · have hlen := hstream.length_le
    have hall := congrArg List.length hrest
    rw [length_flatMap_byteBits, List.length_append, List.length_append] at hall
    omega
  · rw [decompress, hval, ok_bind]
    simp only [htables, ok_bind]

/-- **What tokens are written with is decompressed.**  Let data begin with the bits of a
    header and of some tokens, in any code lengths that a header can announce, and let the end
    symbol follow, or the tokens write as many bytes as are asked for.  Then `decompress`
    returns the first `outLen` bytes of what the tokens write. -/
theorem decompress_stream {c : StreamCode} {header bits : List Bool} (hheader : HeaderBits c header)
    {closed : Bool} {ts : List (LzToken UInt8)} (hstream : StreamBits c closed c.first ts bits)
    (hok : LzOk [] ts) {outLen : ℕ} (hend : closed = true ∨ outLen ≤ (lzExpand [] ts).length)
    {data : List UInt8} (hdata : header ++ bits <+: data.flatMap byteBits) :
    decompress data outLen = .ok ((lzExpand [] ts).take outLen) := by
  have hcut : closed = false → outLen ≤ (lzExpand [] ts).length := by
    rintro rfl
    exact hend.resolve_left Bool.false_ne_true
  obtain ⟨t, br, rest, ht, hr, hfuel, heq⟩ := decompress_header hheader hstream hdata outLen
  obtain ⟨out, hloop, hout⟩ := decompressLoop_stream ht hstream ht.first hfuel hok hcut hr
  rw [heq, hloop, ok_bind, hout]

/-- Symbols of the metacode with the bits that follow them. -/
def metaSymbols (syms : List (ℕ × List Bool)) : List Bool :=
  syms.foldr (fun s bits => metaWord s.1 ++ s.2 ++ bits) []

/-- A long run. -/
theorem TableBits.run {m n e : ℕ} {l : ℤ} {lengths : List ℤ} {bits : List Bool} (he : e < 2 ^ 6)
    (hm : 0 < m) (hn : metaCount m (e + 10) = n) (h : TableBits (m - n) l lengths bits) :
    TableBits m l (List.replicate n l ++ lengths) (metaWord 36 ++ lsbBits 6 e ++ bits) := by
  subst hn
  have hmany : MetaBits l 36 (lsbBits 6 e) l (bitsValue (lsbBits 6 e) + 10) :=
    .many (length_lsbBits 6 e)
  rw [bitsValue_lsbBits, Nat.mod_eq_of_lt he] at hmany
  exact .symbol hm hmany h

/-- One length. -/
theorem TableBits.one {m i : ℕ} {l l' : ℤ} {lengths : List ℤ} {bits : List Bool}
    (hm : 0 < m) (hsym : MetaBits l i [] l' 0) (h : TableBits (m - 1) l' lengths bits) :
    TableBits m l (List.replicate 1 l' ++ lengths) (metaWord i ++ [] ++ bits) := by
  have hcount : metaCount m 0 = 1 := if_pos hm
  rw [← hcount] at h ⊢
  exact .symbol hm hsym h

/-- Two codes, of the byte 0x61 and of the end symbol. -/
def twoCodes : CodeLengths 321 where
  lengths := List.replicate 74 0 ++ (List.replicate 23 0 ++ (List.replicate 1 1 ++
    (List.replicate 1 0 ++ (List.replicate 74 0 ++ (List.replicate 74 0 ++ (List.replicate 73 0 ++
      (List.replicate 1 1 ++ [])))))))
  enough := by decide +kernel
  kraft := kraftOk_of_sum (by decide +kernel) (by decide +kernel)

/-- No codes. -/
def noCodes : CodeLengths 10 where
  lengths := List.replicate 2 0 ++ (List.replicate 8 0 ++ [])
  enough := by decide
  kraft := kraftOk_of_sum (by decide) (by decide +kernel)

/-- Runs, an increment, a decrement, and a length that is set. -/
def twoCodesSymbols : List (ℕ × List Bool) :=
  [(36, lsbBits 6 63), (36, lsbBits 6 12), (32, []), (33, []), (36, lsbBits 6 63),
    (36, lsbBits 6 63), (36, lsbBits 6 62), (0, [])]

theorem twoCodes_bits : TableBits 321 0 twoCodes.lengths (metaSymbols twoCodesSymbols) := by
  have hset : TableBits 1 0 (List.replicate 1 1 ++ []) (metaSymbols [(0, [])]) :=
    .one (by decide) (.set (by decide)) .done
  have hrun : TableBits 74 0 _ _ := .run (n := 73) (e := 62) (by decide) (by decide) rfl hset
  have hrun : TableBits 148 0 _ _ := .run (n := 74) (e := 63) (by decide) (by decide) rfl hrun
  have hrun : TableBits 222 0 _ _ := .run (n := 74) (e := 63) (by decide) (by decide) rfl hrun
  have hdecrement : TableBits 223 1 _ _ := .one (by decide) .decrement hrun
  have hincrement : TableBits 224 0 _ _ := .one (by decide) .increment hdecrement
  have hrun : TableBits 247 0 _ _ := .run (n := 23) (e := 12) (by decide) (by decide) rfl hincrement
  exact .run (n := 74) (e := 63) (by decide) (by decide) rfl hrun

theorem noCodes_bits :
    TableBits 10 0 noCodes.lengths (metaSymbols [(34, [true]), (35, lsbBits 3 5)]) := by
  have hfew : MetaBits 0 35 (lsbBits 3 5) 0 7 := .few (length_lsbBits 3 5)
  have htable : TableBits 8 0 (List.replicate 8 0 ++ []) (metaSymbols [(35, lsbBits 3 5)]) :=
    .symbol (by decide) hfew .done
  have hagain : MetaBits 0 34 [true] 0 1 := .again true
  exact .symbol (by decide) hagain htable

/-- Two bytes in a static set, and two in tables that are transmitted. -/
theorem decompress_stream_static :
    decompress [17, 164, 159, 254, 38, 1] 5 = .ok [0x61, 0x62, 0x61, 0x62, 0x61] ∧
      decompress [8, 232, 71, 76, 162, 31, 253, 200, 199, 238, 79, 9] 5 = .ok [0x61, 0x61] := by
  constructor
  · have hstream : StreamBits (staticCode 1) true (staticCode 1).first
        [.literal 0x61, .literal 0x62, .copy 4 2] _ :=
      .literal (mem_codedSymbols.2 (by decide +kernel))
        (.literal (mem_codedSymbols.2 (by decide +kernel))
          (.copy (.short (by decide) (by decide)) (mem_codedSymbols.2 (by decide +kernel)) .two
            (mem_codedSymbols.2 (by decide +kernel))
            (.stop (i := 0x140) (mem_codedSymbols.2 (by decide +kernel)) (by decide))))
    exact decompress_stream (.static (by decide) (by decide) (show 1 < 16 by decide)) hstream
      (by decide) (.inl rfl) (by decide +kernel)
  · have hheader : HeaderBits ⟨twoCodes, twoCodes, 10, noCodes⟩ _ :=
      .shared (m := 0) (Nat.zero_lt_succ 7) twoCodes_bits noCodes_bits
    have hbyte : (0x61 : UInt8).toNat ∈ twoCodes.symbols := mem_codedSymbols.2 (by decide +kernel)
    have hstop : 0x140 ∈ twoCodes.symbols := mem_codedSymbols.2 (by decide +kernel)
    have hstream : StreamBits ⟨twoCodes, twoCodes, 10, noCodes⟩ true twoCodes
        [.literal 0x61, .literal 0x61] _ :=
      .literal hbyte (.literal hbyte (.stop hstop (by decide)))
    exact decompress_stream hheader hstream (by decide) (.inl rfl) (by decide +kernel)

/-! ## Errors -/

/-- Every static table is a complete code. -/
theorem static_full (k : ℕ) : KraftFull (staticCode k).first.lengths 321 ∧
    KraftFull (staticCode k).second.lengths 321 ∧
    KraftFull (staticCode k).offset.lengths (staticCode k).offsets := by
  have hsum : ∀ l ∈ [(staticSet k).1, (staticSet k).2.1, (staticSet k).2.2],
      (((staticLengths l).take l.length).map lengthWeight).sum = 2 ^ maxLength := by
    unfold staticSet
    split <;> decide +kernel
  have hfull : ∀ l ∈ [(staticSet k).1, (staticSet k).2.1, (staticSet k).2.2],
      KraftFull (staticLengths l) l.length := fun l hl =>
    kraftFull_of_sum (length_staticLengths l).ge (hsum l hl)
  have hfirst := hfull (staticSet k).1 (by simp)
  have hsecond := hfull (staticSet k).2.1 (by simp)
  rw [(static_enough k).1] at hfirst
  rw [(static_enough k).2] at hsecond
  exact ⟨hfirst, hsecond, hfull _ (by simp)⟩

/-- How reading from complete codes may end: with a value, at the end of the data, or with
    a match that reaches back before the beginning. -/
def Ends {α : Type} (P : α → Prop) (x : Outcome PyError α) : Prop :=
  (∃ a, x = .ok a ∧ P a) ∨ x = .err exhausted ∨ x = .err .indexError

theorem Ends.bind {α β : Type} {P : α → Prop} {Q : β → Prop} {x : Outcome PyError α}
    {f : α → Outcome PyError β} (h : Ends P x) (hf : ∀ a, P a → Ends Q (f a)) :
    Ends Q (x >>= f) := by
  rcases h with ⟨a, rfl, ha⟩ | rfl | rfl
  · exact hf a ha
  · exact .inr (.inl rfl)
  · exact .inr (.inr rfl)

theorem nextBits_ends (br : BitReader) (k : ℕ) :
    Ends (fun r => r.2.rest.length ≤ br.rest.length) (br.nextBits k) := by
  rcases br.nextBits_cases k with ⟨v, br', h, hr⟩ | h
  · exact .inl ⟨_, h, hr⟩
  · exact .inr (.inl h)

theorem nextSymbol_ends {n : ℕ} {c : CodeLengths n} {table : CodeTable} (ht : c.Table table)
    (h : KraftFull c.lengths n) (br : BitReader) :
    Ends (fun r => r.2.rest.length < br.rest.length) (nextSymbol table br) := by
  rcases nextSymbol_cases ht h br with ⟨i, br', hs, hr⟩ | hs
  · exact .inl ⟨_, hs, hr⟩
  · exact .inr (.inl hs)

theorem matchLength_ends (sym : ℕ) (br : BitReader) :
    Ends (fun r => r.2.rest.length ≤ br.rest.length) (matchLength sym br) := by
  unfold matchLength
  split_ifs
  · exact .inl ⟨_, rfl, le_rfl⟩
  · exact (nextBits_ends br 10).bind fun r hr => .inl ⟨_, rfl, hr⟩
  · exact (nextBits_ends br 15).bind fun r hr => .inl ⟨_, rfl, hr⟩

theorem matchDistance_ends (bl : ℕ) (br : BitReader) :
    Ends (fun r => r.2.rest.length ≤ br.rest.length) (matchDistance bl br) := by
  unfold matchDistance
  split_ifs
  · exact .inl ⟨_, rfl, le_rfl⟩
  · exact .inl ⟨_, rfl, le_rfl⟩
  · exact (nextBits_ends br (bl - 1)).bind fun r hr => .inl ⟨_, rfl, hr⟩

theorem copyMatch_ends (dist n : ℕ) (out : List UInt8) :
    Ends (fun _ => True) (copyMatch dist n out) := by
  induction n generalizing out with
  | zero => exact .inl ⟨out, rfl, trivial⟩
  | succ n ih =>
    rw [copyMatch]
    cases byteBack out dist with
    | none => exact .inr (.inr rfl)
    | some b => exact ih _

theorem decompressLoop_ends {t : Tables} {c : StreamCode} (ht : t.Of c)
    (hfirst : KraftFull c.first.lengths 321) (hsecond : KraftFull c.second.lengths 321)
    (hoffset : KraftFull c.offset.lengths c.offsets) (outLen : ℕ) {fuel : ℕ} :
    ∀ {cur : CodeLengths 321} {currcode : CodeTable} {out : List UInt8} {br : BitReader},
      cur.Table currcode → KraftFull cur.lengths 321 → br.rest.length < fuel →
      Ends (fun _ => True) (decompressLoop t outLen fuel currcode out br) := by
  induction fuel with
  | zero => exact fun _ _ h => absurd h (Nat.not_lt_zero _)
  | succ fuel ih =>
    intro cur currcode out br hcur hfull hfuel
    rw [decompressLoop]
    split_ifs with hlen
    swap
    · exact .inl ⟨out, rfl, trivial⟩
    refine (nextSymbol_ends hcur hfull br).bind ?_
    rintro ⟨sym, br₁⟩ hr₁
    simp only at hr₁ ⊢
    split_ifs
    · exact ih ht.first hfirst (by omega)
    · exact .inl ⟨out, rfl, trivial⟩
    refine (matchLength_ends sym br₁).bind ?_
    rintro ⟨length, br₂⟩ hr₂
    refine (nextSymbol_ends ht.offset hoffset br₂).bind ?_
    rintro ⟨bl, br₃⟩ hr₃
    refine (matchDistance_ends bl br₃).bind ?_
    rintro ⟨dist, br₄⟩ hr₄
    refine (copyMatch_ends dist length out).bind fun out' _ => ?_
    simp only at hr₂ hr₃ hr₄
    exact ih ht.second hsecond (show br₄.rest.length < fuel by omega)

/-- **In a static set every bit string means something.**  Data that selects a static set is
    decompressed, unless it ends too early or a match reaches back too far; no code is
    unterminated. -/
theorem decompress_static_ends {b : UInt8} {data : List UInt8} (h1 : 1 ≤ b.toNat / 16)
    (h5 : b.toNat / 16 ≤ 5) (outLen : ℕ) :
    Ends (fun out => out.length ≤ outLen) (decompress (b :: data) outLen) := by
  have hbits : lsbBits 8 (16 * (b.toNat / 16) + b.toNat % 16) = byteBits b := by
    rw [Nat.div_add_mod]
    rfl
  have hr : BitReader.rest ⟨b :: data, 0, 0, by decide⟩ =
      lsbBits 8 (16 * (b.toNat / 16) + b.toNat % 16) ++ data.flatMap byteBits := by
    rw [hbits]
    rfl
  obtain ⟨val, t, br₁, br₂, hval, htables, ht, hr₂⟩ :=
    readTables_header (.static h1 h5 (Nat.mod_lt _ (by decide))) hr
  obtain ⟨hfirst, hsecond, hoffset⟩ := static_full (b.toNat / 16)
  have hfuel : br₂.rest.length < 8 * (b :: data).length + 1 := by
    rw [hr₂, length_flatMap_byteBits, List.length_cons]
    omega
  rw [decompress, hval, ok_bind]
  simp only [htables, ok_bind]
  refine (decompressLoop_ends ht hfirst hsecond hoffset outLen ht.first hfirst hfuel).bind ?_
  intro out _
  exact .inl ⟨_, rfl, List.length_take_le _ _⟩

/-- A stream of the first set that is cut after its header, and one that is cut later. -/
theorem decompress_static_ends_cut :
    Ends (fun out => out.length ≤ 3) (decompress [17] 3) ∧
      Ends (fun out => out.length ≤ 3) (decompress [17, 164, 159] 3) :=
  ⟨decompress_static_ends (by decide) (by decide) 3,
    decompress_static_ends (by decide) (by decide) 3⟩

end Usbmidi9.Sit5
