/-
  USBMIDI9 — the StuffIt decompressor of the tools (`tools/re/sit5.py`), method 13.

  A stream begins with a byte that selects a static set of tables, or announces tables
  that are transmitted by means of the metacode; then follow literals and matches, and an
  end symbol.  Bits are read from the least significant one on.

  An exception is `err`.  A dictionary is the list of its insertions, the last one first.
-/
import Usbmidi9.Lib.Outcome
import Usbmidi9.Tools.Sit5Tables

namespace Usbmidi9.Sit5

open Outcome

/-- What is raised. -/
inductive PyError where
  | eofError (msg : String)
  | indexError
  | valueError (msg : String)
deriving DecidableEq, Repr

/-! ## Bits -/

/-- `BitReader`. -/
structure BitReader where
  data : List UInt8
  pos : ℕ
  bit : ℕ
  bit_lt : bit < 8

theorem BitReader.bit_zero_lt : 0 < 8 := by decide

theorem BitReader.bit_succ_lt {bit : ℕ} (hlt : bit < 8) (h : ¬bit + 1 = 8) : bit + 1 < 8 := by
  omega

/-- `BitReader.next_bit`. -/
def BitReader.nextBit (br : BitReader) : Outcome PyError (ℕ × BitReader) :=
  match br.data[br.pos]? with
  | none => .err (.eofError "bit stream exhausted")
  | some byte =>
    let b := (byte.toNat >>> br.bit) &&& 1
    if h : br.bit + 1 = 8 then .ok (b, { br with pos := br.pos + 1, bit := 0, bit_lt := bit_zero_lt })
    else .ok (b, { br with bit := br.bit + 1, bit_lt := bit_succ_lt br.bit_lt h })

/-- The loop of `next_bits`: `n` more bits, of which the first is bit `i` of the value. -/
def BitReader.nextBitsLoop : ℕ → ℕ → ℕ → BitReader → Outcome PyError (ℕ × BitReader)
  | 0, _, v, br => .ok (v, br)
  | n + 1, i, v, br => do
    let (b, br) ← br.nextBit
    nextBitsLoop n (i + 1) (v ||| b <<< i) br

/-- `BitReader.next_bits`. -/
def BitReader.nextBits (br : BitReader) (n : ℕ) : Outcome PyError (ℕ × BitReader) :=
  nextBitsLoop n 0 0 br

/-! ## Prefix codes -/

/-- A dictionary from reversed codes to lengths and symbols. -/
abbrev CodeTable := List (ℕ × ℕ × ℕ)

/-- The loop over `b` that reverses a code. -/
def reverseCode (length c : ℕ) : ℕ :=
  (List.range length).foldl (fun rev b => rev <<< 1 ||| (c >>> b &&& 1)) 0

/-- The locals of `build_canonical`. -/
structure CanonicalState where
  code : ℕ
  table : CodeTable
  symbolsleft : ℕ

/-- A symbol gets the next code. -/
def CanonicalState.assign (st : CanonicalState) (length i : ℕ) : CanonicalState :=
  ⟨st.code + 1, (reverseCode length st.code, length, i) :: st.table, st.symbolsleft - 1⟩

/-- The symbols with codes of one length; `true` if none are left. -/
def canonicalSymbols (lengths : List ℤ) (length : ℕ) :
    List ℕ → CanonicalState → CanonicalState × Bool
  | [], st => (st, false)
  | i :: is, st =>
    if lengths.getD i 0 ≠ length then canonicalSymbols lengths length is st
    else if (st.assign length i).symbolsleft = 0 then (st.assign length i, true)
    else canonicalSymbols lengths length is (st.assign length i)

/-- The loop over the lengths. -/
def canonicalLengths (lengths : List ℤ) (numsymbols : ℕ) : List ℕ → CanonicalState → CodeTable
  | [], st => st.table
  | length :: rest, st =>
    match canonicalSymbols lengths length (List.range numsymbols) st with
    | (st, true) => st.table
    | (st, false) => canonicalLengths lengths numsymbols rest { st with code := st.code <<< 1 }

/-- `maxlength`. -/
abbrev maxLength : ℕ := 32

/-- `build_canonical`, as it is called: with `zeros`, and the largest length.  A symbol
    without a length is an index error before any return. -/
def buildCanonical (lengths : List ℤ) (numsymbols : ℕ) : Outcome PyError CodeTable :=
  if lengths.length < numsymbols then .err .indexError
  else .ok (canonicalLengths lengths numsymbols (List.range' 1 maxLength) ⟨0, [], numsymbols⟩)

/-- `build_direct`. -/
def buildDirect (codes lengths : List ℕ) (numsymbols : ℕ) : CodeTable :=
  ((List.range numsymbols).map fun i => (codes.getD i 0, lengths.getD i 0, i)).reverse

/-- The loop of `PrefixCode.next_symbol`, `n` bits having been read. -/
def nextSymbolLoop (table : CodeTable) : ℕ → ℕ → ℕ → BitReader → Outcome PyError (ℕ × BitReader)
  | 0, _, _, _ => .err (.valueError "unterminated code")
  | k + 1, n, v, br => do
    let (b, br) ← br.nextBit
    let v := v ||| b <<< n
    match table.lookup v with
    | some (length, symbol) =>
      if length = n + 1 then .ok (symbol, br) else nextSymbolLoop table k (n + 1) v br
    | none => nextSymbolLoop table k (n + 1) v br

/-- `PrefixCode.next_symbol`. -/
def nextSymbol (table : CodeTable) (br : BitReader) : Outcome PyError (ℕ × BitReader) :=
  nextSymbolLoop table 32 0 0 br

/-- `META_CODE`. -/
def metaCode : CodeTable := buildDirect metaCodes metaLengths 37

/-! ## Dynamic tables -/

/-- The locals of `parse_dynamic_table`; `i` is the number of lengths. -/
structure DynamicState where
  length : ℤ
  lengths : List ℤ

/-- `lengths.append(length)`, `n` times. -/
def DynamicState.append (st : DynamicState) (n : ℕ) : DynamicState :=
  { st with lengths := st.lengths ++ List.replicate n st.length }

/-- The switch of `parse_dynamic_table`. -/
def dynamicSymbol (val : ℕ) (st : DynamicState) (br : BitReader) :
    Outcome PyError (DynamicState × BitReader) :=
  if val = 31 then .ok ({ st with length := -1 }, br)
  else if val = 32 then .ok ({ st with length := st.length + 1 }, br)
  else if val = 33 then .ok ({ st with length := st.length - 1 }, br)
  else if val = 34 then do
    let (b, br) ← br.nextBit
    .ok (if b ≠ 0 then st.append 1 else st, br)
  else if val = 35 then do
    let (b, br) ← br.nextBits 3
    .ok (st.append (b + 2), br)
  else if val = 36 then do
    let (b, br) ← br.nextBits 6
    .ok (st.append (b + 10), br)
  else .ok ({ st with length := val + 1 }, br)

/-- The loop of `parse_dynamic_table`, for at most `fuel` symbols. -/
def dynamicLoop (metacode : CodeTable) (numcodes : ℕ) :
    ℕ → DynamicState → BitReader → Outcome PyError (DynamicState × BitReader)
  | 0, _, _ => .panic
  | fuel + 1, st, br =>
    if st.lengths.length < numcodes then do
      let (val, br) ← nextSymbol metacode br
      let (st, br) ← dynamicSymbol val st br
      dynamicLoop metacode numcodes fuel
        (if st.lengths.length < numcodes then st.append 1 else st) br
    else .ok (st, br)

/-- `parse_dynamic_table`; every symbol appends a length. -/
def parseDynamicTable (br : BitReader) (metacode : CodeTable) (numcodes : ℕ) :
    Outcome PyError (CodeTable × BitReader) := do
  let (st, br) ← dynamicLoop metacode numcodes (numcodes + 1) ⟨0, []⟩ br
  let table ← buildCanonical st.lengths numcodes
  .ok (table, br)

/-! ## The decompressor -/

/-- The tables of a stream. -/
structure Tables where
  first : CodeTable
  second : CodeTable
  offset : CodeTable

/-- `make_static_code`. -/
def makeStaticCode (lengths : List ℕ) : Outcome PyError CodeTable :=
  buildCanonical (lengths.map (↑)) lengths.length

/-- `STATIC`: the code lengths of a set. -/
def staticSet : ℕ → List ℕ × List ℕ × List ℕ
  | 1 => (firstCodeLengths1, secondCodeLengths1, offsetCodeLengths1)
  | 2 => (firstCodeLengths2, secondCodeLengths2, offsetCodeLengths2)
  | 3 => (firstCodeLengths3, secondCodeLengths3, offsetCodeLengths3)
  | 4 => (firstCodeLengths4, secondCodeLengths4, offsetCodeLengths4)
  | _ => (firstCodeLengths5, secondCodeLengths5, offsetCodeLengths5)

/-- The tables that the selector `val` announces. -/
def readTables (val : ℕ) (br : BitReader) : Outcome PyError (Tables × BitReader) :=
  let code := val >>> 4
  if code = 0 then do
    let (first, br) ← parseDynamicTable br metaCode 321
    let (second, br) ← if val &&& 0x08 ≠ 0 then .ok (first, br) else parseDynamicTable br metaCode 321
    let (offset, br) ← parseDynamicTable br metaCode ((val &&& 0x07) + 10)
    .ok (⟨first, second, offset⟩, br)
  else if code < 6 then do
    let first ← makeStaticCode (staticSet code).1
    let second ← makeStaticCode (staticSet code).2.1
    let offset ← makeStaticCode (staticSet code).2.2
    .ok (⟨first, second, offset⟩, br)
  else .err (.valueError s!"bad code selector {code}")

/-- The length of a match. -/
def matchLength (sym : ℕ) (br : BitReader) : Outcome PyError (ℕ × BitReader) :=
  if sym < 0x13e then .ok (sym - 0x100 + 3, br)
  else do
    let (b, br) ← br.nextBits (if sym = 0x13e then 10 else 15)
    .ok (b + 65, br)

/-- The distance of a match. -/
def matchDistance (bl : ℕ) (br : BitReader) : Outcome PyError (ℕ × BitReader) :=
  if bl = 0 then .ok (1, br)
  else if bl = 1 then .ok (2, br)
  else do
    let (b, br) ← br.nextBits (bl - 1)
    .ok (1 <<< (bl - 1) + b + 1, br)

/-- `out[len(out) - dist]`; a negative index counts from the end. -/
def byteBack (out : List UInt8) (dist : ℕ) : Option UInt8 :=
  if dist ≤ out.length then out[out.length - dist]?
  else if dist ≤ 2 * out.length then out[2 * out.length - dist]?
  else none

/-- The loop that copies a match. -/
def copyMatch (dist : ℕ) : ℕ → List UInt8 → Outcome PyError (List UInt8)
  | 0, out => .ok out
  | n + 1, out =>
    match byteBack out dist with
    | none => .err .indexError
    | some b => copyMatch dist n (out ++ [b])

/-- The loop of `decompress`, for at most `fuel` symbols. -/
def decompressLoop (t : Tables) (outLen : ℕ) :
    ℕ → CodeTable → List UInt8 → BitReader → Outcome PyError (List UInt8)
  | 0, _, _, _ => .panic
  | fuel + 1, currcode, out, br =>
    if out.length < outLen then do
      let (sym, br) ← nextSymbol currcode br
      if sym < 0x100 then decompressLoop t outLen fuel t.first (out ++ [UInt8.ofNat sym]) br
      else if 0x13f < sym then .ok out
      else do
        let (length, br) ← matchLength sym br
        let (bl, br) ← nextSymbol t.offset br
        let (dist, br) ← matchDistance bl br
        let out ← copyMatch dist length out
        decompressLoop t outLen fuel t.second out br
    else .ok out

/-- `decompress`; every symbol takes a bit. -/
def decompress (data : List UInt8) (outLen : ℕ) : Outcome PyError (List UInt8) := do
  let (val, br) ← BitReader.nextBits ⟨data, 0, 0, BitReader.bit_zero_lt⟩ 8
  let (t, br) ← readTables val br
  let out ← decompressLoop t outLen (8 * data.length + 1) t.first [] br
  .ok (out.take outLen)

end Usbmidi9.Sit5
