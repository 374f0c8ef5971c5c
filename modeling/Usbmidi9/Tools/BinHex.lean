/-
  USBMIDI9 — BinHex 4.0: the decoder (`tools/re/binhex_decode.py`), and the encoder of the
  fixtures (`tools/re/make_classic_fixtures.py`).

  Between two colons stand the characters of an alphabet of 64.  Their bits, cut into bytes
  and expanded at each run character, are a header, a data fork and a resource fork, each
  followed by the CRC register.
-/
import Usbmidi9.Lib.Crc
import Usbmidi9.Lib.Outcome
import Usbmidi9.Lib.Regroup

namespace Usbmidi9.BinHex

open Outcome

/-- What is raised, and the messages of `sys.exit`. -/
inductive PyError where
  | badChar (ch : Char)
  | indexError
  | keyError
  | unicodeEncodeError
  | bytesRange
  | structError
  | exit (msg : String)
deriving DecidableEq, Repr

/-! ## Strings and integers -/

/-- `ALPHA`. -/
def alpha : List Char :=
  "!\"#$%&'()*+,-012345689@ABCDEFGHIJKLMNPQRSTUVXYZ[`abcdefhijklmpqr".toList

/-- `RUNCHAR`. -/
def runChar : UInt8 := 0x90

/-- The characters that are skipped. -/
def blanks : List Char := "\r\n \t".toList

/-- `data.decode("latin1")`. -/
def decodeLatin1 (data : List UInt8) : List Char := data.map fun b => Char.ofNat b.toNat

/-- `text.encode("latin1")`. -/
def encodeLatin1 (text : List Char) : Outcome PyError (List UInt8) :=
  if ∀ ch ∈ text, ch.toNat < 256 then ok (text.map fun ch => UInt8.ofNat ch.toNat)
  else err .unicodeEncodeError

/-- `int.from_bytes(data, "big")`. -/
def fromBytes (data : List UInt8) : ℕ := data.foldl (fun n b => 256 * n + b.toNat) 0

/-- `value.to_bytes(n, "big")`. -/
def toBytes : ℕ → ℕ → List UInt8
  | 0, _ => []
  | n + 1, value => UInt8.ofNat (value / 256 ^ n) :: toBytes n value

/-- `data[i:j]`. -/
def slice (data : List UInt8) (i j : ℕ) : List UInt8 := (data.take j).drop i

/-- The polynomial of `binascii.crc_hqx`. -/
def crcPoly : BitVec 16 := 0x1021#16

/-- `binascii.crc_hqx`. -/
def crcHqx (data : List UInt8) (crc : BitVec 16) : BitVec 16 :=
  data.foldl (fun crc b => (crcShift crcPoly)^[8] (crc ^^^ BitVec.ofNat 16 b.toNat <<< 8)) crc

/-! ## The decoder -/

/-- The loop over the text; `true` after the first colon. -/
def readChars : Bool → List Char → Outcome PyError (List ℕ)
  | _, [] => ok []
  | false, ch :: text => readChars (ch == ':') text
  | true, ch :: text =>
    if ch = ':' then ok []
    else if ch ∈ blanks then readChars true text
    else match alpha.idxOf? ch with
      | none => err (.badChar ch)
      | some v => do
        let out ← readChars true text
        ok (v :: out)

/-- The run-length loop: `run`, `lastc` and what is left of `packed`. -/
def rleDecode : Bool → UInt8 → List UInt8 → List UInt8
  | _, _, [] => []
  | false, lastc, b :: packed =>
    if b = runChar then rleDecode true lastc packed else b :: rleDecode false b packed
  | true, lastc, b :: packed =>
    if b = 0 then runChar :: rleDecode false runChar packed
    else List.replicate (b.toNat - 1) lastc ++ rleDecode false lastc packed

/-- The bits of the accumulator that have not been consumed. -/
def keepLow (bits nbits : ℕ) : ℕ := bits &&& (1 <<< nbits - 1)

/-- `decode_hqx`. -/
def decodeHqx (data : List UInt8) : Outcome PyError (List UInt8) := do
  let out ← readChars false (decodeLatin1 data)
  let packed := (regroup 6 8 keepLow out 0 0).1.map UInt8.ofNat
  ok (rleDecode false 0 packed)

/-- The dictionary that `parse_header` returns. -/
structure Header where
  n : ℕ
  name : List Char
  type : List Char
  creator : List Char
  flags : ℕ
  dlen : ℕ
  rlen : ℕ
  crcOff : ℕ
deriving DecidableEq, Repr

/-- One layout of the header. -/
def parseLayout (raw : List UInt8) (n extra : ℕ) : Option Header :=
  let hdrEnd := 20 + n + extra
  let stored := fromBytes (slice raw hdrEnd (hdrEnd + 2))
  if (crcHqx (raw.take hdrEnd) 0).toNat = stored then
    some
      { n := n
        name := decodeLatin1 (slice raw 1 (1 + n))
        type := decodeLatin1 (slice raw (2 + n) (6 + n))
        creator := decodeLatin1 (slice raw (6 + n) (10 + n))
        flags := fromBytes (slice raw (10 + n) (12 + n))
        dlen := fromBytes (slice raw (12 + n) (16 + n))
        rlen := fromBytes (slice raw (16 + n) (20 + n))
        crcOff := hdrEnd }
  else none

/-- `parse_header`. -/
def parseHeader (raw : List UInt8) : Outcome PyError (Option Header) :=
  match raw.head? with
  | none => err .indexError
  | some b =>
    if raw.length < 22 + b.toNat + 2 then ok none
    else ok ([0, 1].findSome? (parseLayout raw b.toNat))

/-- What is written and printed. -/
structure Decoded where
  name : List Char
  type : List Char
  creator : List Char
  data : List UInt8
  rsrc : List UInt8
  trailing : ℤ
deriving DecidableEq, Repr

/-- The check of one CRC, over the stream up to it. -/
def crcMatches (raw : List UInt8) (pos : ℕ) : Bool :=
  (crcHqx (raw.take pos) 0).toNat = fromBytes (slice raw pos (pos + 2))

/-- `main` from the header on. -/
def readForks (raw : List UInt8) (h : Header) : Outcome PyError Decoded :=
  let pos := h.crcOff + 2
  let data := slice raw pos (pos + h.dlen)
  let pos := pos + h.dlen
  if crcMatches raw pos then
    let pos := pos + 2
    let rsrc := slice raw pos (pos + h.rlen)
    let pos := pos + h.rlen
    if crcMatches raw pos then
      ok ⟨h.name, h.type, h.creator, data, rsrc, (raw.length : ℤ) - pos - 2⟩
    else err (.exit "rsrc CRC mismatch")
  else err (.exit "data CRC mismatch")

/-- `main` from the stream on. -/
def readStream (raw : List UInt8) : Outcome PyError Decoded := do
  match ← parseHeader raw with
  | none => err (.exit "header CRC mismatch (neither layout A nor B validates)")
  | some h => readForks raw h

/-- `main`. -/
def main (file : List UInt8) : Outcome PyError Decoded := decodeHqx file >>= readStream

/-! ## The encoder -/

/-- The bytes equal to `x` that follow it, at most `n` of them. -/
def runLength (x : UInt8) : ℕ → List UInt8 → ℕ
  | 0, _ => 0
  | _, [] => 0
  | n + 1, y :: data => if y = x then runLength x n data + 1 else 0

/-- A run of one byte. -/
def encodeRun (x : UInt8) (run : ℕ) : List UInt8 :=
  if x = 0x90 then (List.replicate run [0x90, 0x00]).flatten
  else if 3 ≤ run then [x, 0x90, UInt8.ofNat run]
  else List.replicate run x

/-- The loop of `rle_encode`, at most `fuel` runs of it. -/
def rleEncodeLoop : ℕ → List UInt8 → List UInt8
  | 0, _ => []
  | _, [] => []
  | fuel + 1, x :: data =>
    let more := runLength x 254 data
    encodeRun x (more + 1) ++ rleEncodeLoop fuel (data.drop more)

/-- `rle_encode`. -/
def rleEncode (data : List UInt8) : List UInt8 := rleEncodeLoop data.length data

/-- `header`, in `hqx_encode`. -/
def hqxHeader (name type creator : List UInt8) (flags dlen rlen : ℕ) : List UInt8 :=
  UInt8.ofNat name.length :: name ++ [0] ++ type ++ creator ++
    (toBytes 2 flags ++ toBytes 4 dlen ++ toBytes 4 rlen)

/-- `raw`, in `hqx_encode`. -/
def hqxRaw (header dataFork rsrcFork : List UInt8) : List UInt8 :=
  header ++ toBytes 2 (crcHqx header 0).toNat ++
    rleEncode dataFork ++ toBytes 2 (crcHqx dataFork 0).toNat ++
    rleEncode rsrcFork ++ toBytes 2 (crcHqx rsrcFork 0).toNat

/-- `vals`, in `hqx_encode`. -/
def hqxVals (raw : List UInt8) : List ℕ :=
  let out := regroup 8 6 (fun bits _ => bits) (raw.map UInt8.toNat) 0 0
  if out.2.2 ≠ 0 then out.1 ++ [(out.2.1 <<< (6 - out.2.2)) &&& 0x3F] else out.1

/-- `VAL2CHAR[v]` for every value. -/
def hqxChars : List ℕ → Outcome PyError (List Char)
  | [] => ok []
  | v :: vals => do
    let ch ← okOr .keyError alpha[v]?
    let chars ← hqxChars vals
    ok (ch :: chars)

/-- `lines`, in `hqx_encode`. -/
def hqxLines (chars : List Char) : List (List Char) :=
  (List.range ((chars.length + 63) / 64)).map fun i => (chars.drop (64 * i)).take 64

/-- The text that `hqx_encode` returns. -/
def hqxText (chars : List Char) : List Char :=
  "(This file must be converted with BinHex 4.0)\r\n:".toList ++
    List.intercalate "\r\n".toList (hqxLines chars) ++ ":\r\n".toList

/-- `hqx_encode`. -/
def hqxEncode (name : List Char) (type creator : List UInt8) (flags : ℕ)
    (dataFork rsrcFork : List UInt8) : Outcome PyError (List UInt8) := do
  let name ← encodeLatin1 name
  ensure (name.length < 256) .bytesRange
  ensure (flags < 2 ^ 16 ∧ dataFork.length < 2 ^ 32 ∧ rsrcFork.length < 2 ^ 32) .structError
  let header := hqxHeader name type creator flags dataFork.length rsrcFork.length
  let chars ← hqxChars (hqxVals (hqxRaw header dataFork rsrcFork))
  encodeLatin1 (hqxText chars)

end Usbmidi9.BinHex
