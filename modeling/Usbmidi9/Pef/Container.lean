/-
  USBMIDI9 — PEF containers (`pefcheck/src/pef.rs`).

  `Container.parse` reads the container header, the section table, the loader header
  and the exported symbols.  It does not panic (`parse_safe`): `need` comes before
  every read, and all offsets are sums of a few 32-bit fields.
-/
import Usbmidi9.Pef.Unpack

namespace Usbmidi9

open Outcome

/-! ## Tables -/

/-- `MAGIC`: `Joy!peffpwpc`. -/
def pefMagic : List UInt8 := [0x4A, 0x6F, 0x79, 0x21, 0x70, 0x65, 0x66, 0x66, 0x70, 0x77, 0x70, 0x63]

/-- An entry of the section table. -/
structure PefSection where
  nameOffset : UInt32
  defaultAddress : UInt32
  totalLength : UInt32
  unpackedLength : UInt32
  containerLength : UInt32
  containerOffset : UInt32
  kind : UInt8
  shareKind : UInt8
  alignment : UInt8
  reservedA : UInt8

/-- `kind_name`. -/
def PefSection.kindName (s : PefSection) : String :=
  match s.kind.toNat with
  | 0 => "Code"
  | 1 => "UnpackedData"
  | 2 => "PackedData"
  | 3 => "Constant"
  | 4 => "Loader"
  | 5 => "Debug"
  | 6 => "ExecutableData"
  | 7 => "Exception"
  | _ => "Unknown"

/-- The loader header. -/
structure LoaderInfo where
  mainSection : Int32
  mainOffset : UInt32
  initSection : Int32
  initOffset : UInt32
  termSection : Int32
  termOffset : UInt32
  importedLibraryCount : UInt32
  totalImportedSymbolCount : UInt32
  relocSectionCount : UInt32
  relocInstrOffset : UInt32
  loaderStringsOffset : UInt32
  exportHashOffset : UInt32
  exportHashTablePower : UInt32
  exportedSymbolCount : UInt32

/-- An exported symbol. -/
structure PefExport where
  name : List Char
  cls : UInt8
  nameOffset : UInt32
  value : UInt32
  sectionIndex : UInt16

/-- A parsed container. -/
structure Container where
  data : Slice
  containerVersion : UInt32
  timestamp : UInt32
  currentVersion : UInt32
  sectionCount : UInt16
  sections : List PefSection
  loader : LoaderInfo
  loaderContainer : List UInt8
  exports : List PefExport

/-! ## The parser -/

/-- `need`. -/
def need (data : List UInt8) (off n : ℕ) (what : String) : Outcome String Unit :=
  ensure (∃ e ∈ checkedAdd off n, e ≤ data.length)
    s!"truncated PEF: {what} needs {n} bytes at 0x{hexString off} (file len 0x{hexString data.length})"

/-- An entry of the section table. -/
def readSection (data : List UInt8) (i : ℕ) : Outcome String PefSection := do
  let o ← word (0x28 + i * 0x1c)
  let nameOffset ← u32At data o
  let defaultAddress ← u32At data (o + 4)
  let totalLength ← u32At data (o + 8)
  let unpackedLength ← u32At data (o + 12)
  let containerLength ← u32At data (o + 16)
  let containerOffset ← u32At data (o + 20)
  let kind ← get data (o + 24)
  let shareKind ← get data (o + 25)
  let alignment ← get data (o + 26)
  let reservedA ← get data (o + 27)
  .ok { nameOffset, defaultAddress, totalLength, unpackedLength, containerLength,
        containerOffset, kind, shareKind, alignment, reservedA }

/-- The loader header at `lo`. -/
def readLoaderInfo (data : List UInt8) (lo : ℕ) : Outcome String LoaderInfo := do
  let mainSection ← u32At data lo
  let mainOffset ← u32At data (lo + 4)
  let initSection ← u32At data (lo + 8)
  let initOffset ← u32At data (lo + 12)
  let termSection ← u32At data (lo + 16)
  let termOffset ← u32At data (lo + 20)
  let importedLibraryCount ← u32At data (lo + 24)
  let totalImportedSymbolCount ← u32At data (lo + 28)
  let relocSectionCount ← u32At data (lo + 32)
  let relocInstrOffset ← u32At data (lo + 36)
  let loaderStringsOffset ← u32At data (lo + 40)
  let exportHashOffset ← u32At data (lo + 44)
  let exportHashTablePower ← u32At data (lo + 48)
  let exportedSymbolCount ← u32At data (lo + 52)
  .ok { mainSection := mainSection.toInt32, mainOffset, initSection := initSection.toInt32,
        initOffset, termSection := termSection.toInt32, termOffset, importedLibraryCount,
        totalImportedSymbolCount, relocSectionCount, relocInstrOffset, loaderStringsOffset,
        exportHashOffset, exportHashTablePower, exportedSymbolCount }

/-- An exported symbol, with the loader container `lo .. lo + ll`. -/
def readExport (data : List UInt8) (lo ll : ℕ) (loader : LoaderInfo) (slots keys i : ℕ) :
    Outcome String PefExport := do
  let e ← word (lo + loader.exportHashOffset.toNat + slots * 4 + keys * 4 + i * 10)
  let classAndName ← u32At data e
  let value ← u32At data (e + 4)
  let sectionIndex ← u16At data (e + 8)
  let cls := (classAndName >>> 24).toUInt8
  let nameOffset := classAndName &&& 0x00ffffff
  let nameAt ← okOr "export name offset overflow"
    ((checkedAdd lo loader.loaderStringsOffset.toNat).bind fun v => checkedAdd v nameOffset.toNat)
  ensure (nameAt < data.length)
    s!"export name offset 0x{hexString nameAt} (strings 0x{hexString loader.loaderStringsOffset.toNat} + 0x{hexString nameOffset.toNat}) past end of file 0x{hexString data.length}"
  let tail ← slice data nameAt data.length
  let p ← okOr "export name unterminated" (tail.findIdx? (· = 0))
  let e ← word (nameAt + p)
  let fin ← word (lo + ll)
  ensure (e ≤ fin) s!"export name {i} runs past the loader container"
  let name ← slice data nameAt e
  .ok { name := utf8Lossy name, cls, nameOffset, value, sectionIndex }

/-- `parse_exports`. -/
def parseExports (data : List UInt8) (lo ll : ℕ) (loader : LoaderInfo) :
    Outcome String (List PefExport) :=
  if loader.exportedSymbolCount = 0 then .ok []
  else do
    let power := loader.exportHashTablePower.toNat
    ensure (power ≤ 20) s!"implausible export hash table power {power} (2^{power})"
    let slots := 2 ^ power
    let keys := loader.exportedSymbolCount.toNat
    let entries := loader.exportedSymbolCount.toNat
    let hashOff := loader.exportHashOffset.toNat
    let slotBytes ← word (slots * 4)
    let keyBytes ← word (keys * 4)
    let entryBytes ← word (entries * 10)
    let tableEnd ← okOr "export table size overflow"
      ((checkedAdd hashOff slotBytes).bind fun v =>
        (checkedAdd v keyBytes).bind fun v => checkedAdd v entryBytes)
    ensure (tableEnd ≤ ll)
      s!"export table (slots {slots} + keys {keys} + entries {entries}) exceeds loader container ({tableEnd} > {ll})"
    let _exports ← (withCapacity 40 entries : Outcome String (List PefExport))
    collect (readExport data lo ll loader slots keys) 0 entries

/-- `Container::parse`. -/
def Container.parse (data : Slice) : Outcome String Container := do
  let d := data.bytes
  ensure (0x28 ≤ d.length) s!"file too small for a PEF container header: {d.length} bytes"
  let magic ← slice d 0 12
  ensure (magic = pefMagic) s!"bad magic: expected Joy!peffpwpc, got {hexBytes magic}"
  let containerVersion ← u32At d 0x0c
  let timestamp ← u32At d 0x10
  let currentVersion ← u32At d 0x1c
  let sectionCount ← u16At d 0x20
  let tableBytes ← word (sectionCount.toNat * 0x1c)
  need d 0x28 tableBytes "section table"
  let _sections ← (withCapacity 28 sectionCount.toNat : Outcome String (List PefSection))
  let sections ← collect (readSection d) 0 sectionCount.toNat
  let loaderSec ← okOr "no Loader section (kind 4)" (sections.find? (·.kind = 4))
  let lo := loaderSec.containerOffset.toNat
  let ll := loaderSec.containerLength.toNat
  need d lo ll "loader container"
  need d lo 0x38 "loader info header"
  let loader ← readLoaderInfo d lo
  let fin ← word (lo + ll)
  let loaderContainer ← slice d lo fin
  let exports ← parseExports d lo ll loader
  .ok { data, containerVersion, timestamp, currentVersion, sectionCount, sections, loader,
        loaderContainer, exports }

/-- `unpack_section`. -/
def Container.unpackSection (c : Container) (s : PefSection) : Outcome String (List UInt8) := do
  let off := s.containerOffset.toNat
  let len := s.containerLength.toNat
  need c.data.bytes off len "packed container"
  let fin ← word (off + len)
  let packed ← slice c.data.bytes off fin
  unpackPacked packed s.unpackedLength.toNat

/-! ## No panic -/

theorem need_safe {data : List UInt8} {off n : ℕ} {what : String} :
    (need data off n what).Safe fun _ => off + n ≤ data.length := by
  refine Safe.ensure.mono ?_
  rintro _ ⟨e, he, hle⟩
  obtain ⟨rfl, -⟩ := checkedAdd_eq_some.1 he
  exact hle

section
variable {data : List UInt8} (hlen : data.length ≤ isizeMax)
include hlen

theorem readSection_safe {i : ℕ} (h : 0x28 + (i + 1) * 0x1c ≤ data.length) :
    (readSection data i).Safe fun _ => True := by
  unfold readSection
  rw [word_eq_of_le (by omega), ok_bind]
  simp (disch := omega) only [u32At_eq, get_eq, ok_bind]
  trivial

omit hlen in
theorem readLoaderInfo_safe {lo : ℕ} (h : lo + 0x38 ≤ data.length) :
    (readLoaderInfo data lo).Safe fun _ => True := by
  unfold readLoaderInfo
  simp (disch := omega) only [u32At_eq, ok_bind]
  trivial

variable {lo ll : ℕ} (hll : lo + ll ≤ data.length)
include hll

theorem readExport_safe {loader : LoaderInfo} {slots keys i : ℕ}
    (h : loader.exportHashOffset.toNat + slots * 4 + keys * 4 + (i + 1) * 10 ≤ ll) :
    (readExport data lo ll loader slots keys i).Safe fun _ => True := by
  unfold readExport
  rw [word_eq_of_le (by omega), ok_bind]
  refine (u32At_safe (by omega)).bind fun classAndName _ => ?_
  refine (u32At_safe (by omega)).bind fun value _ => ?_
  refine (u16At_safe (by omega)).bind fun sectionIndex _ => ?_
  dsimp only
  refine (Safe.okOr (P := fun _ => True) fun _ _ => trivial).bind fun nameAt _ => ?_
  refine Safe.ensure.bind fun _ hname => ?_
  refine (Safe.slice hname.le le_rfl fun b hb => hb).bind fun tail htail => ?_
  have hfind : ∀ p ∈ tail.findIdx? (· = 0), p < tail.length := by
    intro p hp
    exact (List.findIdx?_eq_some_iff_findIdx_eq.1 hp).1
  refine (Safe.okOr hfind).bind fun p hp => ?_
  rw [word_eq_of_le (by omega), ok_bind, word_eq_of_le (by omega), ok_bind]
  refine Safe.ensure.bind fun _ _ => ?_
  exact (Safe.slice (by omega) (by omega) fun _ _ => trivial).bind fun _ _ => trivial

theorem parseExports_safe {loader : LoaderInfo} :
    (parseExports data lo ll loader).Safe fun _ => True := by
  unfold parseExports
  split_ifs with hcount
  · trivial
  have hmax := isizeMax_eq
  have hentries := loader.exportedSymbolCount.toNat_lt
  dsimp only
  refine Safe.ensure.bind fun _ hpower => ?_
  have hslots : 2 ^ loader.exportHashTablePower.toNat ≤ 2 ^ 20 :=
    Nat.pow_le_pow_right (by decide) hpower
  generalize 2 ^ loader.exportHashTablePower.toNat = slots at hslots
  rw [word_eq_of_le (by omega), ok_bind, word_eq_of_le (by omega), ok_bind,
    word_eq_of_le (by omega), ok_bind]
  have hend : ∀ e ∈ ((checkedAdd loader.exportHashOffset.toNat (slots * 4)).bind fun v =>
        (checkedAdd v (loader.exportedSymbolCount.toNat * 4)).bind fun v =>
          checkedAdd v (loader.exportedSymbolCount.toNat * 10)),
      e = loader.exportHashOffset.toNat + slots * 4 + loader.exportedSymbolCount.toNat * 4 +
        loader.exportedSymbolCount.toNat * 10 := by
    intro e he
    obtain ⟨v, hv, he⟩ := Option.bind_eq_some_iff.1 he
    obtain ⟨w, hw, he⟩ := Option.bind_eq_some_iff.1 he
    obtain ⟨rfl, -⟩ := checkedAdd_eq_some.1 hv
    obtain ⟨rfl, -⟩ := checkedAdd_eq_some.1 hw
    exact (checkedAdd_eq_some.1 he).1.symm
  refine (Safe.okOr hend).bind ?_
  rintro e rfl
  refine Safe.ensure.bind fun _ hfits => ?_
  rw [withCapacity_eq (by omega), ok_bind]
  refine (Safe.collect (P := fun _ => True) fun i hi => ?_).mono fun _ _ => trivial
  exact readExport_safe hlen hll (by omega)

end

/-- What the functions below rely on. -/
structure Container.Sound (c : Container) : Prop where
  sections_length : c.sections.length < 2 ^ 16
  loaderContainer_length : c.loaderContainer.length ≤ isizeMax

/-- **Parsing does not panic.** -/
theorem Container.parse_safe (data : Slice) : (Container.parse data).Safe Container.Sound := by
  have hlen := data.length_le
  have hmax := isizeMax_eq
  unfold Container.parse
  dsimp only
  refine Safe.ensure.bind fun _ hheader => ?_
  refine (Safe.slice (by omega) (by omega) fun _ _ => trivial).bind fun magic _ => ?_
  refine Safe.ensure.bind fun _ hmagic => ?_
  refine (u32At_safe (by omega)).bind fun containerVersion _ => ?_
  refine (u32At_safe (by omega)).bind fun timestamp _ => ?_
  refine (u32At_safe (by omega)).bind fun currentVersion _ => ?_
  refine (u16At_safe (by omega)).bind fun sectionCount _ => ?_
  have hcount := sectionCount.toNat_lt
  rw [word_eq_of_le (by omega), ok_bind]
  refine need_safe.bind fun _ htable => ?_
  rw [withCapacity_eq (by omega), ok_bind]
  have hsections : (collect (readSection data.bytes) 0 sectionCount.toNat).Safe
      fun l => l.length = sectionCount.toNat ∧ ∀ s ∈ l, True :=
    Safe.collect fun i hi => readSection_safe hlen (by omega)
  refine hsections.bind fun sections hsections => ?_
  refine (Safe.okOr (P := fun _ => True) fun _ _ => trivial).bind fun loaderSec _ => ?_
  refine need_safe.bind fun _ hloader => ?_
  refine need_safe.bind fun _ hinfo => ?_
  refine (readLoaderInfo_safe hinfo).bind fun loader _ => ?_
  rw [word_eq_of_le (by omega), ok_bind]
  refine (Safe.slice (by omega) hloader fun b hb => hb).bind fun loaderContainer hlc => ?_
  refine (parseExports_safe hlen hloader).bind fun exports _ => ?_
  exact ⟨by rw [hsections.1]; exact hcount, by dsimp only; omega⟩

/-- **Unpacking a section does not panic.** -/
theorem Container.unpackSection_safe (c : Container) (s : PefSection) :
    (c.unpackSection s).Safe fun v => v.length ≤ isizeMax := by
  have hmax := isizeMax_eq
  have hunpacked := s.unpackedLength.toNat_lt
  have hoff := s.containerOffset.toNat_lt
  have hlen := s.containerLength.toNat_lt
  have hdata := c.data.length_le
  refine need_safe.bind fun _ hfits => ?_
  rw [word_eq_of_le (by omega), ok_bind]
  refine (Safe.slice (by omega) hfits fun b hb => hb).bind fun packed hpacked => ?_
  have hL : s.unpackedLength.toNat ≤ isizeMax := by omega
  refine (unpackPacked_safe (by omega) hL).mono ?_
  intro v hv
  exact hv.trans hL

end Usbmidi9
