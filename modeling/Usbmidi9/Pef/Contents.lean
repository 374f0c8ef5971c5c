/-
  USBMIDI9 — the bytes of a section, as three parts of the analyser see them.

  `validate` and `relocate_section` go by the kind of a section, `section_bytes` of
  `trapcheck.rs` by its lengths.  `sectionBytes_agrees_iff` says which sections are the
  same for all of them.
-/
import Usbmidi9.Pef.Exact
import Usbmidi9.Pef.Validate

namespace Usbmidi9

open Outcome

/-! ## Stored bytes -/

/-- The container of a section lies inside the file. -/
def PefSection.InFile (c : Container) (s : PefSection) : Prop :=
  s.containerOffset.toNat + s.containerLength.toNat ≤ c.data.bytes.length

instance (c : Container) (s : PefSection) : Decidable (s.InFile c) :=
  inferInstanceAs (Decidable (_ ≤ _))

/-- The bytes of the container. -/
def PefSection.stored (c : Container) (s : PefSection) : List UInt8 :=
  (c.data.bytes.take (s.containerOffset.toNat + s.containerLength.toNat)).drop
    s.containerOffset.toNat

section
variable {c : Container} {s : PefSection} (h : s.InFile c)
include h

theorem PefSection.InFile.lt_wordSize :
    s.containerOffset.toNat + s.containerLength.toNat < wordSize :=
  lt_of_le_of_lt (h.trans c.data.length_le) (by decide)

theorem PefSection.length_stored : (s.stored c).length = s.containerLength.toNat := by
  unfold PefSection.InFile at h
  rw [stored, List.length_drop, List.length_take]
  omega

theorem slice_stored {ε : Type} :
    (slice c.data.bytes s.containerOffset.toNat
      (s.containerOffset.toNat + s.containerLength.toNat) : Outcome ε _) = .ok (s.stored c) :=
  slice_eq (Nat.le_add_right _ _) h

/-- The check of a range that is inside the file. -/
theorem checked_inFile :
    ∃ e ∈ checkedAdd s.containerOffset.toNat s.containerLength.toNat, e ≤ c.data.bytes.length :=
  ⟨_, checkedAdd_eq_some.2 ⟨rfl, h.lt_wordSize⟩, h⟩

theorem unpackSection_eq :
    c.unpackSection s = unpackPacked (s.stored c) s.unpackedLength.toNat := by
  unfold Container.unpackSection need ensure
  dsimp only
  rw [if_pos (checked_inFile h), ok_bind, word_eq h.lt_wordSize, ok_bind, slice_stored h, ok_bind]

theorem sectionBytes_eq :
    sectionBytes c s = if s.containerLength = s.unpackedLength then .ok (s.stored c)
      else unpackPacked (s.stored c) s.unpackedLength.toNat := by
  unfold sectionBytes ensure
  dsimp only
  have hfits : s.containerOffset.toNat + s.containerLength.toNat ≤ c.data.bytes.length := h
  rw [word_eq h.lt_wordSize, ok_bind, if_pos hfits, ok_bind, slice_stored h, unpackSection_eq h]

theorem mainContent_eq {ms : ℕ} :
    mainContent c ms s = if s.kind = 2 then unpackPacked (s.stored c) s.unpackedLength.toNat
      else .ok (s.stored c) := by
  unfold mainContent ensure
  dsimp only
  rw [if_pos (checked_inFile h), ok_bind, word_eq h.lt_wordSize, ok_bind, slice_stored h,
    unpackSection_eq h]

theorem sectionContainer_eq {what : String} : sectionContainer c s what = .ok (s.stored c) := by
  unfold sectionContainer loaderNeed ensure
  dsimp only
  rw [if_pos (checked_inFile h), ok_bind, word_eq h.lt_wordSize, ok_bind, slice_stored h]

/-- Relocation starts from the content that is validated. -/
theorem decodeSection_eq_ok {ms : ℕ} {v : List UInt8} :
    decodeSection c s = .ok (v, .ok ()) ↔ mainContent c ms s = .ok v := by
  rw [mainContent_eq h]
  unfold decodeSection
  split_ifs with hkind
  · rw [sectionContainer_eq h, ok_bind, unpackPacked, mapErr_eq_ok]
    cases unpackPackedPartial (s.stored c) s.unpackedLength.toNat with
    | ok a => simp [attempt]
    | err e => simp [attempt]
    | panic => simp [attempt]
  · rw [sectionContainer_eq h, ok_bind]
    simp

/-- What is unpacked. -/
theorem unpackPacked_stored {v : List UInt8} :
    unpackPacked (s.stored c) s.unpackedLength.toNat = .ok v ↔
      Unpacks (s.stored c) s.unpackedLength.toNat v := by
  have hmax := isizeMax_eq
  have hlen := s.containerLength.toNat_lt
  have hunpacked := s.unpackedLength.toNat_lt
  refine unpackPacked_eq_ok ?_ (by omega)
  rw [PefSection.length_stored h]
  omega

end

theorem Unpacks.length_eq {data v : List UInt8} {outLen : ℕ} (h : Unpacks data outLen v) :
    v.length = outLen := by
  obtain ⟨l, ⟨-, rfl, hstream⟩, -⟩ := h
  have hlen := hstream.length_eq
  rwa [Nat.zero_add] at hlen

/-! ## One content for all -/

/-- The lengths of a section say the same about its bytes as its kind: a packed section
    has two different lengths, or unpacks to what it is; any other section has one. -/
def PefSection.Plain (c : Container) (s : PefSection) : Prop :=
  if s.kind = 2 then
    s.containerLength = s.unpackedLength →
      Unpacks (s.stored c) s.unpackedLength.toNat (s.stored c)
  else s.containerLength = s.unpackedLength

/-- Bytes as they are stored are what the section unpacks to. -/
theorem stored_eq_unpacked_iff {c : Container} {s : PefSection} (h : s.InFile c) :
    (∀ v, .ok (s.stored c) = (.ok v : Outcome String _) ↔
      unpackPacked (s.stored c) s.unpackedLength.toNat = .ok v) ↔
      Unpacks (s.stored c) s.unpackedLength.toNat (s.stored c) := by
  rw [← unpackPacked_stored h]
  constructor
  · intro hall
    exact (hall _).1 rfl
  · intro hsame v
    rw [hsame]

/-- **One content for all**: relocation starts from what `validate` decodes.  What
    `section_bytes` returns is the same, and it fails where they do, exactly for plain
    sections. -/
theorem sectionBytes_agrees_iff (c : Container) (s : PefSection) (h : s.InFile c) :
    (∀ ms v, decodeSection c s = .ok (v, .ok ()) ↔ mainContent c ms s = .ok v) ∧
      ((∀ ms v, sectionBytes c s = .ok v ↔ mainContent c ms s = .ok v) ↔ s.Plain c) := by
  refine ⟨fun ms v => decodeSection_eq_ok h, ?_⟩
  simp only [forall_const, mainContent_eq h, sectionBytes_eq h]
  unfold PefSection.Plain
  by_cases hkind : s.kind = 2
  · by_cases hlen : s.containerLength = s.unpackedLength
    · simp only [if_pos hkind, forall_const, hlen]
      exact stored_eq_unpacked_iff h
    · simp [hkind, hlen]
  · by_cases hlen : s.containerLength = s.unpackedLength
    · simp [hkind, hlen]
    · simp only [if_neg hkind, hlen, iff_false]
      intro hall
      -- what is unpacked has another length than what is stored
      have hself := (unpackPacked_stored h).1 ((hall _).2 rfl)
      have hlengths := hself.length_eq
      rw [PefSection.length_stored h] at hlengths
      exact hlen (UInt32.toNat_inj.1 hlengths)

/-! ## A section with two lengths -/

deriving instance DecidableEq for PefSection, LoaderInfo, PefExport, Slice, Container

/-- A section as the table has it. -/
def PefSection.encode (s : PefSection) : List UInt8 :=
  u32ToBe s.nameOffset ++ u32ToBe s.defaultAddress ++ u32ToBe s.totalLength ++
    u32ToBe s.unpackedLength ++ u32ToBe s.containerLength ++ u32ToBe s.containerOffset ++
    [s.kind, s.shareKind, s.alignment, s.reservedA]

/-- The loader header. -/
def LoaderInfo.encode (l : LoaderInfo) : List UInt8 :=
  [l.mainSection.toUInt32, l.mainOffset, l.initSection.toUInt32, l.initOffset,
    l.termSection.toUInt32, l.termOffset, l.importedLibraryCount, l.totalImportedSymbolCount,
    l.relocSectionCount, l.relocInstrOffset, l.loaderStringsOffset, l.exportHashOffset,
    l.exportHashTablePower, l.exportedSymbolCount].flatMap u32ToBe

/-- A file with fewer than 256 sections, the loader header and `rest` behind it. -/
def pefFile (sections : List PefSection) (loader : LoaderInfo) (rest : List UInt8) : List UInt8 :=
  pefMagic ++ List.replicate 21 0 ++ [UInt8.ofNat sections.length] ++ List.replicate 6 0 ++
    sections.flatMap PefSection.encode ++ loader.encode ++ rest

/-- No main symbol, no imports, no relocations and no exports. -/
def LoaderInfo.empty : LoaderInfo where
  mainSection := -1
  mainOffset := 0
  initSection := -1
  initOffset := 0
  termSection := -1
  termOffset := 0
  importedLibraryCount := 0
  totalImportedSymbolCount := 0
  relocSectionCount := 0
  relocInstrOffset := 0
  loaderStringsOffset := 0
  exportHashOffset := 0
  exportHashTablePower := 0
  exportedSymbolCount := 0

/-- A loader section of `len` bytes at `off`. -/
def PefSection.loader (off len : UInt32) : PefSection where
  nameOffset := 0xffffffff
  defaultAddress := 0
  totalLength := 0
  unpackedLength := 0
  containerLength := len
  containerOffset := off
  kind := 4
  shareKind := 4
  alignment := 4
  reservedA := 0

/-- A section of unpacked data, of which `len` bytes are stored at `off`. -/
def PefSection.unpackedData (total unpacked off len : UInt32) : PefSection where
  nameOffset := 0xffffffff
  defaultAddress := 0
  totalLength := total
  unpackedLength := unpacked
  containerLength := len
  containerOffset := off
  kind := 1
  shareKind := 1
  alignment := 2
  reservedA := 0

/-- What such a file is parsed to, if there are no exports. -/
def pefContainer (data : Slice) (sections : List PefSection) (loader : LoaderInfo)
    (loaderContainer : List UInt8) : Container where
  data := data
  containerVersion := 0
  timestamp := 0
  currentVersion := 0
  sectionCount := UInt16.ofNat sections.length
  sections := sections
  loader := loader
  loaderContainer := loaderContainer
  exports := []

/-- The last four of eight bytes are not stored. -/
def zeroFilled : PefSection := .unpackedData 8 8 152 4

def zeroFilledFile : List UInt8 :=
  pefFile [zeroFilled, .loader 96 56] .empty [0x60, 0, 0, 0]

theorem length_zeroFilledFile : zeroFilledFile.length ≤ isizeMax := by decide +kernel

def zeroFilledContainer : Container :=
  pefContainer ⟨zeroFilledFile, length_zeroFilledFile⟩ [zeroFilled, .loader 96 56] .empty
    LoaderInfo.empty.encode

theorem parse_zeroFilledFile :
    Container.parse ⟨zeroFilledFile, length_zeroFilledFile⟩ = .ok zeroFilledContainer := by
  decide +kernel

/-- A section whose last bytes are not stored is unpacked, though it is not packed. -/
theorem not_sectionBytes_agrees :
    ¬ ∀ data c, Container.parse data = .ok c → ∀ s ∈ c.sections, s.InFile c →
      ∀ ms v, sectionBytes c s = .ok v ↔ mainContent c ms s = .ok v := by
  intro h
  have hagree := h _ _ parse_zeroFilledFile zeroFilled List.mem_cons_self (by decide +kernel) 0
    [0x60, 0, 0, 0]
  revert hagree
  decide +kernel

/-- The four stored bytes as a section of their own are the same for all; that section is not. -/
theorem sectionBytes_agrees_iff_zeroFilled :
    (∀ ms v, sectionBytes zeroFilledContainer (.unpackedData 8 4 152 4) = .ok v ↔
      mainContent zeroFilledContainer ms (.unpackedData 8 4 152 4) = .ok v) ∧
    (∀ ms v, decodeSection zeroFilledContainer zeroFilled = .ok (v, .ok ()) ↔
      mainContent zeroFilledContainer ms zeroFilled = .ok v) ∧
    ¬ ∀ ms v, sectionBytes zeroFilledContainer zeroFilled = .ok v ↔
      mainContent zeroFilledContainer ms zeroFilled = .ok v := by
  have hstored := sectionBytes_agrees_iff zeroFilledContainer (.unpackedData 8 4 152 4)
    (by decide +kernel)
  have hzero := sectionBytes_agrees_iff zeroFilledContainer zeroFilled (by decide +kernel)
  have hplain : PefSection.Plain zeroFilledContainer (.unpackedData 8 4 152 4) := by
    rw [PefSection.Plain, if_neg (by decide)]
    rfl
  refine ⟨hstored.2.2 hplain, hzero.1, fun hall => ?_⟩
  have hlengths := hzero.2.1 hall
  rw [PefSection.Plain, if_neg (by decide)] at hlengths
  exact absurd hlengths (by decide)

end Usbmidi9
