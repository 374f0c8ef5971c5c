/-
  USBMIDI9 — relocation of a section and the special main (`pefcheck/src/reloc.rs`).

  `relocateSection` reads the relocation headers and the import names of the loader
  section, decodes the section and replays its program; `specialMainVector` looks at
  the eight bytes that the special main is at.
-/
import Usbmidi9.Pef.Container
import Usbmidi9.Pef.Reloc

namespace Usbmidi9

open Outcome

/-! ## Loader tables -/

/-- `need` of `reloc.rs`. -/
def loaderNeed (buf : List UInt8) (off n : ℕ) (what : String) : Outcome String Unit :=
  ensure (∃ e ∈ checkedAdd off n, e ≤ buf.length)
    s!"truncated loader: {what} needs {n} bytes at 0x{hexString off}"

/-- `read_cstr`. -/
def readCstr (buf : List UInt8) (at_ : ℕ) : Outcome String (List Char) := do
  loaderNeed buf at_ 1 "import name"
  let tail ← slice buf at_ buf.length
  let p ← okOr "unterminated import name" (tail.findIdx? (· = 0))
  let fin ← word (at_ + p)
  let name ← slice buf at_ fin
  .ok (utf8Lossy name)

/-- A relocation header with its chunks. -/
structure RelocHeader where
  sectionIndex : UInt16
  chunks : List UInt16

/-- One header, at `s.1`, behind the headers `s.2`. -/
def readRelocHeader (lc : List UInt8) (rinstr : ℕ) (s : ℕ × List RelocHeader) :
    Outcome String (ℕ × List RelocHeader) := do
  loaderNeed lc s.1 12 "relocation header"
  let sectionIndex ← u16At lc s.1
  let _reserved ← u16At lc (s.1 + 2)
  let rcount ← u32At lc (s.1 + 4)
  let first ← u32At lc (s.1 + 8)
  let pos ← word (s.1 + 12)
  let base ← okOr "relocation chunk offset overflow" (checkedAdd rinstr first.toNat)
  let n ← word (rcount.toNat * 2)
  loaderNeed lc base n "relocation chunks"
  let _chunks ← (withCapacity 2 rcount.toNat : Outcome String (List UInt16))
  let chunks ← collect (fun k => word (base + k * 2) >>= u16At lc) 0 rcount.toNat
  .ok (pos, s.2 ++ [⟨sectionIndex, chunks⟩])

/-- `parse_reloc_headers`. -/
def parseRelocHeaders (c : Container) : Outcome String (List RelocHeader) := do
  let lc := c.loaderContainer
  let libs := c.loader.importedLibraryCount.toNat
  let syms := c.loader.totalImportedSymbolCount.toNat
  let rsc := c.loader.relocSectionCount.toNat
  let libBytes ← word (libs * 24)
  let pos ← okOr "loader table overflow" (checkedAdd 56 libBytes)
  let symBytes ← word (syms * 4)
  let pos ← okOr "loader table overflow" (checkedAdd pos symBytes)
  let headers ← withCapacity 32 rsc
  let s ← iterate (readRelocHeader lc c.loader.relocInstrOffset.toNat) rsc (pos, headers)
  .ok s.2

/-- One import name, at `s.1`, behind the names `s.2`. -/
def readImportName (lc : List UInt8) (sstr : ℕ) (s : ℕ × List (List Char)) :
    Outcome String (ℕ × List (List Char)) := do
  loaderNeed lc s.1 4 "imported symbol"
  let v ← u32At lc s.1
  let nameOff := (v &&& 0x00ffffff).toNat
  let at_ ← word (sstr + nameOff)
  let name ← readCstr lc at_
  let pos ← word (s.1 + 4)
  .ok (pos, s.2 ++ [name])

/-- `parse_import_names`. -/
def parseImportNames (c : Container) : Outcome String (List (List Char)) := do
  let lc := c.loaderContainer
  let libs := c.loader.importedLibraryCount.toNat
  let syms := c.loader.totalImportedSymbolCount.toNat
  let libBytes ← word (libs * 24)
  let pos ← okOr "loader table overflow" (checkedAdd 56 libBytes)
  let names ← withCapacity 24 syms
  let s ← iterate (readImportName lc c.loader.loaderStringsOffset.toNat) syms (pos, names)
  .ok s.2

/-! ## Synthetic bases -/

/-- `SYNTHETIC_BASE0`. -/
def syntheticBase0 : ℕ := 0x10000000

/-- `align16`. -/
def align16 (v : ℕ) : Outcome Empty ℕ := do
  let n ← word (v + 15)
  .ok (n &&& (wordSize - 1 - 15))

/-- One section's base, with the running address `s.1`. -/
def syntheticBase (s : ℕ × List UInt32) (section_ : PefSection) :
    Outcome Empty (ℕ × List UInt32) := do
  let size ← align16 section_.totalLength.toNat
  let cur ← word (s.1 + size)
  .ok (cur, s.2 ++ [UInt32.ofNat s.1])

/-- `synthetic_bases`. -/
def syntheticBases (c : Container) : Outcome Empty (List UInt32) := do
  let bases ← withCapacity 4 c.sections.length
  let s ← foldl syntheticBase c.sections (syntheticBase0, bases)
  .ok s.2

/-! ## Relocation -/

/-- The result of relocating one section. -/
structure RelocResult where
  sectionIndex : ℕ
  content : List UInt8
  decodeStatus : Except String Unit
  relocComplete : Bool
  complete : Bool
  importFixups : List ImportFixup
  notes : List String

/-- The bytes of a section in the file. -/
def sectionContainer (c : Container) (s : PefSection) (what : String) :
    Outcome String (List UInt8) := do
  let off := s.containerOffset.toNat
  let len := s.containerLength.toNat
  loaderNeed c.data.bytes off len what
  let fin ← word (off + len)
  slice c.data.bytes off fin

/-- The content that is relocated, and whether all of it is decoded. -/
def decodeSection (c : Container) (s : PefSection) :
    Outcome String (List UInt8 × Except String Unit) :=
  if s.kind = 2 then do
    let packed ← sectionContainer c s "packed container"
    let r ← (unpackPackedPartial packed s.unpackedLength.toNat).attempt
    match r with
    | .ok content => .ok (content, .ok ())
    | .error (content, e) => .ok (content, .error e)
  else do
    let content ← sectionContainer c s "section container"
    .ok (content, .ok ())

/-- `relocate_section`. -/
def relocateSection (c : Container) (sectionIndex : ℕ) : Outcome String RelocResult := do
  ensure (sectionIndex < c.sections.length) s!"section {sectionIndex} out of range"
  let headers ← parseRelocHeaders c
  let header ← okOr s!"no relocation program for section {sectionIndex}"
    (headers.find? (·.sectionIndex.toNat = sectionIndex))
  let s ← get c.sections sectionIndex
  let (content, decodeStatus) ← decodeSection c s
  let bases ← (syntheticBases c).lift
  let importNames ← parseImportNames c
  let (relocComplete, st) ← (applyProgram header.chunks bases importNames content [] []).lift
  .ok { sectionIndex, content := st.content, decodeStatus, relocComplete,
        complete := decodeStatus.isOk && relocComplete, importFixups := st.fixups,
        notes := st.notes }

/-! ## The special main -/

/-- A pointer as a section and an offset. -/
structure ResolvedPointer where
  word : UInt32
  sectionIndex : ℕ
  offset : UInt32

/-- The loop of `resolve_pointer`, from section `i` on. -/
def resolvePointerFrom (bases : List UInt32) (w : UInt32) : ℕ → List PefSection → ResolvedPointer
  | _, [] => ⟨w, wordSize - 1, w⟩
  | i, s :: rest =>
    let base := (bases[i]?).getD 0
    if base ≤ w ∧ w - base < s.totalLength then ⟨w, i, w - base⟩
    else resolvePointerFrom bases w (i + 1) rest

/-- `resolve_pointer`. -/
def resolvePointer (bases : List UInt32) (sections : List PefSection) (w : UInt32) :
    ResolvedPointer :=
  resolvePointerFrom bases w 0 sections

/-- The outcome of decoding the eight bytes of the special main. -/
inductive VectorStatus where
  | valid (entry toc : ResolvedPointer)
  | provisional (word0 word1 : UInt32) (reason : String)
  | notAVector (word0 word1 : UInt32)
  | beyondDecodedPrefix

/-- The analysis of the special main. -/
structure VectorAnalysis where
  sectionIndex : ℕ
  mainOffset : UInt32
  complete : Bool
  bytes : Option (List UInt8)
  status : VectorStatus
  decodeStatus : Except String Unit
  importFixups : List ImportFixup
  notes : List String

/-- Both words of a vector are there, and aligned. -/
def isVector (w0 w1 : UInt32) : Prop := w0 ≠ 0 ∧ w0 % 4 = 0 ∧ w1 ≠ 0 ∧ w1 % 4 = 0

instance (w0 w1 : UInt32) : Decidable (isVector w0 w1) :=
  inferInstanceAs (Decidable (_ ∧ _ ∧ _ ∧ _))

/-- Why a vector is provisional. -/
def provisionalReason (r : RelocResult) : String :=
  match r.decodeStatus, r.relocComplete with
  | .error e, _ => s!"partial packed-data decode: {e}"
  | .ok _, false => "partial relocation replay (not all relocCount blocks consumed)"
  | .ok _, true => "partial reconstruction"

/-- The status of the eight bytes `b`. -/
def vectorStatus (c : Container) (r : RelocResult) (b : List UInt8) :
    Outcome Empty VectorStatus := do
  let w0 ← u32At b 0
  let w1 ← u32At b 4
  if r.complete = false then .ok (.provisional w0 w1 (provisionalReason r))
  else if isVector w0 w1 then do
    let bases ← syntheticBases c
    .ok (.valid (resolvePointer bases c.sections w0) (resolvePointer bases c.sections w1))
  else .ok (.notAVector w0 w1)

/-- The eight bytes at the special main, if they are there. -/
def mainBytes (content : List UInt8) (a : ℕ) : Outcome Empty (Option (List UInt8)) := do
  let fin ← word (a + 8)
  if fin ≤ content.length then do
    let b ← slice content a fin
    .ok (some b)
  else .ok none

/-- The analysis, of a section that is relocated. -/
def analyzeVector (c : Container) (ms : ℕ) (r : RelocResult) : Outcome Empty VectorAnalysis := do
  let bytes ← mainBytes r.content c.loader.mainOffset.toNat
  let status ← (match bytes with
    | none => .ok .beyondDecodedPrefix
    | some b => vectorStatus c r b : Outcome Empty VectorStatus)
  .ok { sectionIndex := ms, mainOffset := c.loader.mainOffset, complete := r.complete, bytes,
        status, decodeStatus := r.decodeStatus, importFixups := r.importFixups,
        notes := r.notes }

/-- `special_main_vector`. -/
def specialMainVector (c : Container) : Outcome Empty (Option VectorAnalysis) := do
  let ms := c.loader.mainSection
  if ms < 0 then .ok none
  else
    let ms := ms.toInt.toNat
    if c.sections.length ≤ ms then .ok none
    else do
      let result ← (relocateSection c ms).attempt
      match result with
      | .error _ => .ok none
      | .ok r => do
        let analysis ← analyzeVector c ms r
        .ok (some analysis)

/-! ## No panic -/

theorem loaderNeed_safe {buf : List UInt8} {off n : ℕ} {what : String} :
    (loaderNeed buf off n what).Safe fun _ => off + n ≤ buf.length := by
  refine Safe.ensure.mono ?_
  rintro _ ⟨e, he, hle⟩
  obtain ⟨rfl, -⟩ := checkedAdd_eq_some.1 he
  exact hle

section
variable {lc : List UInt8} (hlc : lc.length ≤ isizeMax)
include hlc

theorem readCstr_safe {at_ : ℕ} : (readCstr lc at_).Safe fun _ => True := by
  refine loaderNeed_safe.bind fun _ hfits => ?_
  refine (Safe.slice (by omega) le_rfl fun b hb => hb).bind fun tail htail => ?_
  have hfind : ∀ p ∈ tail.findIdx? (· = 0), p < tail.length := by
    intro p hp
    exact (List.findIdx?_eq_some_iff_findIdx_eq.1 hp).1
  refine (Safe.okOr hfind).bind fun p hp => ?_
  rw [word_eq_of_le (by omega), ok_bind]
  exact (Safe.slice (by omega) (by omega) fun _ _ => trivial).bind fun _ _ => trivial

/-- The chunks of a header are counted in 32 bits. -/
def RelocHeader.Counted (h : RelocHeader) : Prop := h.chunks.length < 2 ^ 32

theorem readRelocHeader_safe {rinstr : ℕ} {s : ℕ × List RelocHeader}
    (hs : ∀ h ∈ s.2, h.Counted) :
    (readRelocHeader lc rinstr s).Safe fun s' => ∀ h ∈ s'.2, h.Counted := by
  have hmax := isizeMax_eq
  refine loaderNeed_safe.bind fun _ hfits => ?_
  refine (u16At_safe (by omega)).bind fun sectionIndex _ => ?_
  refine (u16At_safe (by omega)).bind fun _ _ => ?_
  refine (u32At_safe (by omega)).bind fun rcount _ => ?_
  refine (u32At_safe (by omega)).bind fun first _ => ?_
  rw [word_eq_of_le (by omega), ok_bind]
  refine (Safe.okOr (P := fun _ => True) fun _ _ => trivial).bind fun base _ => ?_
  have hrcount := rcount.toNat_lt
  rw [word_eq_of_le (by omega), ok_bind]
  refine loaderNeed_safe.bind fun _ hchunks => ?_
  rw [withCapacity_eq (by omega), ok_bind]
  have hread : (collect (fun k => word (base + k * 2) >>= u16At lc) 0 rcount.toNat :
      Outcome String _).Safe fun l => l.length = rcount.toNat ∧ ∀ a ∈ l, True := by
    refine Safe.collect fun k hk => ?_
    rw [word_eq_of_le (by omega), ok_bind]
    exact u16At_safe (by omega)
  refine hread.bind fun chunks hlen => ?_
  intro h hh
  rcases List.mem_append.1 hh with hh | hh
  · exact hs h hh
  · obtain rfl := List.mem_singleton.1 hh
    exact lt_of_eq_of_lt hlen.1 hrcount

theorem readImportName_safe {sstr : ℕ} (hsstr : sstr < 2 ^ 32) {s : ℕ × List (List Char)} :
    (readImportName lc sstr s).Safe fun _ => True := by
  have hmax := isizeMax_eq
  refine loaderNeed_safe.bind fun _ hfits => ?_
  refine (u32At_safe (by omega)).bind fun v _ => ?_
  have hname := (v &&& 0x00ffffff).toNat_lt
  dsimp only
  rw [word_eq_of_le (by omega), ok_bind]
  refine (readCstr_safe hlc).bind fun name _ => ?_
  rw [word_eq_of_le (by omega)]
  trivial

end

section
variable {c : Container} (hc : c.Sound)
include hc

theorem parseRelocHeaders_safe :
    (parseRelocHeaders c).Safe fun hs => ∀ h ∈ hs, h.Counted := by
  have hmax := isizeMax_eq
  have hlibs := c.loader.importedLibraryCount.toNat_lt
  have hsyms := c.loader.totalImportedSymbolCount.toNat_lt
  have hrsc := c.loader.relocSectionCount.toNat_lt
  unfold parseRelocHeaders
  dsimp only
  rw [word_eq_of_le (by omega), ok_bind]
  refine (Safe.okOr (P := fun _ => True) fun _ _ => trivial).bind fun pos _ => ?_
  rw [word_eq_of_le (by omega), ok_bind]
  refine (Safe.okOr (P := fun _ => True) fun _ _ => trivial).bind fun pos _ => ?_
  rw [withCapacity_eq (by omega), ok_bind]
  have hstep : ∀ s : ℕ × List RelocHeader, (∀ h ∈ s.2, h.Counted) →
      (readRelocHeader c.loaderContainer c.loader.relocInstrOffset.toNat s).Safe
        fun s' => ∀ h ∈ s'.2, h.Counted :=
    fun s hs => readRelocHeader_safe hc.loaderContainer_length hs
  have hrun := Safe.iterate (n := c.loader.relocSectionCount.toNat)
    (I := fun _ (s : ℕ × List RelocHeader) => ∀ h ∈ s.2, h.Counted) (a := (pos, []))
    (fun _ _ s hs => hstep s hs) nofun
  exact hrun.bind fun s hs => hs

theorem parseImportNames_safe : (parseImportNames c).Safe fun _ => True := by
  have hmax := isizeMax_eq
  have hlibs := c.loader.importedLibraryCount.toNat_lt
  have hsyms := c.loader.totalImportedSymbolCount.toNat_lt
  unfold parseImportNames
  dsimp only
  rw [word_eq_of_le (by omega), ok_bind]
  refine (Safe.okOr (P := fun _ => True) fun _ _ => trivial).bind fun pos _ => ?_
  rw [withCapacity_eq (by omega), ok_bind]
  refine (Safe.iterate_true fun s => ?_).bind fun _ _ => trivial
  exact readImportName_safe hc.loaderContainer_length c.loader.loaderStringsOffset.toNat_lt

theorem syntheticBases_safe : (syntheticBases c).Safe fun _ => True := by
  have hmax := isizeMax_eq
  have hsections := hc.sections_length
  unfold syntheticBases
  rw [withCapacity_eq (by omega), ok_bind]
  -- each section takes less than 2 ^ 33 bytes
  have hrun := Safe.foldl (l := c.sections) (f := syntheticBase)
    (I := fun k s => s.1 ≤ 2 ^ 28 + k * 2 ^ 33) (b := (syntheticBase0, []))
    (by
      intro k s section_ _ hk hs
      have htotal := section_.totalLength.toNat_lt
      unfold syntheticBase align16
      rw [word_eq_of_le (by omega), ok_bind, ok_bind]
      have hand : (section_.totalLength.toNat + 15) &&& (wordSize - 1 - 15) ≤
          section_.totalLength.toNat + 15 := Nat.and_le_left
      rw [word_eq_of_le (by omega), ok_bind]
      show _ ≤ _
      omega)
    (by decide)
  exact hrun.bind fun _ _ => trivial

omit hc in
theorem sectionContainer_safe {s : PefSection} {what : String} :
    (sectionContainer c s what).Safe fun b => b.length ≤ isizeMax := by
  have hdata := c.data.length_le
  refine loaderNeed_safe.bind fun _ hfits => ?_
  rw [word_eq_of_le (by omega), ok_bind]
  exact Safe.slice (by omega) hfits fun b hb => by omega

omit hc in
theorem decodeSection_safe {s : PefSection} : (decodeSection c s).Safe fun _ => True := by
  have hmax := isizeMax_eq
  have hunpacked := s.unpackedLength.toNat_lt
  unfold decodeSection
  split_ifs with hkind
  · refine sectionContainer_safe.bind fun packed hpacked => ?_
    refine (unpackPackedPartial_safe hpacked (by omega)).attempt.bind fun r _ => ?_
    rcases r with ⟨content, e⟩ | content
    · trivial
    · trivial
  · exact sectionContainer_safe.bind fun _ _ => trivial

/-- **Relocating a section does not panic.** -/
theorem relocateSection_safe {i : ℕ} : (relocateSection c i).Safe fun _ => True := by
  refine Safe.ensure.bind fun _ hi => ?_
  refine (parseRelocHeaders_safe hc).bind fun headers hheaders => ?_
  have hfind : ∀ h ∈ headers.find? (·.sectionIndex.toNat = i), h.Counted := by
    intro h hh
    exact hheaders h (List.mem_of_find?_eq_some hh)
  refine (Safe.okOr hfind).bind fun header hheader => ?_
  rw [get_eq hi, ok_bind]
  refine decodeSection_safe.bind fun r _ => ?_
  refine (syntheticBases_safe hc).lift.bind fun bases _ => ?_
  refine (parseImportNames_safe hc).bind fun names _ => ?_
  refine (applyProgram_safe (lt_trans hheader (by decide))).lift.bind fun r _ => ?_
  trivial

omit hc in
theorem mainBytes_safe {content : List UInt8} {a : ℕ} (ha : a < 2 ^ 32) :
    (mainBytes content a).Safe fun o => ∀ b ∈ o, b.length = 8 := by
  have hmax := isizeMax_eq
  unfold mainBytes
  rw [word_eq_of_le (by omega), ok_bind]
  split_ifs with hfits
  · refine (Safe.slice (by omega) hfits fun b hb => hb).bind fun b hb => ?_
    intro b' hb'
    obtain rfl := Option.some.inj hb'
    omega
  · nofun

theorem vectorStatus_safe {r : RelocResult} {b : List UInt8} (hb : b.length = 8) :
    (vectorStatus c r b).Safe fun _ => True := by
  refine (u32At_safe (by omega)).bind fun w0 _ => ?_
  refine (u32At_safe (by omega)).bind fun w1 _ => ?_
  split_ifs
  · trivial
  · exact (syntheticBases_safe hc).bind fun _ _ => trivial
  · trivial

theorem analyzeVector_safe {ms : ℕ} {r : RelocResult} :
    (analyzeVector c ms r).Safe fun _ => True := by
  refine (mainBytes_safe c.loader.mainOffset.toNat_lt).bind fun bytes hbytes => ?_
  cases bytes with
  | none => trivial
  | some b => exact (vectorStatus_safe hc (hbytes b rfl)).bind fun _ _ => trivial

/-- **The analysis of the special main does not panic.** -/
theorem specialMainVector_safe : (specialMainVector c).Safe fun _ => True := by
  unfold specialMainVector
  dsimp only
  split_ifs
  · trivial
  · trivial
  · refine (relocateSection_safe hc).attempt.bind fun r _ => ?_
    cases r with
    | error e => trivial
    | ok r => exact (analyzeVector_safe hc).bind fun _ _ => trivial

end

end Usbmidi9
