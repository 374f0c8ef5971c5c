/-
  USBMIDI9 — validation of a container (`pefcheck/src/validate.rs`) and the bytes of
  a section (`section_bytes` of `trapcheck.rs`).

  `analyser_safe`: none of the analyses of a container that was parsed panics.
-/
import Usbmidi9.Pef.Relocate

namespace Usbmidi9

open Outcome

/-! ## The report -/

/-- Where the special main is. -/
structure MainTarget where
  sectionIndex : ℕ
  offset : UInt32
  kind : UInt8

/-- The result of `validate`. -/
structure Report where
  errors : List String := []
  notes : List String := []
  mainTarget : Option MainTarget := none
  targetBytes : Option (List UInt8) := none
  vector : Option (UInt32 × UInt32) := none
  relocVector : Option VectorAnalysis := none
  relocStream : Option (List UInt8) := none

/-- `valid`. -/
def Report.valid (r : Report) : Bool := r.errors.isEmpty

def Report.error (r : Report) (msg : String) : Report := { r with errors := r.errors ++ [msg] }

def Report.note (r : Report) (msg : String) : Report := { r with notes := r.notes ++ [msg] }

/-- An error unless a condition holds. -/
def Report.require (r : Report) (p : Prop) [Decidable p] (msg : String) : Report :=
  if p then r else r.error msg

/-- `CODE_CONTAINER_ALIGNMENT`. -/
def codeContainerAlignment : UInt32 := 16

/-! ## Rules -/

section
variable (c : Container) (r : Report)

/-- The rules for a section: bounds and alignment. -/
def validateSection (i : ℕ) (s : PefSection) : Report :=
  let off := s.containerOffset.toNat
  let fin := saturatingAdd off s.containerLength.toNat
  let r := r.require (fin ≤ c.data.bytes.length)
    s!"section {i} ({s.kindName}) container [0x{hexString off}, 0x{hexString fin}) exceeds file size 0x{hexString c.data.bytes.length}"
  let rest := s.containerOffset % codeContainerAlignment
  let r := r.require (¬ (s.kind = 0 ∧ rest ≠ 0))
    s!"code section {i} containerOffset 0x{hexString off} is not {codeContainerAlignment}-byte aligned (0x{hexString off} % {codeContainerAlignment} = {rest})"
  let align := s.alignment.toNat
  let required := 2 ^ align
  if align ≤ 13 then
    r.require (off % required = 0)
      s!"section {i} ({s.kindName}) containerOffset 0x{hexString off} not aligned to 2^{align} = {required}"
  else r

/-- The loop over the sections, from section `i` on. -/
def validateSections : ℕ → List PefSection → Report → Report
  | _, [], r => r
  | i, s :: rest, r => validateSections (i + 1) rest (validateSection c r i s)

/-- `loader_rel`. -/
def loaderRel (lcLen : ℕ) (off : UInt32) (n : ℕ) (what : String) : Report :=
  match checkedAdd off.toNat n with
  | none => r.error s!"{what} offset overflow"
  | some fin => r.require (fin ≤ lcLen)
      s!"{what} (0x{hexString off.toNat} + {n} = 0x{hexString fin}) exceeds the loader container (0x{hexString lcLen})"

/-- The rules for the loader header. -/
def validateLoader : Report :=
  let lcLen := c.loaderContainer.length
  let r := loaderRel r lcLen c.loader.relocInstrOffset 0 "relocInstrOffset"
  let r := loaderRel r lcLen c.loader.loaderStringsOffset 1 "loaderStringsOffset"
  let r := loaderRel r lcLen c.loader.exportHashOffset 1 "exportHashOffset"
  r.require (c.loader.exportHashTablePower ≤ 20)
    s!"implausible exportHashTablePower {c.loader.exportHashTablePower}"

/-- The content of the special main's section `ms`. -/
def mainContent (ms : ℕ) (s : PefSection) : Outcome String (List UInt8) :=
  if s.kind = 2 then c.unpackSection s
  else do
    let off := s.containerOffset.toNat
    let len := s.containerLength.toNat
    ensure (∃ e ∈ checkedAdd off len, e ≤ c.data.bytes.length)
      s!"section {ms} container out of bounds"
    let fin ← word (off + len)
    slice c.data.bytes off fin

/-- The stored bytes of the special main. -/
def storedVector (ms : ℕ) (s : PefSection) : Outcome Empty Report := do
  let content ← (mainContent c ms s).attempt
  match content with
  | .error e => .ok (r.note s!"main target content not decodable: {e} (informational)")
  | .ok content =>
    let off := c.loader.mainOffset.toNat
    if ∃ e ∈ checkedAdd off 8, e ≤ content.length then do
      let fin ← word (off + 8)
      let bytes ← slice content off fin
      let w0 ← u32At bytes 0
      let w1 ← u32At bytes 4
      let r := { r with targetBytes := some bytes }
      if isVector w0 w1 then .ok { r with vector := some (w0, w1) }
      else
        .ok (r.note s!"raw special-main bytes {hexBytes bytes} are pre-relocation contents (zero/stub); this does not establish the vector is absent from the PEF representation - CFM relocation materializes pointer values at preparation time")
    else
      .ok (r.note s!"special main target (section {ms} + 0x{hexString off}) shorter than 8 bytes")

/-- What the relocation simulator finds at the special main. -/
def relocatedVector : Outcome Empty Report := do
  let rv ← specialMainVector c
  let r := { r with relocVector := rv }
  match rv with
  | none => .ok r
  | some rv =>
    let r := match rv.decodeStatus with
      | .error e => r.note s!"relocated section {rv.sectionIndex} decode: {e}"
      | .ok _ => r
    let fixup (f : ImportFixup) : String :=
      s!"external import fixup at section {rv.sectionIndex} + 0x{hexString f.offset} -> {String.ofList f.symbol}"
    .ok { r with notes := r.notes ++ rv.importFixups.map fixup ++ rv.notes }

/-- The rules for the special main. -/
def validateMain : Outcome Empty Report :=
  let ms := c.loader.mainSection
  if ms = -1 then .ok (r.note "loader mainSection = -1 (no main symbol)")
  else if ms < 0 ∨ c.sections.length ≤ ms.toInt.toNat then
    .ok (r.error s!"mainSection {ms} out of range ({c.sections.length} sections)")
  else do
    let ms := ms.toInt.toNat
    let s ← get c.sections ms
    let r := { r with mainTarget := some ⟨ms, c.loader.mainOffset, s.kind⟩ }
    if s.kind = 0 then do
      let addr ← word (s.defaultAddress.toNat + c.loader.mainOffset.toNat)
      .ok (r.require (addr % 4 = 0)
        s!"special main address 0x{hexString addr} (code + 0x{hexString c.loader.mainOffset.toNat}) is not 4-byte aligned")
    else do
      let r ← storedVector c r ms s
      relocatedVector c r

/-- The first bytes of the relocation instructions. -/
def relocStream : Outcome Empty Report :=
  if 0 < c.loader.relocSectionCount then
    let off := c.loader.relocInstrOffset.toNat
    let avail := c.loaderContainer.length - off
    let n := min avail 16
    if 0 < n then do
      let fin ← word (off + n)
      let bytes ← slice c.loaderContainer off fin
      .ok { r with relocStream := some bytes }
    else .ok r
  else .ok r

end

/-- `validate`. -/
def validate (c : Container) : Outcome Empty Report := do
  let r := validateSections c 0 c.sections {}
  let r := validateLoader c r
  let r ← validateMain c r
  relocStream c r

/-- `section_bytes`. -/
def sectionBytes (c : Container) (s : PefSection) : Outcome String (List UInt8) := do
  let off := s.containerOffset.toNat
  let len := s.containerLength.toNat
  let fin ← word (off + len)
  ensure (fin ≤ c.data.bytes.length)
    s!"section container 0x{hexString off}+0x{hexString len} exceeds file 0x{hexString c.data.bytes.length}"
  if s.containerLength = s.unpackedLength then slice c.data.bytes off fin
  else c.unpackSection s

/-! ## No panic -/

section
variable {c : Container} {r : Report}

theorem mainContent_safe {ms : ℕ} {s : PefSection} :
    (mainContent c ms s).Safe fun v => v.length ≤ isizeMax := by
  have hdata := c.data.length_le
  unfold mainContent
  split_ifs with hkind
  · exact c.unpackSection_safe s
  · refine Safe.ensure.bind fun _ hfits => ?_
    obtain ⟨e, he, hle⟩ := hfits
    obtain ⟨rfl, -⟩ := checkedAdd_eq_some.1 he
    rw [word_eq_of_le (by omega), ok_bind]
    exact Safe.slice (by omega) hle fun b hb => by omega

theorem storedVector_safe {ms : ℕ} {s : PefSection} :
    (storedVector c r ms s).Safe fun _ => True := by
  refine mainContent_safe.attempt.bind fun content hcontent => ?_
  cases content with
  | error e => trivial
  | ok content =>
    have hlen := hcontent content rfl
    dsimp only
    split_ifs with hfits
    · obtain ⟨e, he, hle⟩ := hfits
      obtain ⟨rfl, -⟩ := checkedAdd_eq_some.1 he
      rw [word_eq_of_le (by omega), ok_bind]
      refine (Safe.slice (by omega) hle fun b hb => hb).bind fun bytes hbytes => ?_
      refine (u32At_safe (by omega)).bind fun w0 _ => ?_
      refine (u32At_safe (by omega)).bind fun w1 _ => ?_
      split_ifs <;> trivial
    · trivial

theorem relocatedVector_safe (hc : c.Sound) : (relocatedVector c r).Safe fun _ => True := by
  refine (specialMainVector_safe hc).bind fun rv _ => ?_
  cases rv <;> trivial

theorem validateMain_safe (hc : c.Sound) : (validateMain c r).Safe fun _ => True := by
  have hmax := isizeMax_eq
  unfold validateMain
  dsimp only
  split_ifs with hnone hout
  · trivial
  · trivial
  · obtain ⟨s, hs⟩ : ∃ s, c.sections[c.loader.mainSection.toInt.toNat]? = some s :=
      ⟨_, List.getElem?_eq_getElem (not_le.1 (not_or.1 hout).2)⟩
    rw [get_eq_ok.2 hs, ok_bind]
    split_ifs with hkind
    · have hdefault := s.defaultAddress.toNat_lt
      have hoffset := c.loader.mainOffset.toNat_lt
      rw [word_eq_of_le (by omega)]
      trivial
    · exact storedVector_safe.bind fun _ _ => relocatedVector_safe hc

theorem relocStream_safe (hc : c.Sound) : (relocStream c r).Safe fun _ => True := by
  have hlc := hc.loaderContainer_length
  unfold relocStream
  dsimp only
  split_ifs with hcount havail
  · rw [word_eq_of_le (by omega), ok_bind]
    exact (Safe.slice (by omega) (by omega) fun _ _ => trivial).bind fun _ _ => trivial
  · trivial
  · trivial

/-- **Validation does not panic.** -/
theorem validate_safe (hc : c.Sound) : (validate c).Safe fun _ => True :=
  (validateMain_safe hc).bind fun _ _ => relocStream_safe hc

theorem sectionBytes_safe (s : PefSection) : (sectionBytes c s).Safe fun _ => True := by
  have hmax := isizeMax_eq
  have hoff := s.containerOffset.toNat_lt
  have hlen := s.containerLength.toNat_lt
  unfold sectionBytes
  dsimp only
  rw [word_eq_of_le (by omega), ok_bind]
  refine Safe.ensure.bind fun _ hfits => ?_
  split_ifs
  · exact Safe.slice (by omega) hfits fun _ _ => trivial
  · exact (c.unpackSection_safe s).mono fun _ _ => trivial

end

/-- **The analyser cannot panic**: whatever the file is, it is parsed or refused, and each
    analysis of what was parsed returns. -/
theorem analyser_no_panic (data : Slice) :
    Container.parse data ≠ .panic ∧
      ∀ c, Container.parse data = .ok c →
        validate c ≠ .panic ∧
        (∀ i, relocateSection c i ≠ .panic) ∧
        specialMainVector c ≠ .panic ∧
        ∀ s ∈ c.sections, sectionBytes c s ≠ .panic := by
  have hparse := Container.parse_safe data
  refine ⟨hparse.ne_panic, ?_⟩
  intro c hdata
  have hc := hparse.of_eq_ok hdata
  refine ⟨(validate_safe hc).ne_panic, ?_, (specialMainVector_safe hc).ne_panic, ?_⟩
  · intro i
    exact (relocateSection_safe hc).ne_panic
  · intro s _
    exact (sectionBytes_safe s).ne_panic

end Usbmidi9
