/-
  USBMIDI9 — the loader's tables, as `parse_reloc_headers` and `parse_import_names` of
  `pefcheck/src/reloc.rs` read them.

  `RelocHeadersAt` and `ImportNamesAt` say what stands where in the loader container.
  `parseRelocHeaders_eq_ok` and `parseImportNames_eq_ok`: the tables are read exactly if
  they stand there.
-/
import Usbmidi9.Pef.Format
import Usbmidi9.Pef.Relocate

namespace Usbmidi9

open Outcome

/-! ## What stands where -/

/-- The imported symbols are behind the loader header and the libraries. -/
def LoaderInfo.symbolTable (l : LoaderInfo) : ℕ := 56 + l.importedLibraryCount.toNat * 24

/-- The relocation headers are behind the symbols. -/
def LoaderInfo.relocTable (l : LoaderInfo) : ℕ :=
  l.symbolTable + l.totalImportedSymbolCount.toNat * 4

/-- A header that stands at `pos`, with its chunks among the instructions at `rinstr`. -/
def RelocHeader.At (lc : List UInt8) (rinstr pos : ℕ) (h : RelocHeader) : Prop :=
  ∃ (reserved : UInt16) (count first : UInt32),
    Placed lc pos (u16ToBe h.sectionIndex ++ u16ToBe reserved ++ u32ToBe count ++ u32ToBe first) ∧
    h.chunks.length = count.toNat ∧
    rinstr + first.toNat + count.toNat * 2 ≤ lc.length ∧
    ∀ k ch, h.chunks[k]? = some ch → Placed lc (rinstr + first.toNat + k * 2) (u16ToBe ch)

/-- A name that stands at `pos`, up to a zero. -/
def StringAt (lc : List UInt8) (pos : ℕ) (name : List Char) : Prop :=
  ∃ bytes : List UInt8, name = utf8Lossy bytes ∧ 0 ∉ bytes ∧ Placed lc pos (bytes ++ [0])

/-- A symbol that stands at `pos`, with its name among the strings at `sstr`. -/
def ImportNameAt (lc : List UInt8) (sstr pos : ℕ) (name : List Char) : Prop :=
  ∃ v : UInt32, Placed lc pos (u32ToBe v) ∧
    StringAt lc (sstr + (v &&& 0x00ffffff).toNat) name

/-- The relocation headers of a container. -/
structure RelocHeadersAt (c : Container) (headers : List RelocHeader) : Prop where
  length : headers.length = c.loader.relocSectionCount.toNat
  entries : ∀ (i : ℕ) (h : RelocHeader), headers[i]? = some h →
    h.At c.loaderContainer c.loader.relocInstrOffset.toNat (c.loader.relocTable + i * 12)

/-- The names of the imported symbols of a container. -/
structure ImportNamesAt (c : Container) (names : List (List Char)) : Prop where
  length : names.length = c.loader.totalImportedSymbolCount.toNat
  entries : ∀ (i : ℕ) (name : List Char), names[i]? = some name →
    ImportNameAt c.loaderContainer c.loader.loaderStringsOffset.toNat
      (c.loader.symbolTable + i * 4) name

/-! ## What is read -/

section
variable {lc : List UInt8} (hlc : lc.length ≤ isizeMax)
include hlc

theorem loaderNeed_eq_ok {off n : ℕ} {what : String} {u : Unit} :
    loaderNeed lc off n what = ok u ↔ off + n ≤ lc.length := by
  rw [loaderNeed, ensure_eq_ok, checkedAdd_le_iff hlc]

theorem readCstr_eq_ok {pos : ℕ} {name : List Char} :
    readCstr lc pos = ok name ↔ StringAt lc pos name := by
  have hmax := isizeMax_eq
  unfold readCstr
  constructor
  · intro h
    obtain ⟨_, hneed, h⟩ := bind_eq_ok.1 h
    have hneed := (loaderNeed_eq_ok hlc).1 hneed
    rw [slice_eq (by omega) le_rfl, List.take_length, ok_bind] at h
    obtain ⟨p, hp, h⟩ := bind_eq_ok.1 h
    obtain ⟨hno, hprefix, hlt⟩ := findIdx?_zero_eq_some.1 (okOr_eq_ok.1 hp)
    rw [List.length_drop] at hlt
    rw [word_eq_of_le (by omega), ok_bind, slice_eq (by omega) (by omega), ok_bind,
      List.drop_take, Nat.add_sub_cancel_left] at h
    obtain rfl := ok.inj h
    exact ⟨_, rfl, hno, hprefix⟩
  · rintro ⟨bytes, rfl, hno, hplaced⟩
    have hle := hplaced.le (by simp)
    rw [List.length_append, List.length_singleton] at hle
    obtain ⟨rest, htail⟩ := hplaced
    rw [List.append_assoc, List.singleton_append] at htail
    have hfind : (lc.drop pos).findIdx? (· = 0) = some bytes.length := by
      rw [← htail]
      exact findIdx?_zero_append hno
    refine bind_eq_ok.2 ⟨(), (loaderNeed_eq_ok hlc).2 (by omega), ?_⟩
    rw [slice_eq (by omega) le_rfl, List.take_length, ok_bind, hfind]
    refine bind_eq_ok.2 ⟨_, okOr_eq_ok.2 rfl, ?_⟩
    rw [word_eq_of_le (by omega), ok_bind, slice_eq (by omega) (by omega), ok_bind,
      List.drop_take, Nat.add_sub_cancel_left, ← htail, List.take_left]

theorem readImportName_eq_ok {sstr : ℕ} (hsstr : sstr < 2 ^ 32) {pos : ℕ} {acc : List (List Char)}
    {s : ℕ × List (List Char)} :
    readImportName lc sstr (pos, acc) = ok s ↔
      ∃ name, ImportNameAt lc sstr pos name ∧ s = (pos + 4, acc ++ [name]) := by
  have hmax := isizeMax_eq
  unfold readImportName
  dsimp only
  constructor
  · intro h
    obtain ⟨_, hneed, h⟩ := bind_eq_ok.1 h
    have hneed := (loaderNeed_eq_ok hlc).1 hneed
    obtain ⟨v, hv, h⟩ := bind_eq_ok.1 h
    obtain ⟨a, ha, h⟩ := bind_eq_ok.1 h
    obtain ⟨-, rfl⟩ := word_eq_ok.1 ha
    obtain ⟨name, hname, h⟩ := bind_eq_ok.1 h
    rw [word_eq_of_le (by omega), ok_bind] at h
    obtain rfl := ok.inj h
    exact ⟨name, ⟨v, u32At_eq_ok.1 hv, (readCstr_eq_ok hlc).1 hname⟩, rfl⟩
  · rintro ⟨name, ⟨v, hv, hname⟩, rfl⟩
    have hle := hv.le (by simp [u32ToBe])
    rw [length_u32ToBe] at hle
    have hmask := (v &&& 0x00ffffff).toNat_lt
    refine bind_eq_ok.2 ⟨(), (loaderNeed_eq_ok hlc).2 hle, bind_eq_ok.2 ⟨v, u32At_eq_ok.2 hv, ?_⟩⟩
    rw [word_eq_of_le (by omega), ok_bind]
    refine bind_eq_ok.2 ⟨name, (readCstr_eq_ok hlc).2 hname, ?_⟩
    rw [word_eq_of_le (by omega), ok_bind]

theorem readRelocHeader_eq_ok {rinstr pos : ℕ} {acc : List RelocHeader}
    {s : ℕ × List RelocHeader} :
    readRelocHeader lc rinstr (pos, acc) = ok s ↔
      ∃ h, h.At lc rinstr pos ∧ s = (pos + 12, acc ++ [h]) := by
  have hmax := isizeMax_eq
  have hword : wordSize = 2 ^ 64 := rfl
  unfold readRelocHeader
  dsimp only
  constructor
  · intro h
    obtain ⟨_, hneed, h⟩ := bind_eq_ok.1 h
    have hneed := (loaderNeed_eq_ok hlc).1 hneed
    obtain ⟨sectionIndex, hindex, h⟩ := bind_eq_ok.1 h
    obtain ⟨reserved, hreserved, h⟩ := bind_eq_ok.1 h
    obtain ⟨count, hcount, h⟩ := bind_eq_ok.1 h
    obtain ⟨first, hfirst, h⟩ := bind_eq_ok.1 h
    rw [word_eq_of_le (by omega), ok_bind] at h
    obtain ⟨base, hbase, h⟩ := bind_eq_ok.1 h
    obtain ⟨rfl, -⟩ := checkedAdd_eq_some.1 (okOr_eq_ok.1 hbase)
    obtain ⟨n, hn, h⟩ := bind_eq_ok.1 h
    obtain ⟨-, rfl⟩ := word_eq_ok.1 hn
    obtain ⟨_, hrange, h⟩ := bind_eq_ok.1 h
    have hrange := (loaderNeed_eq_ok hlc).1 hrange
    obtain ⟨_, -, h⟩ := bind_eq_ok.1 h
    obtain ⟨chunks, hchunks, h⟩ := bind_eq_ok.1 h
    obtain ⟨hlen, hall⟩ := collect_eq_ok.1 hchunks
    obtain rfl := ok.inj h
    refine ⟨⟨sectionIndex, chunks⟩, ⟨reserved, count, first, ?_, hlen, hrange, ?_⟩, rfl⟩
    · simp only [placed_append, length_u32ToBe, length_u16ToBe, List.length_append]
      exact ⟨⟨⟨u16At_eq_ok.1 hindex, u16At_eq_ok.1 hreserved⟩, u32At_eq_ok.1 hcount⟩,
        u32At_eq_ok.1 hfirst⟩
    · intro k ch hk
      obtain ⟨a, ha, hch⟩ := bind_eq_ok.1 (hall k ch hk)
      obtain ⟨-, rfl⟩ := word_eq_ok.1 ha
      rw [Nat.zero_add] at hch
      exact u16At_eq_ok.1 hch
  · rintro ⟨⟨sectionIndex, chunks⟩, ⟨reserved, count, first, hplaced, hlen, hrange, hall⟩, rfl⟩
    have hle := hplaced.le (by simp [u32ToBe])
    simp only [placed_append, length_u32ToBe, length_u16ToBe, List.length_append] at hplaced hle
    obtain ⟨⟨⟨hindex, hreserved⟩, hcount⟩, hfirst⟩ := hplaced
    dsimp only at hlen hall
    have hcountlt := count.toNat_lt
    have hfirstlt := first.toNat_lt
    refine bind_eq_ok.2 ⟨(), (loaderNeed_eq_ok hlc).2 (by omega), ?_⟩
    refine bind_eq_ok.2 ⟨_, u16At_eq_ok.2 hindex, bind_eq_ok.2 ⟨_, u16At_eq_ok.2 hreserved,
      bind_eq_ok.2 ⟨_, u32At_eq_ok.2 hcount, bind_eq_ok.2 ⟨_, u32At_eq_ok.2 hfirst, ?_⟩⟩⟩⟩
    rw [word_eq_of_le (by omega), ok_bind]
    refine bind_eq_ok.2 ⟨_, okOr_eq_ok.2 (checkedAdd_eq_some.2 ⟨rfl, by omega⟩), ?_⟩
    rw [word_eq_of_le (by omega), ok_bind]
    refine bind_eq_ok.2 ⟨(), (loaderNeed_eq_ok hlc).2 hrange, ?_⟩
    rw [withCapacity_eq (by omega), ok_bind]
    refine bind_eq_ok.2 ⟨chunks, collect_eq_ok.2 ⟨hlen, fun k ch hk => ?_⟩, rfl⟩
    obtain ⟨hk', -⟩ := List.getElem?_eq_some_iff.1 hk
    rw [Nat.zero_add, word_eq_of_le (by omega), ok_bind]
    exact u16At_eq_ok.2 (hall k ch hk)

end

section
variable {c : Container} (hc : c.Sound)
include hc

/-- **The relocation headers** are read exactly if they stand there. -/
theorem parseRelocHeaders_eq_ok {headers : List RelocHeader} :
    parseRelocHeaders c = ok headers ↔ RelocHeadersAt c headers := by
  have hmax := isizeMax_eq
  have hword : wordSize = 2 ^ 64 := rfl
  have hlibs := c.loader.importedLibraryCount.toNat_lt
  have hsyms := c.loader.totalImportedSymbolCount.toNat_lt
  have hrsc := c.loader.relocSectionCount.toNat_lt
  have hlc := hc.loaderContainer_length
  unfold parseRelocHeaders
  dsimp only
  rw [word_eq_of_le (by omega), ok_bind,
    okOr_eq_ok.2 (checkedAdd_eq_some.2 ⟨rfl, by omega⟩), ok_bind,
    word_eq_of_le (by omega), ok_bind,
    okOr_eq_ok.2 (checkedAdd_eq_some.2 ⟨rfl, by omega⟩), ok_bind,
    withCapacity_eq (by omega), ok_bind, bind_eq_ok]
  constructor
  · rintro ⟨s, hs, h⟩
    obtain ⟨l, hlen, hall, rfl⟩ :=
      (iterate_table_eq_ok fun _ _ _ => readRelocHeader_eq_ok hlc).1 hs
    obtain rfl := ok.inj h
    exact ⟨hlen, hall⟩
  · rintro ⟨hlen, hall⟩
    refine ⟨_, (iterate_table_eq_ok fun _ _ _ => readRelocHeader_eq_ok hlc).2
      ⟨headers, hlen, hall, rfl⟩, rfl⟩

/-- **The names of the imported symbols** are read exactly if they stand there. -/
theorem parseImportNames_eq_ok {names : List (List Char)} :
    parseImportNames c = ok names ↔ ImportNamesAt c names := by
  have hmax := isizeMax_eq
  have hword : wordSize = 2 ^ 64 := rfl
  have hlibs := c.loader.importedLibraryCount.toNat_lt
  have hsyms := c.loader.totalImportedSymbolCount.toNat_lt
  have hlc := hc.loaderContainer_length
  have hsstr := c.loader.loaderStringsOffset.toNat_lt
  unfold parseImportNames
  dsimp only
  rw [word_eq_of_le (by omega), ok_bind,
    okOr_eq_ok.2 (checkedAdd_eq_some.2 ⟨rfl, by omega⟩), ok_bind,
    withCapacity_eq (by omega), ok_bind, bind_eq_ok]
  constructor
  · rintro ⟨s, hs, h⟩
    obtain ⟨l, hlen, hall, rfl⟩ :=
      (iterate_table_eq_ok fun _ _ _ => readImportName_eq_ok hlc hsstr).1 hs
    obtain rfl := ok.inj h
    exact ⟨hlen, hall⟩
  · rintro ⟨hlen, hall⟩
    refine ⟨_, (iterate_table_eq_ok fun _ _ _ => readImportName_eq_ok hlc hsstr).2
      ⟨names, hlen, hall, rfl⟩, rfl⟩

end

end Usbmidi9
