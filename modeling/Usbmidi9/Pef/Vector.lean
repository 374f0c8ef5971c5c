/-
  USBMIDI9 — the transition vector at the special main (`special_main_vector` of
  `pefcheck/src/reloc.rs`).

  `Relocation` is what the format of a file makes of a section: its bytes, unpacked if they
  are packed, and the program that its first relocation header has for it.
  `relocateSection_complete_iff`: a section is relocated completely exactly to the content
  of a relocation.  `valid_resolved_iff` is the condition on the two words there under which
  a vector that is reported valid is resolved.
-/
import Usbmidi9.Pef.Additive
import Usbmidi9.Pef.Placement
import Usbmidi9.Pef.Tables

namespace Usbmidi9

open Outcome

/-! ## Relocated sections -/

/-- The bytes of a section before it is relocated: those that are stored, or what they
    unpack to. -/
def PefSection.Holds (c : Container) (s : PefSection) (v : List UInt8) : Prop :=
  s.InFile c ∧
    if s.kind = 2 then Unpacks (s.stored c) s.unpackedLength.toNat v else v = s.stored c

/-- A section with bytes and a program, as they stand in the file. -/
structure Relocation (c : Container) (i : ℕ) where
  pefSection : PefSection
  headers : List RelocHeader
  header : RelocHeader
  names : List (List Char)
  bytes : List UInt8
  instrs : List RelocInstr
  pefSection_eq : c.sections[i]? = some pefSection
  headers_at : RelocHeadersAt c headers
  header_eq : headers.find? (·.sectionIndex.toNat = i) = some header
  names_at : ImportNamesAt c names
  holds : pefSection.Holds c bytes
  replayed : Replayed header.chunks instrs

/-- The bytes with the writes of the program. -/
def Relocation.content {c : Container} {i : ℕ} (r : Relocation c i) : List UInt8 :=
  (RelocInstr.allWrites c.bases (.start c.bases) r.instrs).foldl addAt r.bytes

section
variable {c : Container} {i : ℕ}

theorem sectionContainer_eq_ok {s : PefSection} {what : String} {b : List UInt8} :
    sectionContainer c s what = .ok b ↔ s.InFile c ∧ b = s.stored c := by
  constructor
  · intro h
    obtain ⟨_, hneed, -⟩ := bind_eq_ok.1 h
    have hin : s.InFile c := (loaderNeed_eq_ok c.data.length_le).1 hneed
    rw [sectionContainer_eq hin] at h
    exact ⟨hin, (ok.inj h).symm⟩
  · rintro ⟨hin, rfl⟩
    exact sectionContainer_eq hin

/-- **A section is decoded** exactly to the bytes that it holds. -/
theorem decodeSection_holds {s : PefSection} {v : List UInt8} :
    decodeSection c s = .ok (v, .ok ()) ↔ s.Holds c v := by
  have hin : decodeSection c s = .ok (v, .ok ()) → s.InFile c := by
    unfold decodeSection
    split_ifs with hkind
    · intro h
      obtain ⟨b, hb, -⟩ := bind_eq_ok.1 h
      exact (sectionContainer_eq_ok.1 hb).1
    · intro h
      obtain ⟨b, hb, -⟩ := bind_eq_ok.1 h
      exact (sectionContainer_eq_ok.1 hb).1
  have hiff : s.InFile c → (decodeSection c s = .ok (v, .ok ()) ↔
      if s.kind = 2 then Unpacks (s.stored c) s.unpackedLength.toNat v else v = s.stored c) := by
    intro hin
    rw [(decodeSection_eq_ok hin : _ ↔ mainContent c 0 s = .ok v), mainContent_eq hin]
    split_ifs with hkind
    · exact unpackPacked_stored hin
    · rw [ok.injEq, eq_comm]
  constructor
  · intro h
    exact ⟨hin h, (hiff (hin h)).1 h⟩
  · rintro ⟨hin, hv⟩
    exact (hiff hin).2 hv

/-- The chunks of a header are counted in 32 bits. -/
theorem RelocHeadersAt.length_chunks {headers : List RelocHeader} (h : RelocHeadersAt c headers)
    {header : RelocHeader} (hmem : header ∈ headers) : header.chunks.length < 2 ^ 32 := by
  obtain ⟨k, hk⟩ := List.mem_iff_getElem?.1 hmem
  obtain ⟨_, count, _, -, hlen, -⟩ := h.entries k header hk
  rw [hlen]
  exact count.toNat_lt

/-- **Relocation** of a section is complete exactly if its bytes and its program stand in the
    file, and the content is what they make. -/
theorem relocateSection_complete_iff (hc : c.Sound) {content : List UInt8} :
    (∃ res, relocateSection c i = .ok res ∧ res.complete = true ∧ res.content = content) ↔
      ∃ r : Relocation c i, r.content = content := by
  constructor
  · rintro ⟨res, h, hcomplete, rfl⟩
    obtain ⟨_, -, h⟩ := bind_eq_ok.1 h
    obtain ⟨headers, hheaders, h⟩ := bind_eq_ok.1 h
    have hheaders := (parseRelocHeaders_eq_ok hc).1 hheaders
    obtain ⟨header, hheader, h⟩ := bind_eq_ok.1 h
    have hheader := okOr_eq_ok.1 hheader
    have hlen := hheaders.length_chunks (List.mem_of_find?_eq_some hheader)
    obtain ⟨s, hs, h⟩ := bind_eq_ok.1 h
    obtain ⟨⟨v, status⟩, hdecode, h⟩ := bind_eq_ok.1 h
    obtain ⟨bases, hbases, h⟩ := bind_eq_ok.1 h
    obtain rfl := ok.inj ((syntheticBases_eq hc).symm.trans (lift_eq_ok.1 hbases))
    obtain ⟨names, hnames, h⟩ := bind_eq_ok.1 h
    obtain ⟨⟨complete, st⟩, hrun, h⟩ := bind_eq_ok.1 h
    obtain rfl := ok.inj h
    obtain ⟨hstatus, rfl⟩ := Bool.and_eq_true_iff.1 hcomplete
    cases status with
    | error e => cases hstatus
    | ok u =>
      let r : Replay := ⟨header.chunks, c.bases, names, v, [], []⟩
      have hcontent : ∃ is, Replayed r.chunks is ∧ st.content =
          (RelocInstr.allWrites r.bases (.start r.bases) is).foldl addAt r.content :=
        (run_complete_iff (r := r) (hlen.trans (by decide))).1 ⟨st, lift_eq_ok.1 hrun, rfl⟩
      obtain ⟨is, hreplayed, hcontent⟩ := hcontent
      exact ⟨⟨s, headers, header, names, v, is, get_eq_ok.1 hs, hheaders, hheader,
        (parseImportNames_eq_ok hc).1 hnames, decodeSection_holds.1 hdecode, hreplayed⟩,
        hcontent.symm⟩
  · rintro ⟨r, rfl⟩
    have hlen := r.headers_at.length_chunks (List.mem_of_find?_eq_some r.header_eq)
    obtain ⟨hi, -⟩ := List.getElem?_eq_some_iff.1 r.pefSection_eq
    let replay : Replay := ⟨r.header.chunks, c.bases, r.names, r.bytes, [], []⟩
    have hrun : ∃ st, replay.run = .ok (true, st) ∧ st.content = r.content :=
      (run_complete_iff (r := replay) (hlen.trans (by decide))).2 ⟨r.instrs, r.replayed, rfl⟩
    obtain ⟨st, hst, hcontent⟩ := hrun
    refine ⟨_, bind_eq_ok.2 ⟨(), ensure_eq_ok.2 hi,
      bind_eq_ok.2 ⟨_, (parseRelocHeaders_eq_ok hc).2 r.headers_at,
        bind_eq_ok.2 ⟨_, okOr_eq_ok.2 r.header_eq, bind_eq_ok.2 ⟨_, get_eq_ok.2 r.pefSection_eq,
          bind_eq_ok.2 ⟨_, decodeSection_holds.2 r.holds,
            bind_eq_ok.2 ⟨_, lift_eq_ok.2 (syntheticBases_eq hc),
              bind_eq_ok.2 ⟨_, (parseImportNames_eq_ok hc).2 r.names_at,
                bind_eq_ok.2 ⟨_, lift_eq_ok.2 hst, rfl⟩⟩⟩⟩⟩⟩⟩⟩, rfl, hcontent⟩

end

/-! ## Transition vectors -/

/-- The two words that the format puts at the special main. -/
def MainWords (c : Container) (w0 w1 : UInt32) : Prop :=
  ¬c.loader.mainSection < 0 ∧ ∃ r : Relocation c c.loader.mainSection.toInt.toNat,
    c.loader.mainOffset.toNat + 8 ≤ r.content.length ∧
      w0 = wordAt r.content c.loader.mainOffset.toNat ∧
      w1 = wordAt r.content (c.loader.mainOffset.toNat + 4)

/-- A word other than 0 that is a multiple of 4. -/
def Aligned (w : UInt32) : Prop := w ≠ 0 ∧ 4 ∣ w.toNat

/-- A vector that is reported valid is one: decode and replay were complete, both words are
    there and aligned, and both are resolved. -/
structure FullyResolved (c : Container) (a : VectorAnalysis) (entry toc : ResolvedPointer) :
    Prop where
  relocated : ∃ r, relocateSection c a.sectionIndex = .ok r ∧ r.decodeStatus = .ok () ∧
    r.relocComplete = true
  vector : isVector entry.word toc.word
  entry : c.Located entry
  toc : c.Located toc

section
variable {c : Container}

theorem relocateSection_complete {i : ℕ} {r : RelocResult} (h : relocateSection c i = .ok r) :
    r.complete = true ↔ r.decodeStatus = .ok () ∧ r.relocComplete = true := by
  obtain ⟨_, _, -, -, _, _, -, -, hcomplete⟩ := relocateSection_cases h
  rw [hcomplete, Bool.and_eq_true]
  cases r.decodeStatus with
  | ok u => simp [Except.isOk, Except.toBool]
  | error e => simp [Except.isOk, Except.toBool]

theorem wordAt_drop_take (l : List UInt8) (a : ℕ) {n : ℕ} (hn : n + 4 ≤ 8) :
    wordAt ((l.take (a + 8)).drop a) n = wordAt l (a + n) := by
  have hget : ∀ k, k < 8 → ((l.take (a + 8)).drop a).getD k 0 = l.getD (a + k) 0 := by
    intro k hk
    rw [List.getD_eq_getElem?_getD, List.getElem?_drop, List.getElem?_take_of_lt (by omega),
      List.getD_eq_getElem?_getD]
  unfold wordAt
  rw [hget _ (by omega), hget _ (by omega), hget _ (by omega), hget _ (by omega)]
  rfl

theorem mainBytes_eq {content : List UInt8} {a : ℕ} (ha : a + 8 ≤ isizeMax) :
    mainBytes content a =
      .ok (if a + 8 ≤ content.length then some ((content.take (a + 8)).drop a) else none) := by
  unfold mainBytes
  rw [word_eq_of_le ha, ok_bind]
  split_ifs with hfits
  · rw [slice_eq (Nat.le_add_right a 8) hfits, ok_bind]
  · rfl

theorem vectorStatus_eq (hc : c.Sound) (r : RelocResult) {b : List UInt8} (hb : b.length = 8) :
    vectorStatus c r b = .ok
      (if r.complete = false then
        .provisional (wordAt b 0) (wordAt b 4) (provisionalReason r)
      else if isVector (wordAt b 0) (wordAt b 4) then
        .valid (resolvePointer c.bases c.sections (wordAt b 0))
          (resolvePointer c.bases c.sections (wordAt b 4))
      else .notAVector (wordAt b 0) (wordAt b 4)) := by
  unfold vectorStatus
  rw [u32At_eq (by omega), ok_bind, u32At_eq (by omega), ok_bind, syntheticBases_eq hc]
  split_ifs
  · rfl
  · rfl
  · rfl

/-- The status of the special main is valid exactly for a vector. -/
theorem analyzeVector_valid (hc : c.Sound) {ms : ℕ} {r : RelocResult} {a : VectorAnalysis}
    (ha : analyzeVector c ms r = .ok a) {entry toc : ResolvedPointer} :
    a.status = .valid entry toc ↔
      r.complete = true ∧ c.loader.mainOffset.toNat + 8 ≤ r.content.length ∧
        isVector (wordAt r.content c.loader.mainOffset.toNat)
          (wordAt r.content (c.loader.mainOffset.toNat + 4)) ∧
        entry = resolvePointer c.bases c.sections (wordAt r.content c.loader.mainOffset.toNat) ∧
        toc = resolvePointer c.bases c.sections
          (wordAt r.content (c.loader.mainOffset.toNat + 4)) := by
  have hmax := isizeMax_eq
  have hoffset := c.loader.mainOffset.toNat_lt
  unfold analyzeVector at ha
  rw [mainBytes_eq (by omega), ok_bind] at ha
  by_cases hfits : c.loader.mainOffset.toNat + 8 ≤ r.content.length
  · rw [if_pos hfits] at ha
    have hlen : ((r.content.take (c.loader.mainOffset.toNat + 8)).drop
        c.loader.mainOffset.toNat).length = 8 := by
      rw [List.length_drop, List.length_take]
      omega
    dsimp only at ha
    rw [vectorStatus_eq hc r hlen, ok_bind, wordAt_drop_take _ _ (by decide),
      wordAt_drop_take _ _ (by decide)] at ha
    simp only [Nat.add_zero] at ha
    obtain rfl := ok.inj ha
    dsimp only
    split_ifs with hincomplete hvector
    · simp [hincomplete]
    · simp [hincomplete, hvector, hfits, eq_comm]
    · simp [hvector]
  · rw [if_neg hfits] at ha
    obtain rfl := ok.inj ha
    simp [hfits]

theorem isVector_iff {w0 w1 : UInt32} : isVector w0 w1 ↔ Aligned w0 ∧ Aligned w1 := by
  have hmod : ∀ w : UInt32, w % 4 = 0 ↔ 4 ∣ w.toNat := by
    intro w
    rw [← UInt32.toNat_inj, UInt32.toNat_mod, Nat.dvd_iff_mod_eq_zero]
    rfl
  unfold isVector Aligned
  rw [hmod, hmod, and_assoc]

/-- **When a vector is reported valid**: for two aligned words at the special main. -/
theorem specialMainVector_valid (hc : c.Sound) {entry toc : ResolvedPointer} :
    (∃ a, specialMainVector c = .ok (some a) ∧ a.status = .valid entry toc) ↔
      ∃ w0 w1, MainWords c w0 w1 ∧ Aligned w0 ∧ Aligned w1 ∧
        entry = resolvePointer c.bases c.sections w0 ∧
        toc = resolvePointer c.bases c.sections w1 := by
  constructor
  · rintro ⟨a, h, hvalid⟩
    obtain ⟨hmain, hindex, res, hres, ha⟩ := analyzeVector_of_specialMainVector h
    rw [hindex] at hres
    obtain ⟨hcomplete, hfits, hvector, hentry, htoc⟩ := (analyzeVector_valid hc ha).1 hvalid
    obtain ⟨hw0, hw1⟩ := isVector_iff.1 hvector
    obtain ⟨r, hr⟩ := (relocateSection_complete_iff hc).1 ⟨res, hres, hcomplete, rfl⟩
    rw [← hr] at hfits hw0 hw1 hentry htoc
    exact ⟨_, _, ⟨hmain, r, hfits, rfl, rfl⟩, hw0, hw1, hentry, htoc⟩
  · rintro ⟨_, _, ⟨hmain, r, hfits, rfl, rfl⟩, hw0, hw1, rfl, rfl⟩
    obtain ⟨res, hres, hcomplete, hcontent⟩ := (relocateSection_complete_iff hc).2 ⟨r, rfl⟩
    have hin : ¬c.sections.length ≤ c.loader.mainSection.toInt.toNat :=
      not_le.2 (List.getElem?_eq_some_iff.1 r.pefSection_eq).1
    have hsafe : (analyzeVector c c.loader.mainSection.toInt.toNat res).Safe fun _ => True :=
      analyzeVector_safe hc
    obtain ⟨a, ha, -⟩ := hsafe.exists_eq_ok
    rw [← hcontent] at hfits hw0 hw1 ⊢
    refine ⟨a, ?_, (analyzeVector_valid hc ha).2
      ⟨hcomplete, hfits, isVector_iff.2 ⟨hw0, hw1⟩, rfl, rfl⟩⟩
    unfold specialMainVector
    dsimp only
    rw [if_neg hmain, if_neg hin, attempt_eq_ok.2 hres, ok_bind]
    dsimp only
    rw [ha, ok_bind]

theorem resolvePointer_word (c : Container) (w : UInt32) :
    (resolvePointer c.bases c.sections w).word = w := by
  rcases resolvePointer_cases c w with ⟨i, s, b, -, -, -, -, -, heq⟩ | ⟨-, heq⟩
  · rw [heq]
  · rw [heq]

end

/-- **A valid vector is fully resolved** for a container that is parsed exactly if each of
    the two words that the format puts at the special main, where they are aligned, is in
    the range of a section. -/
theorem valid_resolved_iff (data : Slice) (c : Container) (h : Container.parse data = .ok c) :
    syntheticBases c = .ok c.bases ∧
      ((∀ a entry toc, specialMainVector c = .ok (some a) → a.status = .valid entry toc →
          FullyResolved c a entry toc) ↔
        ∀ w0 w1, MainWords c w0 w1 → Aligned w0 → Aligned w1 →
          (∃ i, c.Covers i w0) ∧ ∃ i, c.Covers i w1) := by
  have hc := (Container.parse_safe data).of_eq_ok h
  refine ⟨syntheticBases_eq hc, ?_⟩
  constructor
  · intro hall w0 w1 hwords hw0 hw1
    obtain ⟨a, ha, hvalid⟩ := (specialMainVector_valid hc).2 ⟨w0, w1, hwords, hw0, hw1, rfl, rfl⟩
    have hresolved := hall a _ _ ha hvalid
    exact ⟨(located_iff hc).1 hresolved.entry, (located_iff hc).1 hresolved.toc⟩
  · intro hcovers a entry toc ha hvalid
    obtain ⟨w0, w1, hwords, hw0, hw1, rfl, rfl⟩ :=
      (specialMainVector_valid hc).1 ⟨a, ha, hvalid⟩
    obtain ⟨r, hr, hcomplete⟩ := relocateSection_of_valid ha hvalid
    obtain ⟨hentry, htoc⟩ := hcovers w0 w1 hwords hw0 hw1
    refine ⟨⟨r, hr, (relocateSection_complete hr).1 hcomplete⟩, ?_, ?_, ?_⟩
    · rw [resolvePointer_word, resolvePointer_word]
      exact isVector_iff.2 ⟨hw0, hw1⟩
    · exact (located_iff hc).2 hentry
    · exact (located_iff hc).2 htoc

/-! ## A vector that points nowhere -/

/-- Eight bytes of data. -/
def vectorSections : List PefSection := [.unpackedData 8 8 164 8, .loader 96 68]

/-- The main symbol is at the data, which has an empty relocation program. -/
def vectorLoader : LoaderInfo :=
  { LoaderInfo.empty with mainSection := 0, relocSectionCount := 1, relocInstrOffset := 68 }

def vectorFile : List UInt8 :=
  pefFile vectorSections vectorLoader (List.replicate 12 0 ++ [0, 0, 0, 4, 0, 0, 0, 8])

theorem length_vectorFile : vectorFile.length ≤ isizeMax := by decide +kernel

def vectorContainer : Container :=
  pefContainer ⟨vectorFile, length_vectorFile⟩ vectorSections vectorLoader
    (vectorLoader.encode ++ List.replicate 12 0)

theorem parse_vectorFile :
    Container.parse ⟨vectorFile, length_vectorFile⟩ = .ok vectorContainer := by
  decide +kernel

deriving instance DecidableEq for ResolvedPointer, VectorStatus, VectorAnalysis

/-- The words 4 and 8 are in no section. -/
theorem vectorContainer_unresolved :
    ¬ ∀ a entry toc, specialMainVector vectorContainer = .ok (some a) →
      a.status = .valid entry toc → FullyResolved vectorContainer a entry toc := by
  intro h
  have hvector : specialMainVector vectorContainer = .ok (some
      { sectionIndex := 0, mainOffset := 0, complete := true, bytes := some [0, 0, 0, 4, 0, 0, 0, 8],
        status := .valid ⟨4, wordSize - 1, 4⟩ ⟨8, wordSize - 1, 8⟩, decodeStatus := .ok (),
        importFixups := [], notes := [] }) := by
    decide +kernel
  obtain ⟨s, b, hs, -⟩ := (h _ _ _ hvector rfl).entry
  rw [sentinel_out ((Container.parse_safe _).of_eq_ok parse_vectorFile)] at hs
  cases hs

/-- A vector that is reported valid though neither word is in a section. -/
theorem not_valid_resolved :
    ¬ ∀ data c, Container.parse data = .ok c →
      ∀ a entry toc, specialMainVector c = .ok (some a) → a.status = .valid entry toc →
        FullyResolved c a entry toc := by
  intro h
  exact vectorContainer_unresolved (h _ _ parse_vectorFile)

/-! ## A vector that points into its section -/

/-- Sixteen bytes of data, of which eight are packed. -/
def packedSections : List PefSection :=
  [{ PefSection.unpackedData 16 8 166 9 with kind := 2 }, .loader 96 70]

/-- The header for the data, with one chunk: section 0's base for two words. -/
def packedTable : List UInt8 := [0, 0, 0, 0, 0, 0, 0, 1, 0, 0, 0, 0, 0x40, 1]

def packedFile : List UInt8 :=
  pefFile packedSections vectorLoader (packedTable ++ [0x28, 0, 0, 0, 4, 0, 0, 0, 8])

theorem length_packedFile : packedFile.length ≤ isizeMax := by decide +kernel

def packedContainer : Container :=
  pefContainer ⟨packedFile, length_packedFile⟩ packedSections vectorLoader
    (vectorLoader.encode ++ packedTable)

theorem parse_packedFile :
    Container.parse ⟨packedFile, length_packedFile⟩ = .ok packedContainer := by
  decide +kernel

/-- The words are 4 and 8 behind the base. -/
theorem mainWords_packed {w0 w1 : UInt32} (h : MainWords packedContainer w0 w1) :
    w0 = 0x10000004 ∧ w1 = 0x10000008 := by
  have hc := (Container.parse_safe _).of_eq_ok parse_packedFile
  have hcontent : (relocateSection packedContainer 0 >>= fun res => .ok res.content) =
      .ok [0x10, 0, 0, 4, 0x10, 0, 0, 8] := by
    decide +kernel
  obtain ⟨res, hres, hcontent⟩ := bind_eq_ok.1 hcontent
  obtain ⟨-, r, -, rfl, rfl⟩ := h
  obtain ⟨res', hres', -, hsame⟩ := (relocateSection_complete_iff hc).2 ⟨r, rfl⟩
  obtain rfl := ok.inj (hres.symm.trans hres')
  rw [← hsame, ok.inj hcontent]
  decide

/-- That file has a resolved vector; the other one has words in no section. -/
theorem valid_resolved_iff_vector :
    ((∃ a, specialMainVector packedContainer = .ok (some a) ∧
        a.status = .valid ⟨0x10000004, 0, 4⟩ ⟨0x10000008, 0, 8⟩) ∧
      ∀ a entry toc, specialMainVector packedContainer = .ok (some a) →
        a.status = .valid entry toc → FullyResolved packedContainer a entry toc) ∧
    ¬ ∀ w0 w1, MainWords vectorContainer w0 w1 → Aligned w0 → Aligned w1 →
      (∃ i, vectorContainer.Covers i w0) ∧ ∃ i, vectorContainer.Covers i w1 := by
  refine ⟨⟨?_, ?_⟩, ?_⟩
  · have hvector : specialMainVector packedContainer = .ok (some
        { sectionIndex := 0, mainOffset := 0, complete := true,
          bytes := some [0x10, 0, 0, 4, 0x10, 0, 0, 8],
          status := .valid ⟨0x10000004, 0, 4⟩ ⟨0x10000008, 0, 8⟩, decodeStatus := .ok (),
          importFixups := [], notes := [] }) := by
      decide +kernel
    exact ⟨_, hvector, rfl⟩
  · refine (valid_resolved_iff _ packedContainer parse_packedFile).2.2 ?_
    intro w0 w1 hwords _ _
    obtain ⟨rfl, rfl⟩ := mainWords_packed hwords
    have hcovers : ∀ w : UInt32, 0x10000000 ≤ w → w - 0x10000000 < 16 →
        packedContainer.Covers 0 w := fun w hle hlt => ⟨_, 0x10000000, rfl, rfl, hle, hlt⟩
    exact ⟨⟨0, hcovers _ (by decide) (by decide)⟩, ⟨0, hcovers _ (by decide) (by decide)⟩⟩
  · intro hcovers
    exact vectorContainer_unresolved
      ((valid_resolved_iff _ vectorContainer parse_vectorFile).2.2 hcovers)

end Usbmidi9
