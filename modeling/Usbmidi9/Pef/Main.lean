/-
  USBMIDI9 — the checker as a program (`pefcheck/src/main.rs`).

  The files are read one after another, hashed and parsed; each is validated, or its code
  sections are scanned for traps.  The exit code sums the files up: 1 beats 2, and 2 beats 0.

  `pefcheckMain_exit` says what the codes mean in terms of the containers alone:
  `Container.WellFormed` is what validation asks for, and `trapCount` counts trap words.
-/
import Usbmidi9.Pef.Contents
import Usbmidi9.Pef.Sha256
import Usbmidi9.Pef.Trapcheck
import Usbmidi9.Pef.Validate

namespace Usbmidi9

open Outcome

/-! ## The command line -/

/-- The digits of a `usize`. -/
def parseDigits : List Char → ℕ → Option ℕ
  | [], n => some n
  | ch :: digits, n => do
    if ch.isDigit then
      let n ← checkedMul n 10
      let n ← checkedAdd n (ch.toNat - '0'.toNat)
      parseDigits digits n
    else none

/-- `n.parse::<usize>()`. -/
def parseUsize (s : String) : Option ℕ :=
  match s.toList with
  | [] => none
  | ['+'] => none
  | '+' :: digits => parseDigits digits 0
  | digits => parseDigits digits 0

/-- What the loop over the arguments collects. -/
structure Options where
  trapcheckMode : Bool := false
  expect : Option ℕ := none
  files : List String := []
deriving DecidableEq, Repr

/-- What ends the program at once. -/
inductive UsageError where
  | expectMissing
  | expectInvalid (n : String)
  | usage
deriving DecidableEq, Repr

/-- `expect = match n.parse::<usize>()`. -/
def Options.setExpect (o : Options) (n : String) : Except UsageError Options :=
  match parseUsize n with
  | some v => .ok { o with expect := some v }
  | none => .error (.expectInvalid n)

/-- The loop over the arguments. -/
def parseArgs : List String → Options → Except UsageError Options
  | [], o => .ok o
  | "--expect" :: [], _ => .error .expectMissing
  | "--expect" :: n :: args, o => do
    let o ← o.setExpect n
    parseArgs args o
  | a :: args, o =>
    if a = "--trapcheck" then parseArgs args { o with trapcheckMode := true }
    else if a.startsWith "--expect=" then do
      let o ← o.setExpect (String.ofList (a.toList.drop 9))
      parseArgs args o
    else parseArgs args { o with files := o.files ++ [a] }

/-- The arguments, of which one at least is a file. -/
def options (args : List String) : Except UsageError Options := do
  let o ← parseArgs args {}
  if o.files = [] then .error .usage else .ok o

/-! ## One file -/

/-- `VERDICT` of a file that was read. -/
inductive Verdict where
  | parseError (msg : String)
  | pass
  | invalid
deriving DecidableEq, Repr

/-- What `print_report` looks up. -/
def printReport (c : Container) (r : Report) : Outcome Empty (Option String) :=
  match r.mainTarget with
  | none => .ok none
  | some t => do
    let s ← get c.sections t.sectionIndex
    .ok (some s.kindName)

/-- The body of the loop over the files: the hash and the verdict. -/
def checkFile (data : Slice) : Outcome Empty (String × Verdict) := do
  let hash ← sha256 data
  match ← (Container.parse data).attempt with
  | .error e => .ok (hex hash, .parseError e)
  | .ok c => do
    let r ← validate c
    let _ ← printReport c r
    .ok (hex hash, if r.valid then .pass else .invalid)

/-- What a scan finds in a file. -/
structure Traps where
  total : ℕ
  unknownTags : ℕ
  tags : List String
deriving DecidableEq, Repr

/-- The body of the loop over the hits. -/
def Traps.count (t : Traps) (h : TrapHit) : Traps :=
  match h.tag with
  | none => { t with total := t.total + 1, unknownTags := t.unknownTags + 1 }
  | some tag => { t with total := t.total + 1, tags := t.tags ++ [tag.2] }

/-- The body of the loop over the sections. -/
def trapSection (c : Container) (t : Traps) (s : PefSection) : Outcome Empty Traps :=
  if s.kind ≠ 0 ∧ s.kind ≠ 6 then .ok t
  else do
    match ← (sectionBytes c s).attempt with
    | .error _ => .ok t
    | .ok bytes => do
      let hits ← scanSection bytes s.containerOffset.toNat
      .ok (hits.foldl Traps.count t)

/-- The verdict of `trapcheck_run`, with what was found. -/
inductive TrapVerdict where
  | parseError (msg : String)
  | pass (t : Traps)
  | fail (t : Traps)
deriving DecidableEq, Repr

/-- The body of the loop of `trapcheck_run`. -/
def trapcheckFile (expect : Option ℕ) (data : Slice) : Outcome Empty (String × TrapVerdict) := do
  let hash ← sha256 data
  match ← (Container.parse data).attempt with
  | .error e => .ok (hex hash, .parseError e)
  | .ok c => do
    let t ← foldl (trapSection c) c.sections ⟨0, 0, []⟩
    let decodeOk := decode trapWord = "tw 0x1c,r0,r0"
    .ok (hex hash, if ¬decodeOk ∨ (∃ n ∈ expect, t.total ≠ n) then .fail t else .pass t)

/-! ## All files -/

/-- The files so far: what was printed for each, and the two flags. -/
structure Summary (α : Type) where
  lines : List (String × Option (String × α)) := []
  anyInvalid : Bool := false
  anyParseError : Bool := false

/-- One file, of which `none` is printed if it cannot be read. -/
def Summary.file {α : Type} (check : Slice → Outcome Empty (String × α)) (bad unparsed : α → Bool)
    (read : String → Option Slice) (s : Summary α) (path : String) : Outcome Empty (Summary α) :=
  match read path with
  | none => .ok { s with lines := s.lines ++ [(path, none)], anyParseError := true }
  | some data => do
    let r ← check data
    .ok
      { lines := s.lines ++ [(path, some r)]
        anyInvalid := s.anyInvalid || bad r.2
        anyParseError := s.anyParseError || unparsed r.2 }

/-- The exit code. -/
def Summary.exitCode {α : Type} (s : Summary α) : ℕ :=
  if s.anyInvalid then 1 else if s.anyParseError then 2 else 0

def Verdict.bad : Verdict → Bool
  | .invalid => true
  | _ => false

def Verdict.unparsed : Verdict → Bool
  | .parseError _ => true
  | _ => false

def TrapVerdict.bad : TrapVerdict → Bool
  | .fail _ => true
  | _ => false

def TrapVerdict.unparsed : TrapVerdict → Bool
  | .parseError _ => true
  | _ => false

/-- `trapcheck_run`. -/
def trapcheckRun (read : String → Option Slice) (files : List String) (expect : Option ℕ) :
    Outcome Empty (Summary TrapVerdict) :=
  foldl (Summary.file (trapcheckFile expect) TrapVerdict.bad TrapVerdict.unparsed read) files {}

/-- The loop of `main`. -/
def checkRun (read : String → Option Slice) (files : List String) :
    Outcome Empty (Summary Verdict) :=
  foldl (Summary.file checkFile Verdict.bad Verdict.unparsed read) files {}

/-- `main`: the exit code. -/
def pefcheckMain (read : String → Option Slice) (args : List String) : Outcome Empty ℕ :=
  match options args with
  | .error _ => .ok 2
  | .ok o =>
    if o.trapcheckMode then do
      let s ← trapcheckRun read o.files o.expect
      .ok s.exitCode
    else do
      let s ← checkRun read o.files
      .ok s.exitCode

/-! ## Validity -/

/-- What validation asks of a section. -/
structure SectionFits (c : Container) (s : PefSection) : Prop where
  bounds : s.containerOffset.toNat + s.containerLength.toNat ≤ c.data.bytes.length
  code : s.kind = 0 → 16 ∣ s.containerOffset.toNat
  aligned : s.alignment.toNat ≤ 13 → 2 ^ s.alignment.toNat ∣ s.containerOffset.toNat

/-- What validation asks of the special main. -/
def MainFits (c : Container) : Prop :=
  c.loader.mainSection = -1 ∨ ∃ s, 0 ≤ c.loader.mainSection ∧
    c.sections[c.loader.mainSection.toInt.toNat]? = some s ∧
    (s.kind = 0 → 4 ∣ s.defaultAddress.toNat + c.loader.mainOffset.toNat)

/-- A container without errors. -/
structure Container.WellFormed (c : Container) : Prop where
  sections : ∀ s ∈ c.sections, SectionFits c s
  relocs : c.loader.relocInstrOffset.toNat ≤ c.loaderContainer.length
  strings : c.loader.loaderStringsOffset.toNat < c.loaderContainer.length
  exports : c.loader.exportHashOffset.toNat < c.loaderContainer.length
  power : c.loader.exportHashTablePower ≤ 20
  main : MainFits c

section
variable {c : Container} {r r' : Report}

theorem require_errors (r : Report) (p : Prop) [Decidable p] (msg : String) :
    (r.require p msg).errors = [] ↔ r.errors = [] ∧ p := by
  unfold Report.require
  split_ifs with h <;> simp [Report.error, h]

@[simp] theorem require_mainTarget (r : Report) (p : Prop) [Decidable p] (msg : String) :
    (r.require p msg).mainTarget = r.mainTarget := by
  unfold Report.require
  split_ifs <;> rfl

theorem uint32_mod_eq_zero {a b : UInt32} : a % b = 0 ↔ b.toNat ∣ a.toNat := by
  rw [← UInt32.toNat_inj, UInt32.toNat_mod, Nat.dvd_iff_mod_eq_zero]
  rfl

/-- **One section.** -/
theorem validateSection_errors (i : ℕ) (s : PefSection) :
    (validateSection c r i s).errors = [] ↔ r.errors = [] ∧ SectionFits c s := by
  have hoff := s.containerOffset.toNat_lt
  have hlen := s.containerLength.toNat_lt
  have hsum : saturatingAdd s.containerOffset.toNat s.containerLength.toNat =
      s.containerOffset.toNat + s.containerLength.toNat := by
    have hword : wordSize = 2 ^ 64 := rfl
    rw [saturatingAdd, min_eq_left]
    omega
  have hcode : (¬(s.kind = 0 ∧ s.containerOffset % codeContainerAlignment ≠ 0)) ↔
      (s.kind = 0 → 16 ∣ s.containerOffset.toNat) := by
    rw [not_and, not_not, uint32_mod_eq_zero]
    rfl
  unfold validateSection
  dsimp only
  split_ifs with halign
  · rw [require_errors, require_errors, require_errors, hsum, hcode, ← Nat.dvd_iff_mod_eq_zero]
    constructor
    · rintro ⟨⟨⟨hr, hbounds⟩, hkind⟩, hdvd⟩
      exact ⟨hr, hbounds, hkind, fun _ => hdvd⟩
    · rintro ⟨hr, h⟩
      exact ⟨⟨⟨hr, h.bounds⟩, h.code⟩, h.aligned halign⟩
  · rw [require_errors, require_errors, hsum, hcode]
    constructor
    · rintro ⟨⟨hr, hbounds⟩, hkind⟩
      exact ⟨hr, hbounds, hkind, fun h => absurd h halign⟩
    · rintro ⟨hr, h⟩
      exact ⟨⟨hr, h.bounds⟩, h.code⟩

theorem validateSections_errors (i : ℕ) (l : List PefSection) (r : Report) :
    (validateSections c i l r).errors = [] ↔ r.errors = [] ∧ ∀ s ∈ l, SectionFits c s := by
  induction l generalizing i r with
  | nil => simp [validateSections]
  | cons s l ih =>
    rw [validateSections, ih, validateSection_errors, List.forall_mem_cons, and_assoc]

theorem loaderRel_errors (lcLen : ℕ) (off : UInt32) {n : ℕ} (hn : n ≤ 1) (what : String) :
    (loaderRel r lcLen off n what).errors = [] ↔ r.errors = [] ∧ off.toNat + n ≤ lcLen := by
  have hoff := off.toNat_lt
  have hword : wordSize = 2 ^ 64 := rfl
  have hadd : checkedAdd off.toNat n = some (off.toNat + n) := if_pos (by omega)
  rw [loaderRel, hadd]
  exact require_errors ..

theorem validateLoader_errors :
    (validateLoader c r).errors = [] ↔ r.errors = [] ∧
      c.loader.relocInstrOffset.toNat ≤ c.loaderContainer.length ∧
      c.loader.loaderStringsOffset.toNat < c.loaderContainer.length ∧
      c.loader.exportHashOffset.toNat < c.loaderContainer.length ∧
      c.loader.exportHashTablePower ≤ 20 := by
  unfold validateLoader
  dsimp only
  rw [require_errors, loaderRel_errors _ _ le_rfl, loaderRel_errors _ _ le_rfl,
    loaderRel_errors _ _ (Nat.zero_le 1)]
  simp only [Nat.add_zero, and_assoc, Nat.succ_le_iff]

/-- The analysis of the special main's bytes adds no error. -/
theorem storedVector_keeps {ms : ℕ} {s : PefSection} (h : storedVector c r ms s = .ok r') :
    r'.errors = r.errors ∧ r'.mainTarget = r.mainTarget := by
  obtain ⟨content, -, h⟩ := bind_eq_ok.1 h
  rcases content with e | content
  · obtain rfl := ok.inj h
    exact ⟨rfl, rfl⟩
  · dsimp only at h
    split_ifs at h
    · simp only [bind_eq_ok] at h
      obtain ⟨fin, -, bytes, -, w0, -, w1, -, h⟩ := h
      split_ifs at h <;> (obtain rfl := ok.inj h; exact ⟨rfl, rfl⟩)
    · obtain rfl := ok.inj h
      exact ⟨rfl, rfl⟩

theorem relocatedVector_keeps (h : relocatedVector c r = .ok r') :
    r'.errors = r.errors ∧ r'.mainTarget = r.mainTarget := by
  obtain ⟨rv, -, h⟩ := bind_eq_ok.1 h
  rcases rv with - | rv
  · obtain rfl := ok.inj h
    exact ⟨rfl, rfl⟩
  · obtain rfl := ok.inj h
    rcases rv.decodeStatus with e | u <;> exact ⟨rfl, rfl⟩

theorem relocStream_keeps (h : relocStream c r = .ok r') :
    r'.errors = r.errors ∧ r'.mainTarget = r.mainTarget := by
  unfold relocStream at h
  dsimp only at h
  split_ifs at h
  · simp only [bind_eq_ok] at h
    obtain ⟨fin, -, bytes, -, h⟩ := h
    obtain rfl := ok.inj h
    exact ⟨rfl, rfl⟩
  · obtain rfl := ok.inj h
    exact ⟨rfl, rfl⟩
  · obtain rfl := ok.inj h
    exact ⟨rfl, rfl⟩

theorem int32_lt_zero {a : Int32} : a < 0 ↔ ¬0 ≤ a := by
  rw [Int32.not_le]

/-- **The special main.** -/
theorem validateMain_errors (h : validateMain c r = .ok r') :
    (r'.errors = [] ↔ r.errors = [] ∧ MainFits c) ∧
      ((∀ t ∈ r.mainTarget, t.sectionIndex < c.sections.length) →
        ∀ t ∈ r'.mainTarget, t.sectionIndex < c.sections.length) := by
  unfold validateMain at h
  dsimp only at h
  split_ifs at h with hnone hout
  · obtain rfl := ok.inj h
    exact ⟨⟨fun hr => ⟨hr, .inl hnone⟩, And.left⟩, id⟩
  · obtain rfl := ok.inj h
    refine ⟨⟨fun hr => ?_, ?_⟩, id⟩
    · simp [Report.error] at hr
    · rintro ⟨-, hmain⟩
      exfalso
      rcases hmain with hmain | ⟨s, hnonneg, hs, -⟩
      · exact hnone hmain
      · rcases hout with hneg | hlen
        · exact int32_lt_zero.1 hneg hnonneg
        · rw [List.getElem?_eq_none hlen] at hs
          cases hs
  · obtain ⟨hnonneg, hlt⟩ := not_or.1 hout
    have hlt : c.loader.mainSection.toInt.toNat < c.sections.length := Nat.lt_of_not_le hlt
    have hnonneg : 0 ≤ c.loader.mainSection := Int32.not_lt.1 hnonneg
    obtain ⟨s, hs, h⟩ := bind_eq_ok.1 h
    rw [get_eq_ok] at hs
    have hmain : MainFits c ↔
        (s.kind = 0 → 4 ∣ s.defaultAddress.toNat + c.loader.mainOffset.toNat) := by
      constructor
      · rintro (hmain | ⟨s', -, hs', hfits⟩)
        · exact absurd hmain hnone
        · obtain rfl := Option.some.inj (hs.symm.trans hs')
          exact hfits
      · exact fun hfits => .inr ⟨s, hnonneg, hs, hfits⟩
    rw [hmain]
    split_ifs at h with hkind
    · obtain ⟨addr, haddr, h⟩ := bind_eq_ok.1 h
      obtain ⟨-, rfl⟩ := word_eq_ok.1 haddr
      obtain rfl := ok.inj h
      refine ⟨?_, fun _ t ht => ?_⟩
      · rw [require_errors, ← Nat.dvd_iff_mod_eq_zero]
        simp [hkind]
      · rw [require_mainTarget] at ht
        obtain rfl := Option.some.inj ht
        exact hlt
    · obtain ⟨r₁, hstored, hreloc⟩ := bind_eq_ok.1 h
      obtain ⟨herr₁, htarget₁⟩ := storedVector_keeps hstored
      obtain ⟨herr₂, htarget₂⟩ := relocatedVector_keeps hreloc
      refine ⟨?_, fun _ t ht => ?_⟩
      · rw [herr₂, herr₁]
        simp [hkind]
      · rw [htarget₂, htarget₁] at ht
        obtain rfl := Option.some.inj ht
        exact hlt

theorem validateSections_mainTarget (i : ℕ) (l : List PefSection) (r : Report) :
    (validateSections c i l r).mainTarget = r.mainTarget := by
  induction l generalizing i r with
  | nil => rfl
  | cons s l ih =>
    rw [validateSections, ih]
    unfold validateSection
    dsimp only
    split_ifs <;> simp

theorem validateLoader_mainTarget : (validateLoader c r).mainTarget = r.mainTarget := by
  have hrel : ∀ (r : Report) (lcLen : ℕ) (off : UInt32) (n : ℕ) (what : String),
      (loaderRel r lcLen off n what).mainTarget = r.mainTarget := by
    intro r lcLen off n what
    unfold loaderRel
    split
    · rfl
    · exact require_mainTarget ..
  unfold validateLoader
  dsimp only
  rw [require_mainTarget, hrel, hrel, hrel]

/-- **Validation**: a container is valid if and only if it is well formed. -/
theorem validate_valid (h : validate c = .ok r) :
    (r.valid = true ↔ c.WellFormed) ∧
      ∀ t ∈ r.mainTarget, t.sectionIndex < c.sections.length := by
  obtain ⟨r₁, hmain, hstream⟩ := bind_eq_ok.1 h
  obtain ⟨herr, htarget⟩ := relocStream_keeps hstream
  obtain ⟨hmainErr, hmainTarget⟩ := validateMain_errors hmain
  refine ⟨?_, ?_⟩
  · rw [Report.valid, List.isEmpty_iff, herr, hmainErr, validateLoader_errors,
      validateSections_errors]
    constructor
    · rintro ⟨⟨⟨-, hsections⟩, hrelocs, hstrings, hexports, hpower⟩, hmain⟩
      exact ⟨hsections, hrelocs, hstrings, hexports, hpower, hmain⟩
    · rintro ⟨hsections, hrelocs, hstrings, hexports, hpower, hmain⟩
      exact ⟨⟨⟨rfl, hsections⟩, hrelocs, hstrings, hexports, hpower⟩, hmain⟩
  · rw [htarget]
    refine hmainTarget ?_
    rw [validateLoader_mainTarget, validateSections_mainTarget]
    intro t ht
    cases ht

end

/-- What is left for `checkFile` to do with a container. -/
theorem checkFile_eq {data : Slice} (hmax : data.bytes.length + 72 ≤ isizeMax) :
    (∃ hash e, checkFile data = .ok (hash, .parseError e) ∧ Container.parse data = .err e) ∨
      ∃ hash c, Container.parse data = .ok c ∧
        ((checkFile data = .ok (hash, .pass) ∧ c.WellFormed) ∨
          (checkFile data = .ok (hash, .invalid) ∧ ¬c.WellFormed)) := by
  obtain ⟨digest, hhash, -⟩ := sha256_eq data hmax
  have hsafe := Container.parse_safe data
  unfold checkFile
  rw [hhash, ok_bind]
  rcases hparse : Container.parse data with c | e | -
  · refine .inr ⟨hex digest, c, rfl, ?_⟩
    have hsound := hsafe.of_eq_ok hparse
    obtain ⟨r, hr, -⟩ := (validate_safe hsound).exists_eq_ok
    obtain ⟨hvalid, htarget⟩ := validate_valid hr
    have hprint : ∃ name, printReport c r = .ok name := by
      unfold printReport
      rcases ht : r.mainTarget with - | t
      · exact ⟨none, rfl⟩
      · have hlt := htarget t ht
        exact ⟨_, bind_eq_ok.2 ⟨_, get_eq hlt, rfl⟩⟩
    obtain ⟨name, hname⟩ := hprint
    simp only [attempt, ok_bind, hr, hname]
    by_cases hwf : c.WellFormed
    · exact .inl ⟨by rw [if_pos (hvalid.2 hwf)], hwf⟩
    · exact .inr ⟨by rw [if_neg (mt hvalid.1 hwf)], hwf⟩
  · exact .inl ⟨hex digest, e, rfl, rfl⟩
  · exact absurd hparse hsafe.ne_panic

/-! ## Traps -/

/-- What a scan reads: the bytes of a code section, if there are any. -/
def codeBytes (c : Container) (s : PefSection) : Option (List UInt8) :=
  if s.kind = 0 ∨ s.kind = 6 then
    match sectionBytes c s with
    | .ok bytes => some bytes
    | _ => none
  else none

/-- The trap words of a section. -/
def sectionTraps (c : Container) (s : PefSection) : ℕ :=
  match codeBytes c s with
  | some bytes => (List.range (bytes.length / 4)).countP (codeWord bytes · = some trapWord)
  | none => 0

/-- The trap words in the code of a container. -/
def trapCount (c : Container) : ℕ := (c.sections.map (sectionTraps c)).sum

section
variable {c : Container}

theorem length_sectionBytes {s : PefSection} {bytes : List UInt8}
    (h : sectionBytes c s = .ok bytes) : bytes.length ≤ isizeMax := by
  have hdata := c.data.length_le
  obtain ⟨fin, hfin, h⟩ := bind_eq_ok.1 h
  obtain ⟨-, rfl⟩ := word_eq_ok.1 hfin
  obtain ⟨u, hfits, h⟩ := bind_eq_ok.1 h
  have hle := ensure_eq_ok.1 hfits
  split_ifs at h
  · rw [slice_eq (by omega) hle] at h
    obtain rfl := ok.inj h
    rw [List.length_drop, List.length_take]
    omega
  · exact (c.unpackSection_safe s).of_eq_ok h

theorem total_foldl_count (hits : List TrapHit) (t : Traps) :
    (hits.foldl Traps.count t).total = t.total + hits.length := by
  induction hits generalizing t with
  | nil => rfl
  | cons h hits ih =>
    have hone : (t.count h).total = t.total + 1 := by
      unfold Traps.count
      split <;> rfl
    rw [List.foldl_cons, ih, hone, List.length_cons]
    omega

/-- **One section** adds its trap words. -/
theorem trapSection_eq (s : PefSection) (t : Traps) :
    ∃ t', trapSection c t s = .ok t' ∧ t'.total = t.total + sectionTraps c s := by
  have hmax := isizeMax_eq
  have hword : wordSize = 2 ^ 64 := rfl
  unfold trapSection sectionTraps codeBytes
  by_cases hkind : s.kind = 0 ∨ s.kind = 6
  · have hnot : ¬(s.kind ≠ 0 ∧ s.kind ≠ 6) := by
      rintro ⟨h₀, h₆⟩
      rcases hkind with h | h
      · exact h₀ h
      · exact h₆ h
    rw [if_neg hnot, if_pos hkind]
    rcases hbytes : sectionBytes c s with bytes | e | -
    · have hlen := length_sectionBytes hbytes
      have hoff := s.containerOffset.toNat_lt
      refine ⟨_, bind_eq_ok.2 ⟨.ok bytes, rfl, bind_eq_ok.2 ⟨_, scanSection_eq (by omega), rfl⟩⟩, ?_⟩
      simp only [total_foldl_count, List.length_map, List.countP_eq_length_filter]
    · exact ⟨t, rfl, rfl⟩
    · exact absurd hbytes (sectionBytes_safe s).ne_panic
  · have hnot : s.kind ≠ 0 ∧ s.kind ≠ 6 := not_or.1 hkind
    rw [if_pos hnot, if_neg hkind]
    exact ⟨t, rfl, rfl⟩

theorem trapSections_eq (l : List PefSection) (t : Traps) :
    ∃ t', foldl (trapSection c) l t = .ok t' ∧
      t'.total = t.total + (l.map (sectionTraps c)).sum := by
  induction l generalizing t with
  | nil => exact ⟨t, rfl, rfl⟩
  | cons s l ih =>
    obtain ⟨t₁, hfirst, htotal₁⟩ := trapSection_eq s t
    obtain ⟨t₂, hrest, htotal₂⟩ := ih t₁
    refine ⟨t₂, bind_eq_ok.2 ⟨t₁, hfirst, hrest⟩, ?_⟩
    rw [htotal₂, htotal₁, List.map_cons, List.sum_cons, Nat.add_assoc]

end

/-- The number of traps is as expected, if any number is. -/
def AsExpected (expect : Option ℕ) (c : Container) : Prop := ∀ n ∈ expect, trapCount c = n

/-- What is left for `trapcheckFile` to do with a container. -/
theorem trapcheckFile_eq (expect : Option ℕ) {data : Slice}
    (hmax : data.bytes.length + 72 ≤ isizeMax) :
    (∃ hash e, trapcheckFile expect data = .ok (hash, .parseError e) ∧
        Container.parse data = .err e) ∨
      ∃ hash c t, Container.parse data = .ok c ∧
        ((trapcheckFile expect data = .ok (hash, .pass t) ∧ AsExpected expect c) ∨
          (trapcheckFile expect data = .ok (hash, .fail t) ∧ ¬AsExpected expect c)) := by
  obtain ⟨digest, hhash, -⟩ := sha256_eq data hmax
  have hdecode : decode trapWord = "tw 0x1c,r0,r0" :=
    (decode_encodeTw 0x1C 0 0).trans (by decide +kernel)
  unfold trapcheckFile
  rw [hhash, ok_bind]
  rcases hparse : Container.parse data with c | e | -
  · obtain ⟨t, ht, htotal⟩ := trapSections_eq (c := c) c.sections ⟨0, 0, []⟩
    have htotal : t.total = trapCount c := by rw [htotal, trapCount, Nat.zero_add]
    refine .inr ⟨hex digest, c, t, rfl, ?_⟩
    simp only [attempt, ok_bind, ht, hdecode, not_true_eq_false, false_or, htotal]
    by_cases hall : AsExpected expect c
    · have hno : ¬∃ n ∈ expect, trapCount c ≠ n := by
        rintro ⟨n, hn, hne⟩
        exact hne (hall n hn)
      exact .inl ⟨by rw [if_neg hno], hall⟩
    · have hsome : ∃ n ∈ expect, trapCount c ≠ n := by
        unfold AsExpected at hall
        push Not at hall
        exact hall
      exact .inr ⟨by rw [if_pos hsome], hall⟩
  · exact .inl ⟨hex digest, e, rfl, rfl⟩
  · exact absurd hparse (Container.parse_safe data).ne_panic

/-! ## The exit code -/

/-- A file that holds a container. -/
def Holds (read : String → Option Slice) (path : String) (c : Container) : Prop :=
  ∃ data, read path = some data ∧ Container.parse data = .ok c

/-- A file that cannot be read or parsed. -/
def Unusable (read : String → Option Slice) (path : String) : Prop := ∀ c, ¬Holds read path c

/-- What a run over the files finds, if `Good` is what a check asks of a container. -/
structure Found {α : Type} (read : String → Option Slice) (Good : Container → Prop)
    (files : List String) (s : Summary α) : Prop where
  bad : s.anyInvalid = true ↔ ∃ path ∈ files, ∃ c, Holds read path c ∧ ¬Good c
  unusable : s.anyParseError = true ↔ ∃ path ∈ files, Unusable read path

section
variable {α : Type} {read : String → Option Slice} {Good : Container → Prop}

/-- What a check says of one file, as flags. -/
def Checks (Good : Container → Prop) (check : Slice → Outcome Empty (String × α))
    (bad unparsed : α → Bool) (data : Slice) : Prop :=
  ∃ r, check data = .ok r ∧
    (bad r.2 = true ↔ ∃ c, Container.parse data = .ok c ∧ ¬Good c) ∧
    (unparsed r.2 = true ↔ ∀ c, Container.parse data ≠ .ok c)

theorem holds_iff {path : String} {data : Slice} (h : read path = some data) (c : Container) :
    Holds read path c ↔ Container.parse data = .ok c := by
  constructor
  · rintro ⟨data', hread, hparse⟩
    obtain rfl := Option.some.inj (h.symm.trans hread)
    exact hparse
  · exact fun hparse => ⟨data, h, hparse⟩

theorem Found.nil : Found read Good [] ({} : Summary α) := by
  constructor <;> simp

/-- One more file that cannot be read. -/
theorem Found.unread {files : List String} {s : Summary α} (hs : Found read Good files s)
    {path : String} (hread : read path = none) {lines : List (String × Option (String × α))} :
    Found read Good (files ++ [path]) { s with lines, anyParseError := true } := by
  have hnone : ∀ c, ¬Holds read path c := by
    rintro c ⟨data, hdata, -⟩
    rw [hread] at hdata
    cases hdata
  constructor
  · rw [hs.bad]
    simp [hnone]
  · refine iff_of_true rfl ⟨path, ?_, hnone⟩
    simp

/-- One more file that was checked. -/
theorem Found.checked {files : List String} {s : Summary α} (hs : Found read Good files s)
    {path : String} {data : Slice} (hread : read path = some data) {bad unparsed : Bool}
    {lines : List (String × Option (String × α))}
    (hbad : bad = true ↔ ∃ c, Container.parse data = .ok c ∧ ¬Good c)
    (hunparsed : unparsed = true ↔ ∀ c, Container.parse data ≠ .ok c) :
    Found read Good (files ++ [path])
      ⟨lines, s.anyInvalid || bad, s.anyParseError || unparsed⟩ := by
  constructor
  · simp [hs.bad, hbad, holds_iff hread, or_and_right, exists_or]
  · simp [hs.unusable, hunparsed, Unusable, holds_iff hread, or_and_right, exists_or]

/-- **All files**: the flags of a run, from what the check says of each file. -/
theorem foldl_file {check : Slice → Outcome Empty (String × α)} {bad unparsed : α → Bool}
    {files : List String}
    (hcheck : ∀ path ∈ files, ∀ data, read path = some data → Checks Good check bad unparsed data) :
    ∃ s, foldl (Summary.file check bad unparsed read) files {} = .ok s ∧
      Found read Good files s := by
  have hstep : ∀ (s : Summary α) (done : List String), ∀ path ∈ files, Found read Good done s →
      ∃ s', Summary.file check bad unparsed read s path = .ok s' ∧
        Found read Good (done ++ [path]) s' := by
    intro s done path hpath hs
    unfold Summary.file
    rcases hread : read path with - | data
    · exact ⟨_, rfl, hs.unread hread⟩
    · obtain ⟨r, hr, hbad, hunparsed⟩ := hcheck path hpath data hread
      refine ⟨_, bind_eq_ok.2 ⟨r, hr, rfl⟩, ?_⟩
      exact hs.checked hread hbad hunparsed
  obtain ⟨s, hs, hfound⟩ := foldl_sim (R := fun s done => Found read Good done s) hstep Found.nil
  have hall : files.foldl (fun done path => done ++ [path]) [] = files := by
    rw [List.foldl_append_eq_append, List.nil_append, ← List.flatMap_def, List.flatMap_singleton']
  rw [hall] at hfound
  exact ⟨s, hs, hfound⟩

/-- **The exit code** tells the three outcomes of a run apart. -/
theorem Found.exitCode {files : List String} {s : Summary α} (hs : Found read Good files s) :
    (s.exitCode = 0 ↔ ∀ path ∈ files, ∃ c, Holds read path c ∧ Good c) ∧
    (s.exitCode = 1 ↔ ∃ path ∈ files, ∃ c, Holds read path c ∧ ¬Good c) ∧
    (s.exitCode = 2 ↔ (∀ path ∈ files, ∀ c, Holds read path c → Good c) ∧
      ∃ path ∈ files, Unusable read path) := by
  have hbad := hs.bad
  have hunusable := hs.unusable
  have hnone : (¬∃ path ∈ files, ∃ c, Holds read path c ∧ ¬Good c) ↔
      ∀ path ∈ files, ∀ c, Holds read path c → Good c := by
    push Not
    rfl
  unfold Summary.exitCode
  rcases hinvalid : s.anyInvalid with - | -
  · rw [hinvalid] at hbad
    have hno : ¬∃ path ∈ files, ∃ c, Holds read path c ∧ ¬Good c := by simpa using hbad
    have hgood := hnone.1 hno
    rcases herror : s.anyParseError with - | -
    · rw [herror] at hunusable
      have hall : ∀ path ∈ files, ∃ c, Holds read path c := by
        simpa [Unusable] using hunusable
      refine ⟨iff_of_true rfl fun path hpath => ?_, iff_of_false nofun hno, ?_⟩
      · obtain ⟨c, hc⟩ := hall path hpath
        exact ⟨c, hc, hgood path hpath c hc⟩
      · refine iff_of_false nofun fun h => ?_
        obtain ⟨path, hpath, hun⟩ := h.2
        obtain ⟨c, hc⟩ := hall path hpath
        exact hun c hc
    · rw [herror] at hunusable
      obtain ⟨path, hpath, hun⟩ := hunusable.1 rfl
      refine ⟨iff_of_false nofun fun h => ?_, iff_of_false nofun hno,
        iff_of_true rfl ⟨hgood, path, hpath, hun⟩⟩
      obtain ⟨c, hc, -⟩ := h path hpath
      exact hun c hc
  · rw [hinvalid] at hbad
    have hsome := hbad.1 rfl
    refine ⟨iff_of_false nofun fun h => ?_, iff_of_true rfl hsome,
      iff_of_false nofun fun h => hnone.2 h.1 hsome⟩
    obtain ⟨path, hpath, c, hc, hill⟩ := hsome
    obtain ⟨c', hc', hgood⟩ := h path hpath
    obtain ⟨data, hread, hparse⟩ := hc
    obtain rfl := ok.inj (hparse.symm.trans ((holds_iff hread c').1 hc'))
    exact hill hgood

end

/-- What a run over files of which each fits into memory comes to. -/
structure ExitsAs (read : String → Option Slice) (Good : Container → Prop) (files : List String)
    (code : ℕ) : Prop where
  pass : code = 0 ↔ ∀ path ∈ files, ∃ c, Holds read path c ∧ Good c
  fail : code = 1 ↔ ∃ path ∈ files, ∃ c, Holds read path c ∧ ¬Good c
  unusable : code = 2 ↔ (∀ path ∈ files, ∀ c, Holds read path c → Good c) ∧
    ∃ path ∈ files, Unusable read path

theorem checkFile_checks {data : Slice} (hmax : data.bytes.length + 72 ≤ isizeMax) :
    Checks Container.WellFormed checkFile Verdict.bad Verdict.unparsed data := by
  rcases checkFile_eq hmax with ⟨hash, e, hcheck, hparse⟩ | ⟨hash, c, hparse, hcheck⟩
  · refine ⟨_, hcheck, ?_, ?_⟩ <;> simp [hparse, Verdict.bad, Verdict.unparsed]
  · rcases hcheck with ⟨hcheck, hwf⟩ | ⟨hcheck, hwf⟩
    · refine ⟨_, hcheck, ?_, ?_⟩ <;> simp [hparse, hwf, Verdict.bad, Verdict.unparsed]
    · refine ⟨_, hcheck, ?_, ?_⟩ <;> simp [hparse, hwf, Verdict.bad, Verdict.unparsed]

theorem trapcheckFile_checks (expect : Option ℕ) {data : Slice}
    (hmax : data.bytes.length + 72 ≤ isizeMax) :
    Checks (AsExpected expect) (trapcheckFile expect) TrapVerdict.bad TrapVerdict.unparsed data := by
  rcases trapcheckFile_eq expect hmax with ⟨hash, e, hcheck, hparse⟩ | ⟨hash, c, t, hparse, hcheck⟩
  · refine ⟨_, hcheck, ?_, ?_⟩ <;> simp [hparse, TrapVerdict.bad, TrapVerdict.unparsed]
  · rcases hcheck with ⟨hcheck, hall⟩ | ⟨hcheck, hall⟩
    · refine ⟨_, hcheck, ?_, ?_⟩ <;> simp [hparse, hall, TrapVerdict.bad, TrapVerdict.unparsed]
    · refine ⟨_, hcheck, ?_, ?_⟩ <;> simp [hparse, hall, TrapVerdict.bad, TrapVerdict.unparsed]

/-- One file is there, and one is not. -/
def readZeroFilled (path : String) : Option Slice :=
  if path = "driver" then some ⟨zeroFilledFile, length_zeroFilledFile⟩ else none

end Usbmidi9
